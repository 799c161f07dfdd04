import RttHttp.Json.Equality
import RttHttp.Json.Spelling

/-! # A text stands for one value

Two values spelled by one text are the same, wherever the white space stands and
whichever escapes are chosen. Each part of a text ends where its value says, so what
follows it is determined as well. Of the numbers it is used that their texts consist of
the bytes of numbers.
-/

namespace RttHttp

/-! ## Strings -/

/-- Reads what follows `\u`: the bytes of the character, and the rest. -/
def readUnit : Bytes → Option (Bytes × Bytes)
  | a :: b :: c :: d :: rest =>
      match hexUnit a b c d with
      | none => none
      | some code =>
          if code < 0xd800 ∨ 0xdfff < code then some (utf8Encode code, rest)
          else match rest with
            | _ :: _ :: e :: f :: g :: h :: more => (hexUnit e f g h).map fun low =>
                (utf8Encode (0x10000 + (code - 0xd800) * 0x400 + (low - 0xdc00)), more)
            | _ => none
  | _ => none

/-- Reads what follows a backslash. -/
def readEscape : Bytes → Option (Bytes × Bytes)
  | [] => none
  | letter :: rest =>
      if letter = 0x75 then readUnit rest else (escapeLetter letter).map fun c => ([c], rest)

/-- Reads the first character inside a string, up to its closing quote. -/
def readChar : Bytes → Option (Bytes × Bytes)
  | [] => none
  | c :: rest =>
      if c = quote then none
      else if c = 0x5c then readEscape rest else some ([c], rest)

theorem escapeLetter_u : escapeLetter 0x75 = none := by decide

theorem readChar_plain {c : UInt8} (hc : 0x20 ≤ c ∧ c ≠ 0x22 ∧ c ≠ 0x5c) (rest : Bytes) :
    readChar (c :: rest) = some ([c], rest) := by
  simp [readChar, quote, hc.2.1, hc.2.2]

theorem readChar_escape {letter c : UInt8} (h : escapeLetter letter = some c) (rest : Bytes) :
    readChar (0x5c :: letter :: rest) = some ([c], rest) := by
  have hne : letter ≠ 0x75 := by
    rintro rfl
    rw [escapeLetter_u] at h
    cases h
  simp [readChar, readEscape, quote, hne, h]

theorem readChar_unicode {a b c d : UInt8} {code : Nat} (hunit : hexUnit a b c d = some code)
    (hcode : code < 0xd800 ∨ 0xdfff < code) (rest : Bytes) :
    readChar (0x5c :: 0x75 :: a :: b :: c :: d :: rest) = some (utf8Encode code, rest) := by
  simp [readChar, readEscape, readUnit, quote, hunit, hcode]

theorem readChar_surrogates {a b c d e f g h : UInt8} {high low : Nat}
    (hhigh : hexUnit a b c d = some high) (hlow : hexUnit e f g h = some low)
    (hrange : 0xd800 ≤ high ∧ high ≤ 0xdbff ∧ 0xdc00 ≤ low ∧ low ≤ 0xdfff) (rest : Bytes) :
    readChar (0x5c :: 0x75 :: a :: b :: c :: d :: 0x5c :: 0x75 :: e :: f :: g :: h :: rest) =
      some (utf8Encode (0x10000 + (high - 0xd800) * 0x400 + (low - 0xdc00)), rest) := by
  have hpair : ¬ (high < 0xd800 ∨ 0xdfff < high) := by omega
  simp [readChar, readEscape, readUnit, quote, hhigh, hlow, hpair]

/-- The characters that follow the first one are spelled by what follows its text. -/
theorem chars_tail {text decoded rest : Bytes} {short : Nat} (h : SpellsChars text decoded short)
    {piece tail : Bytes} (hread : readChar (text ++ quote :: rest) = some (piece, tail)) :
    ∃ after others less, SpellsChars after others less ∧ decoded = piece ++ others ∧
      tail = after ++ quote :: rest := by
  cases h with
  | nil => simp [readChar] at hread
  | plain hc hrest =>
      rw [List.cons_append, readChar_plain hc] at hread
      obtain ⟨rfl, rfl⟩ := Prod.mk.inj (Option.some.inj hread)
      exact ⟨_, _, _, hrest, rfl, rfl⟩
  | escape hletter hrest =>
      rw [List.cons_append, List.cons_append, readChar_escape hletter] at hread
      obtain ⟨rfl, rfl⟩ := Prod.mk.inj (Option.some.inj hread)
      exact ⟨_, _, _, hrest, rfl, rfl⟩
  | unicode hunit hcode hrest =>
      simp only [List.cons_append] at hread
      rw [readChar_unicode hunit hcode] at hread
      obtain ⟨rfl, rfl⟩ := Prod.mk.inj (Option.some.inj hread)
      exact ⟨_, _, _, hrest, rfl, rfl⟩
  | surrogates hhigh hlow hrange hrest =>
      simp only [List.cons_append] at hread
      rw [readChar_surrogates hhigh hlow hrange] at hread
      obtain ⟨rfl, rfl⟩ := Prod.mk.inj (Option.some.inj hread)
      exact ⟨_, _, _, hrest, rfl, rfl⟩

/-- One character more in front of strings that end where they should. -/
theorem char_cancel {whole text other piece first second rest others : Bytes} {two : Nat}
    (hread : readChar (whole ++ quote :: rest) = some (piece, text ++ quote :: rest))
    (hsecond : SpellsChars other second two)
    (h : whole ++ quote :: rest = other ++ quote :: others)
    (htail : ∀ {after more : Bytes} {less : Nat}, SpellsChars after more less →
      text ++ quote :: rest = after ++ quote :: others → first = more ∧ rest = others) :
    piece ++ first = second ∧ rest = others := by
  rw [h] at hread
  obtain ⟨after, more, less, hafter, rfl, hsame⟩ := chars_tail hsecond hread
  obtain ⟨rfl, hrest⟩ := htail hafter hsame
  exact ⟨rfl, hrest⟩

/-- Up to its closing quote a text stands for one string. -/
theorem chars_cancel {text other first second rest others : Bytes} {one two : Nat}
    (hfirst : SpellsChars text first one) (hsecond : SpellsChars other second two)
    (h : text ++ quote :: rest = other ++ quote :: others) : first = second ∧ rest = others := by
  induction hfirst generalizing other second two with
  | nil =>
      have hread : readChar (other ++ quote :: others) = none := by
        rw [← h]
        simp [readChar]
      cases hsecond with
      | nil => exact ⟨rfl, (List.cons.inj h).2⟩
      | plain hc =>
          rw [List.cons_append, readChar_plain hc] at hread
          cases hread
      | escape hletter =>
          rw [List.cons_append, List.cons_append, readChar_escape hletter] at hread
          cases hread
      | unicode => cases (List.cons.inj h).1
      | surrogates => cases (List.cons.inj h).1
  | plain hc hrest ih => exact char_cancel (readChar_plain hc _) hsecond h ih
  | escape hletter hrest ih => exact char_cancel (readChar_escape hletter _) hsecond h ih
  | unicode hunit hcode hrest ih => exact char_cancel (readChar_unicode hunit hcode _) hsecond h ih
  | surrogates hhigh hlow hrange hrest ih =>
      exact char_cancel (readChar_surrogates hhigh hlow hrange _) hsecond h ih

theorem string_cancel {text other first second rest others : Bytes} {one two : Nat}
    (hfirst : SpellsString first text one) (hsecond : SpellsString second other two)
    (h : text ++ rest = other ++ others) : first = second ∧ rest = others := by
  obtain ⟨inside, hinside, rfl⟩ := hfirst
  obtain ⟨more, hmore, rfl⟩ := hsecond
  simp only [List.cons_append, List.append_assoc, List.nil_append] at h
  exact chars_cancel hinside hmore (List.cons.inj h).2

/-! ## White space -/

/-- What follows a value with the white space around it: nothing, or punctuation. -/
structure Punctuated (rest : Bytes) : Prop where
  delimited : Delimited rest
  solid : Stops isWhite rest

theorem punctuated_cons {c : UInt8} {rest : Bytes} (hnumber : isNumberByte c = false)
    (hwhite : isWhite c = false) : Punctuated (c :: rest) :=
  ⟨stops_cons hnumber, stops_cons hwhite⟩

theorem punctuated_nil : Punctuated [] := by
  constructor <;> exact fun c hc => by cases hc

theorem isNumberByte_of_white {c : UInt8} (h : isWhite c = true) : isNumberByte c = false :=
  forall_byte (p := fun c => isWhite c = true → isNumberByte c = false) (by decide +kernel) c h

theorem isWhite_of_lead {c : UInt8} {lead : Lead} (h : byteLead c = some lead) :
    isWhite c = false := by
  have hall := forall_byte (p := fun c => (byteLead c).isSome = true → isWhite c = false)
    (by decide +kernel) c
  exact hall (by simp [h])

/-- White space after a value ends it too. -/
theorem Punctuated.padded {rest white : Bytes} (h : Punctuated rest) (hwhite : White white) :
    Delimited (white ++ rest) := by
  cases white with
  | nil => exact h.delimited
  | cons c more => exact stops_cons (isNumberByte_of_white (hwhite c List.mem_cons_self))

/-- What begins as a value does. -/
def Leads (text : Bytes) (lead : Lead) : Prop :=
  ∃ c rest, text = c :: rest ∧ byteLead c = some lead

theorem Leads.solid {text rest : Bytes} {lead : Lead} (h : Leads text lead) :
    Stops isWhite (text ++ rest) := by
  obtain ⟨c, more, rfl, hc⟩ := h
  exact stops_cons (isWhite_of_lead hc)

/-- The white space on both sides of a part is determined if the part is. -/
theorem padded_cancel {spells respells : Bytes → Nat → Prop} {same : Prop} {lead other : Lead}
    {text more rest others : Bytes} {one two : Nat}
    (hleads : ∀ inside short, spells inside short → Leads inside lead)
    (hothers : ∀ inside short, respells inside short → Leads inside other)
    (hinside : ∀ {inside again after tail : Bytes} {less fewer : Nat}, spells inside less →
      respells again fewer → Delimited after → Delimited tail → inside ++ after = again ++ tail →
      same ∧ after = tail)
    (hfirst : Padded spells text one) (hsecond : Padded respells more two) (hends : Punctuated rest)
    (hstops : Punctuated others) (h : text ++ rest = more ++ others) : same ∧ rest = others := by
  obtain ⟨before, inside, after, hbefore, hone, hafter, rfl⟩ := hfirst
  obtain ⟨front, again, tail, hfront, htwo, htail, rfl⟩ := hsecond
  simp only [List.append_assoc] at h
  obtain ⟨-, hrest⟩ := span_cancel hbefore hfront (hleads _ _ hone).solid (hothers _ _ htwo).solid h
  obtain ⟨hsame, hwhite⟩ := hinside hone htwo (hends.padded hafter) (hstops.padded htail) hrest
  exact ⟨hsame, (span_cancel hafter htail hends.solid hstops.solid hwhite).2⟩

/-- A bracket after white space is not where a value begins. -/
theorem padded_ne_close {spells : Bytes → Nat → Prop} {lead : Lead} {text white rest others : Bytes}
    {close : UInt8} {short : Nat} (hleads : ∀ inside short, spells inside short → Leads inside lead)
    (h : Padded spells text short) (hwhite : White white) (hclose : isWhite close = false)
    (hlead : byteLead close = none) : white ++ close :: rest ≠ text ++ others := by
  obtain ⟨before, inside, after, hbefore, hinside, -, rfl⟩ := h
  intro hsame
  simp only [List.append_assoc] at hsame
  obtain ⟨c, more, rfl, hc⟩ := hleads _ _ hinside
  have hsolid : Stops isWhite ((c :: more) ++ (after ++ others)) := stops_cons (isWhite_of_lead hc)
  obtain ⟨-, htail⟩ := span_cancel hwhite hbefore (stops_cons hclose) hsolid hsame
  rw [← (List.cons.inj htail).1, hlead] at hc
  cases hc

/-- Texts that go on alike begin values of one kind. -/
theorem leads_unique {text more rest others : Bytes} {lead other : Lead} (hfirst : Leads text lead)
    (hsecond : Leads more other) (h : text ++ rest = more ++ others) : lead = other := by
  obtain ⟨c, tail, rfl, hc⟩ := hfirst
  obtain ⟨d, back, rfl, hd⟩ := hsecond
  rw [(List.cons.inj h).1, hd] at hc
  exact (Option.some.inj hc).symm

/-! ## Values -/

section Values

variable {number : Bytes → Option Json}

theorem spells_number {json : Json} {text : Bytes} {short : Nat} (hlead : json.lead = .number)
    (h : Spells number json text short) : number text = some json ∧ text ≠ [] := by
  cases json with
  | int64 value => exact ⟨h.1, h.2.1⟩
  | uint64 value => exact ⟨h.1, h.2.1⟩
  | double value => exact ⟨h.1, h.2.1⟩
  | _ => cases hlead

theorem string_leads (decoded text : Bytes) (short : Nat) (h : SpellsString decoded text short) :
    Leads text .string := by
  obtain ⟨inside, -, rfl⟩ := h
  exact ⟨quote, _, rfl, rfl⟩

/-- What stands behind an element: nothing, or a comma and the elements that follow. -/
def Continued {α : Type} (spells : List α → Bytes → Nat → Prop) (rest : List α) (after : Bytes) :
    Prop :=
  rest = [] ∧ after = [] ∨ ∃ others more, spells rest others more ∧ after = comma :: others

/-- An element ends where the rest of its list goes on or is closed. -/
theorem Continued.punctuated {α : Type} {spells : List α → Bytes → Nat → Prop} {rest : List α}
    {after more : Bytes} {close : UInt8} (h : Continued spells rest after)
    (hclose : Punctuated (close :: more)) : Punctuated (after ++ close :: more) := by
  rcases h with ⟨-, rfl⟩ | ⟨others, _, -, rfl⟩
  · exact hclose
  · exact punctuated_cons rfl rfl

/-- Lists that go on alike behind an element are closed at the same place. -/
theorem Continued.cancel {α : Type} {spells : List α → Bytes → Nat → Prop} {tail back : List α}
    {after behind rest others : Bytes} {close : UInt8} (hfirst : Continued spells tail after)
    (hsecond : Continued spells back behind) (hclose : close ≠ comma)
    (hrest : ∀ {text other : Bytes} {one two : Nat}, spells tail text one → spells back other two →
      text ++ close :: rest = other ++ close :: others → tail = back ∧ rest = others)
    (h : after ++ close :: rest = behind ++ close :: others) : tail = back ∧ rest = others := by
  rcases hfirst with ⟨rfl, rfl⟩ | ⟨text, _, htext, rfl⟩ <;>
    rcases hsecond with ⟨rfl, rfl⟩ | ⟨other, _, hother, rfl⟩
  · exact ⟨rfl, (List.cons.inj h).2⟩
  -- One list is closed where the other goes on, and no bracket is a comma.
  · exact absurd (List.cons.inj h).1 hclose
  · exact absurd (List.cons.inj h).1.symm hclose
  · exact hrest htext hother (List.cons.inj h).2

/-- An element and what follows it. -/
theorem items_cons {item : Json} {rest : List Json} {text : Bytes} {short : Nat}
    (h : SpellsItems number (item :: rest) text short) :
    ∃ first one after, Padded (Spells number item) first one ∧ text = first ++ after ∧
      Continued (SpellsItems number) rest after := by
  obtain ⟨first, one, hfirst, hrest⟩ := h
  split at hrest
  next hempty =>
    obtain ⟨rfl, -⟩ := hrest
    exact ⟨_, one, [], hfirst, by simp, .inl ⟨List.isEmpty_iff.mp hempty, rfl⟩⟩
  next =>
    obtain ⟨others, more, hothers, htext, -⟩ := hrest
    exact ⟨first, one, _, hfirst, htext, .inr ⟨others, more, hothers, rfl⟩⟩

/-- A member and what follows it. -/
theorem members_cons {name : Bytes} {item : Json} {rest : List (Bytes × Json)} {text : Bytes}
    {short : Nat} (h : SpellsMembers number ((name, item) :: rest) text short) :
    ∃ key inName first one after, Padded (SpellsString name) key inName ∧
      Padded (Spells number item) first one ∧ text = key ++ colon :: (first ++ after) ∧
      Continued (SpellsMembers number) rest after := by
  obtain ⟨key, first, inName, one, hkey, hfirst, hrest⟩ := h
  split at hrest
  next hempty =>
    obtain ⟨rfl, -⟩ := hrest
    exact ⟨key, inName, first, one, [], hkey, hfirst, by simp,
      .inl ⟨List.isEmpty_iff.mp hempty, rfl⟩⟩
  next =>
    obtain ⟨others, more, hothers, rfl, -⟩ := hrest
    exact ⟨key, inName, first, one, _, hkey, hfirst, by simp, .inr ⟨others, more, hothers, rfl⟩⟩

variable (hnumber : ∀ text json, number text = some json → ∀ c ∈ text, isNumberByte c = true)

include hnumber

theorem spells_leads (json : Json) (text : Bytes) (short : Nat) (h : Spells number json text short) :
    Leads text json.lead := by
  by_cases hlead : json.lead = .number
  · obtain ⟨hread, hne⟩ := spells_number hlead h
    obtain ⟨c, rest, rfl⟩ := List.exists_cons_of_ne_nil hne
    rw [hlead]
    exact ⟨c, rest, rfl, byteLead_number (hnumber _ _ hread c List.mem_cons_self)⟩
  cases json with
  | null => exact ⟨0x6e, bytes "ull", h.1, rfl⟩
  | bool value =>
      cases value with
      | true => exact ⟨0x74, bytes "rue", h.1, rfl⟩
      | false => exact ⟨0x66, bytes "alse", h.1, rfl⟩
  | string decoded => exact string_leads decoded text short h
  | array items =>
      obtain ⟨inside, -, rfl⟩ := h
      exact ⟨0x5b, _, rfl, rfl⟩
  | object members =>
      obtain ⟨inside, -, rfl⟩ := h
      exact ⟨0x7b, _, rfl, rfl⟩
  | int64 value => exact absurd rfl hlead
  | uint64 value => exact absurd rfl hlead
  | double value => exact absurd rfl hlead

mutual

/-- A text stands for one value, and its value says where it ends. -/
theorem spells_cancel {first second : Json} {text other rest others : Bytes} {one two : Nat}
    (hfirst : Spells number first text one) (hsecond : Spells number second other two)
    (hrest : Delimited rest) (hothers : Delimited others) (h : text ++ rest = other ++ others) :
    first = second ∧ rest = others := by
  have hlead : first.lead = second.lead :=
    leads_unique (spells_leads hnumber _ _ _ hfirst) (spells_leads hnumber _ _ _ hsecond) h
  -- A number ends at the first byte that no number has.
  by_cases hkind : first.lead = .number
  · obtain ⟨hread, -⟩ := spells_number hkind hfirst
    obtain ⟨hagain, -⟩ := spells_number (hlead ▸ hkind) hsecond
    obtain ⟨rfl, htail⟩ := span_cancel (hnumber _ _ hread) (hnumber _ _ hagain) hrest hothers h
    exact ⟨Option.some.inj (hread.symm.trans hagain), htail⟩
  match first, second with
  | .null, .null =>
      obtain ⟨⟨rfl, -⟩, ⟨rfl, -⟩⟩ := And.intro hfirst hsecond
      exact ⟨rfl, List.append_cancel_left h⟩
  | .bool value, .bool again =>
      obtain rfl : value = again := by simpa [Json.lead] using hlead
      obtain ⟨⟨rfl, -⟩, ⟨rfl, -⟩⟩ := And.intro hfirst hsecond
      exact ⟨rfl, List.append_cancel_left h⟩
  | .string decoded, .string again =>
      obtain ⟨rfl, htail⟩ := string_cancel hfirst hsecond h
      exact ⟨rfl, htail⟩
  | .array items, .array more =>
      obtain ⟨inside, hinside, rfl⟩ := hfirst
      obtain ⟨again, hagain, rfl⟩ := hsecond
      simp only [List.cons_append, List.append_assoc, List.nil_append] at h
      obtain ⟨rfl, htail⟩ := spellsItems_cancel hinside hagain (List.cons.inj h).2
      exact ⟨rfl, htail⟩
  | .object members, .object more =>
      obtain ⟨inside, hinside, rfl⟩ := hfirst
      obtain ⟨again, hagain, rfl⟩ := hsecond
      simp only [List.cons_append, List.append_assoc, List.nil_append] at h
      obtain ⟨rfl, htail⟩ := spellsMembers_cancel hinside hagain (List.cons.inj h).2
      exact ⟨rfl, htail⟩

theorem spellsItems_cancel {items more : List Json} {text other rest others : Bytes} {one two : Nat}
    (hfirst : SpellsItems number items text one) (hsecond : SpellsItems number more other two)
    (h : text ++ 0x5d :: rest = other ++ 0x5d :: others) : items = more ∧ rest = others := by
  have hclose : ∀ after, Punctuated (0x5d :: after) := fun after => punctuated_cons rfl rfl
  match items, more with
  | [], [] =>
      obtain ⟨-, htail⟩ := span_cancel hfirst.1 hsecond.1 (hclose rest).solid (hclose others).solid h
      exact ⟨rfl, (List.cons.inj htail).2⟩
  | [], _ :: _ =>
      obtain ⟨first, _, _, hpadded, rfl, -⟩ := items_cons hsecond
      rw [List.append_assoc] at h
      exact absurd h (padded_ne_close (spells_leads hnumber _) hpadded hfirst.1 rfl rfl)
  | _ :: _, [] =>
      obtain ⟨first, _, _, hpadded, rfl, -⟩ := items_cons hfirst
      rw [List.append_assoc] at h
      exact absurd h.symm (padded_ne_close (spells_leads hnumber _) hpadded hsecond.1 rfl rfl)
  | item :: tail, again :: back =>
      obtain ⟨first, _, after, hpadded, rfl, hafter⟩ := items_cons hfirst
      obtain ⟨second, _, behind, hother, rfl, hbehind⟩ := items_cons hsecond
      rw [List.append_assoc, List.append_assoc] at h
      obtain ⟨rfl, htail⟩ := padded_cancel (spells_leads hnumber item) (spells_leads hnumber again)
        (fun hone htwo => spells_cancel hone htwo) hpadded hother
        (hafter.punctuated (hclose rest)) (hbehind.punctuated (hclose others)) h
      obtain ⟨rfl, hrest⟩ := hafter.cancel hbehind (by decide)
        (fun hone htwo => spellsItems_cancel hone htwo) htail
      exact ⟨rfl, hrest⟩

theorem spellsMembers_cancel {members more : List (Bytes × Json)} {text other rest others : Bytes}
    {one two : Nat} (hfirst : SpellsMembers number members text one)
    (hsecond : SpellsMembers number more other two)
    (h : text ++ 0x7d :: rest = other ++ 0x7d :: others) : members = more ∧ rest = others := by
  have hclose : ∀ after, Punctuated (0x7d :: after) := fun after => punctuated_cons rfl rfl
  have hcolon : ∀ after, Punctuated (colon :: after) := fun after => punctuated_cons rfl rfl
  match members, more with
  | [], [] =>
      obtain ⟨-, htail⟩ := span_cancel hfirst.1 hsecond.1 (hclose rest).solid (hclose others).solid h
      exact ⟨rfl, (List.cons.inj htail).2⟩
  | [], _ :: _ =>
      obtain ⟨key, _, _, _, _, hkey, -, rfl, -⟩ := members_cons hsecond
      rw [List.append_assoc] at h
      exact absurd h (padded_ne_close (string_leads _) hkey hfirst.1 rfl rfl)
  | _ :: _, [] =>
      obtain ⟨key, _, _, _, _, hkey, -, rfl, -⟩ := members_cons hfirst
      rw [List.append_assoc] at h
      exact absurd h.symm (padded_ne_close (string_leads _) hkey hsecond.1 rfl rfl)
  | (name, item) :: tail, (label, again) :: back =>
      obtain ⟨key, _, first, _, after, hkey, hpadded, rfl, hafter⟩ := members_cons hfirst
      obtain ⟨mark, _, second, _, behind, hmark, hother, rfl, hbehind⟩ := members_cons hsecond
      simp only [List.append_assoc, List.cons_append] at h
      -- The name up to its colon, then the value, then the other members.
      obtain ⟨rfl, hnext⟩ := padded_cancel (string_leads name) (string_leads label)
        (fun hone htwo _ _ => string_cancel hone htwo) hkey hmark (hcolon _) (hcolon _) h
      obtain ⟨rfl, htail⟩ := padded_cancel (spells_leads hnumber item) (spells_leads hnumber again)
        (fun hone htwo => spells_cancel hone htwo) hpadded hother
        (hafter.punctuated (hclose rest)) (hbehind.punctuated (hclose others))
        (List.cons.inj hnext).2
      obtain ⟨rfl, hrest⟩ := hafter.cancel hbehind (by decide)
        (fun hone htwo => spellsMembers_cancel hone htwo) htail
      exact ⟨rfl, hrest⟩

end

/-- The value of a document is determined. -/
theorem document_unique {first second : Json} {text : Bytes} {one two : Nat}
    (hfirst : SpellsDocument number first text one)
    (hsecond : SpellsDocument number second text two) : first = second :=
  (padded_cancel (spells_leads hnumber first) (spells_leads hnumber second)
    (fun hone htwo => spells_cancel hnumber hone htwo) hfirst hsecond punctuated_nil punctuated_nil rfl).1

/-- What follows a document is not part of it. -/
theorem document_ends {json other : Json} {text rest : Bytes} {one two : Nat} (hends : Punctuated rest)
    (hdocument : SpellsDocument number json text one)
    (hother : SpellsDocument number other (text ++ rest) two) : rest = [] := by
  have hsame : text ++ rest = (text ++ rest) ++ [] := by simp
  exact (padded_cancel (spells_leads hnumber json) (spells_leads hnumber other)
    (fun hone htwo => spells_cancel hnumber hone htwo) hdocument hother hends punctuated_nil hsame).2

end Values

end RttHttp
