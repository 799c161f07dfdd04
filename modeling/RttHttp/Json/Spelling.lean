import RttHttp.Codec.Context
import RttHttp.Json.Serialize

/-! # Spellings of a JSON value

The texts that stand for a JSON value: RFC 8259 with any white space and any
choice of escapes. A derivation counts the two-byte escapes of control characters.
How a number is read is left open, except that its text is not empty.
-/

namespace RttHttp

def isWhite (c : UInt8) : Bool := c == 0x20 || c == 0x09 || c == 0x0a || c == 0x0d

/-- White space. -/
def White (text : Bytes) : Prop := ∀ c ∈ text, isWhite c = true

/-- The character a letter after a backslash stands for. -/
def escapeLetter (letter : UInt8) : Option UInt8 :=
  if letter = 0x22 ∨ letter = 0x5c ∨ letter = 0x2f then some letter
  else if letter = 0x62 then some 0x08
  else if letter = 0x66 then some 0x0c
  else if letter = 0x6e then some 0x0a
  else if letter = 0x72 then some 0x0d
  else if letter = 0x74 then some 0x09
  else none

/-- The value of a hexadecimal digit. -/
def hexDigit (c : UInt8) : Option Nat :=
  if 0x30 ≤ c ∧ c ≤ 0x39 then some (c.toNat - 0x30)
  else if 0x41 ≤ c ∧ c ≤ 0x46 then some (c.toNat - 0x41 + 10)
  else if 0x61 ≤ c ∧ c ≤ 0x66 then some (c.toNat - 0x61 + 10)
  else none

/-- The value of the four digits after `\u`. -/
def hexUnit (a b c d : UInt8) : Option Nat := do
  let a ← hexDigit a
  let b ← hexDigit b
  let c ← hexDigit c
  let d ← hexDigit d
  return ((a * 16 + b) * 16 + c) * 16 + d

def continuation (code shift : Nat) : UInt8 := UInt8.ofNat (0x80 + code / 2 ^ shift % 64)

/-- The UTF-8 form of a code point. -/
def utf8Encode (code : Nat) : Bytes :=
  if code < 0x80 then [UInt8.ofNat code]
  else if code < 0x800 then [UInt8.ofNat (0xc0 + code / 2 ^ 6), continuation code 0]
  else if code < 0x10000 then
    [UInt8.ofNat (0xe0 + code / 2 ^ 12), continuation code 6, continuation code 0]
  else
    [UInt8.ofNat (0xf0 + code / 2 ^ 18), continuation code 12, continuation code 6,
      continuation code 0]

/-- The inside of a string: its text, its bytes and the number of two-byte
escapes of control characters. -/
inductive SpellsChars : Bytes → Bytes → Nat → Prop
  | nil : SpellsChars [] [] 0
  | plain {c : UInt8} {text decoded : Bytes} {short : Nat} (hc : 0x20 ≤ c ∧ c ≠ 0x22 ∧ c ≠ 0x5c)
      (hrest : SpellsChars text decoded short) : SpellsChars (c :: text) (c :: decoded) short
  | escape {letter c : UInt8} {text decoded : Bytes} {short : Nat}
      (hletter : escapeLetter letter = some c) (hrest : SpellsChars text decoded short) :
      SpellsChars (0x5c :: letter :: text) (c :: decoded)
        (short + if (shortEscape c).isSome then 1 else 0)
  | unicode {a b c d : UInt8} {code : Nat} {text decoded : Bytes} {short : Nat}
      (hunit : hexUnit a b c d = some code) (hcode : code < 0xd800 ∨ 0xdfff < code)
      (hrest : SpellsChars text decoded short) :
      SpellsChars (0x5c :: 0x75 :: a :: b :: c :: d :: text) (utf8Encode code ++ decoded) short
  | surrogates {a b c d e f g h : UInt8} {high low : Nat} {text decoded : Bytes} {short : Nat}
      (hhigh : hexUnit a b c d = some high) (hlow : hexUnit e f g h = some low)
      (hrange : 0xd800 ≤ high ∧ high ≤ 0xdbff ∧ 0xdc00 ≤ low ∧ low ≤ 0xdfff)
      (hrest : SpellsChars text decoded short) :
      SpellsChars
        (0x5c :: 0x75 :: a :: b :: c :: d :: 0x5c :: 0x75 :: e :: f :: g :: h :: text)
        (utf8Encode (0x10000 + (high - 0xd800) * 0x400 + (low - 0xdc00)) ++ decoded) short

/-- A quoted string. -/
def SpellsString (decoded text : Bytes) (short : Nat) : Prop :=
  ∃ inside, SpellsChars inside decoded short ∧ text = quote :: (inside ++ [quote])

/-- White space around something. -/
def Padded (spells : Bytes → Nat → Prop) (text : Bytes) (short : Nat) : Prop :=
  ∃ before inside after, White before ∧ spells inside short ∧ White after ∧
    text = before ++ inside ++ after

variable (number : Bytes → Option Json)

mutual

/-- The texts of a value, without the white space around it. -/
def Spells : Json → Bytes → Nat → Prop
  | .null, text, short => text = bytes "null" ∧ short = 0
  | .bool value, text, short => text = bytes (if value then "true" else "false") ∧ short = 0
  | .int64 value, text, short => number text = some (.int64 value) ∧ text ≠ [] ∧ short = 0
  | .uint64 value, text, short => number text = some (.uint64 value) ∧ text ≠ [] ∧ short = 0
  | .double value, text, short => number text = some (.double value) ∧ text ≠ [] ∧ short = 0
  | .string decoded, text, short => SpellsString decoded text short
  | .array items, text, short =>
      ∃ inside, SpellsItems items inside short ∧ text = 0x5b :: (inside ++ [0x5d])
  | .object members, text, short =>
      ∃ inside, SpellsMembers members inside short ∧ text = 0x7b :: (inside ++ [0x7d])

/-- The elements of an array. -/
def SpellsItems : List Json → Bytes → Nat → Prop
  | [], text, short => White text ∧ short = 0
  | item :: rest, text, short =>
      ∃ first one, Padded (Spells item) first one ∧
        if rest.isEmpty then text = first ∧ short = one
        else ∃ others more, SpellsItems rest others more ∧ text = first ++ comma :: others ∧
          short = one + more

/-- The members of an object. -/
def SpellsMembers : List (Bytes × Json) → Bytes → Nat → Prop
  | [], text, short => White text ∧ short = 0
  | (name, value) :: rest, text, short =>
      ∃ key first inName one, Padded (SpellsString name) key inName ∧
        Padded (Spells value) first one ∧
        if rest.isEmpty then text = key ++ colon :: first ∧ short = inName + one
        else ∃ others more, SpellsMembers rest others more ∧
          text = key ++ colon :: first ++ comma :: others ∧ short = inName + one + more

end

/-- A document: a value with white space around it. -/
def SpellsDocument (json : Json) (text : Bytes) (short : Nat) : Prop :=
  Padded (Spells number json) text short

mutual

/-- How deep the containers of a value are nested. -/
def Json.depth : Json → Nat
  | .array items => itemsDepth items + 1
  | .object members => membersDepth members + 1
  | _ => 0

def itemsDepth : List Json → Nat
  | [] => 0
  | item :: rest => max item.depth (itemsDepth rest)

def membersDepth : List (Bytes × Json) → Nat
  | [] => 0
  | (_, value) :: rest => max value.depth (membersDepth rest)

end

mutual

/-- No object has two members of one name. -/
def Json.Distinct : Json → Prop
  | .array items => DistinctItems items
  | .object members => (members.map Prod.fst).Nodup ∧ DistinctMembers members
  | _ => True

def DistinctItems : List Json → Prop
  | [] => True
  | item :: rest => item.Distinct ∧ DistinctItems rest

def DistinctMembers : List (Bytes × Json) → Prop
  | [] => True
  | (_, value) :: rest => value.Distinct ∧ DistinctMembers rest

end

/-- The texts that `parseJson` accepts, with the value it reads. -/
structure Parses (limits : Codec.JsonLimits) (text : Bytes) (json : Json) : Prop where
  length : text.length ≤ limits.maxDocumentBytes
  valid : validUtf8 text = true
  document : ∃ short, SpellsDocument number json text short
  depth : json.depth ≤ limits.maxDepth
  distinct : json.Distinct

theorem Padded.bare {spells : Bytes → Nat → Prop} {text : Bytes} {short : Nat}
    (h : spells text short) : Padded spells text short :=
  ⟨[], text, [], by simp [White], h, by simp [White], by simp⟩

theorem Padded.le_length {spells : Bytes → Nat → Prop} {text : Bytes} {short : Nat}
    (h : Padded spells text short) :
    ∃ inside, spells inside short ∧ inside.length ≤ text.length := by
  obtain ⟨before, inside, after, -, hinside, -, rfl⟩ := h
  exact ⟨inside, hinside, by simp only [List.length_append]; omega⟩

/-! ## Texts put together without white space -/

/-- Characters that need no escape stand for themselves. -/
theorem spells_self {text : Bytes} (h : ∀ c ∈ text, 0x20 ≤ c ∧ c ≠ 0x22 ∧ c ≠ 0x5c) :
    SpellsString text (quote :: (text ++ [quote])) 0 := by
  refine ⟨text, ?_, rfl⟩
  induction text with
  | nil => exact .nil
  | cons c rest ih =>
      obtain ⟨hc, hrest⟩ := List.forall_mem_cons.mp h
      exact .plain hc (ih hrest)

section Building

variable {number} {name key text others : Bytes} {item : Json} {inName one more : Nat}

theorem spells_item (hitem : Spells number item text one) : SpellsItems number [item] text one :=
  ⟨text, one, .bare hitem, rfl, rfl⟩

theorem spells_items {next : Json} {rest : List Json} (hitem : Spells number item text one)
    (hrest : SpellsItems number (next :: rest) others more) :
    SpellsItems number (item :: next :: rest) (text ++ comma :: others) (one + more) :=
  ⟨text, one, .bare hitem, others, more, hrest, rfl, rfl⟩

theorem spells_array {items : List Json} (h : SpellsItems number items text one) :
    Spells number (.array items) (0x5b :: (text ++ [0x5d])) one :=
  ⟨text, h, rfl⟩

theorem spells_member (hkey : SpellsString name key inName) (hitem : Spells number item text one) :
    SpellsMembers number [(name, item)] (key ++ colon :: text) (inName + one) :=
  ⟨key, text, inName, one, .bare hkey, .bare hitem, rfl, rfl⟩

theorem spells_members {next : Bytes × Json} {rest : List (Bytes × Json)}
    (hkey : SpellsString name key inName) (hitem : Spells number item text one)
    (hrest : SpellsMembers number (next :: rest) others more) :
    SpellsMembers number ((name, item) :: next :: rest) (key ++ colon :: text ++ comma :: others)
      (inName + one + more) :=
  ⟨key, text, inName, one, .bare hkey, .bare hitem, others, more, hrest, rfl, rfl⟩

theorem spells_object {members : List (Bytes × Json)} (h : SpellsMembers number members text one) :
    Spells number (.object members) (0x7b :: (text ++ [0x7d])) one :=
  ⟨text, h, rfl⟩

end Building

/-! ## Reading a quoted string back -/

/-- The character after `\u`, and what follows it. -/
def unescapeUnit : Bytes → Option (Nat × Bytes)
  | a :: b :: c :: d :: rest => (hexUnit a b c d).map fun code => (code, rest)
  | _ => none

/-- The character after a backslash, and what follows it. -/
def unescapeLetter : Bytes → Option (Nat × Bytes)
  | [] => none
  | letter :: rest =>
      if letter = 0x75 then unescapeUnit rest
      else (escapeLetter letter).map fun c => (c.toNat, rest)

/-- The first character of the inside of a string, and what follows it. -/
def unescape : Bytes → Option (Nat × Bytes)
  | [] => none
  | c :: rest => if c = 0x5c then unescapeLetter rest else some (c.toNat, rest)

/-- The three forms in which a byte is written. -/
theorem escapeByte_cases (c : UInt8) :
    (escapeByte c = [c] ∧ c ≠ 0x5c ∧ c ≠ 0x22) ∨
    (∃ letter, escapeByte c = [0x5c, letter] ∧ letter ≠ 0x75 ∧ escapeLetter letter = some c) ∨
    ∃ a b, escapeByte c = [0x5c, 0x75, 0x30, 0x30, a, b] ∧
      hexUnit 0x30 0x30 a b = some c.toNat := by
  have hforms := forall_byte (p := fun c =>
      (escapeByte c = [c] ∧ c ≠ 0x5c ∧ c ≠ 0x22) ∨
      (escapeByte c = [0x5c, (escapeByte c).getD 1 0] ∧ (escapeByte c).getD 1 0 ≠ 0x75 ∧
        escapeLetter ((escapeByte c).getD 1 0) = some c) ∨
      (escapeByte c = [0x5c, 0x75, 0x30, 0x30, (escapeByte c).getD 4 0, (escapeByte c).getD 5 0] ∧
        hexUnit 0x30 0x30 ((escapeByte c).getD 4 0) ((escapeByte c).getD 5 0) = some c.toNat))
    (by decide +kernel) c
  rcases hforms with hplain | hshort | hlong
  · exact .inl hplain
  · exact .inr (.inl ⟨_, hshort⟩)
  · exact .inr (.inr ⟨_, _, hlong⟩)

theorem unescape_escapeByte (c : UInt8) (rest : Bytes) :
    unescape (escapeByte c ++ rest) = some (c.toNat, rest) := by
  rcases escapeByte_cases c with ⟨hform, hne, -⟩ | ⟨letter, hform, hne, hletter⟩ | ⟨a, b, hform, hunit⟩
  · simp [hform, unescape, hne]
  · simp [hform, unescape, unescapeLetter, hne, hletter]
  · simp [hform, unescape, unescapeLetter, unescapeUnit, hunit]

/-- A string ends at its first quote that is not escaped. -/
theorem escaped_cancel {first second rest others : Bytes}
    (h : first.flatMap escapeByte ++ quote :: rest = second.flatMap escapeByte ++ quote :: others) :
    first = second ∧ rest = others := by
  have hquote : ∀ (c : UInt8) (text : Bytes), escapeByte c ++ text ≠ quote :: rest ∧
      escapeByte c ++ text ≠ quote :: others := by
    intro c text
    rcases escapeByte_cases c with ⟨hform, -, hne⟩ | ⟨letter, hform, -⟩ | ⟨a, b, hform, -⟩
    · simp [hform, quote, hne]
    · simp [hform, quote]
    · simp [hform, quote]
  induction first generalizing second with
  | nil =>
      cases second with
      | nil => exact ⟨rfl, List.cons.inj h |>.2⟩
      | cons c tail =>
          rw [List.flatMap_cons, List.append_assoc] at h
          exact absurd h.symm (hquote c _).1
  | cons c tail ih =>
      cases second with
      | nil =>
          rw [List.flatMap_cons, List.append_assoc] at h
          exact absurd h (hquote c _).2
      | cons d more =>
          rw [List.flatMap_cons, List.flatMap_cons, List.append_assoc, List.append_assoc] at h
          have hread := congrArg unescape h
          rw [unescape_escapeByte, unescape_escapeByte] at hread
          obtain ⟨hbyte, htail⟩ := Prod.mk.inj (Option.some.inj hread)
          obtain ⟨rfl, hrest⟩ := ih htail
          exact ⟨by rw [UInt8.toNat_inj.mp hbyte], hrest⟩

theorem quoted_cancel {first second rest others : Bytes}
    (h : quoted first ++ rest = quoted second ++ others) : first = second ∧ rest = others := by
  simp only [quoted, List.cons_append, List.append_assoc] at h
  exact escaped_cancel (List.cons.inj h).2

end RttHttp
