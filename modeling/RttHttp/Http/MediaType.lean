import RttHttp.Http.Message
import RttHttp.Route.Grammar
import Mathlib.Data.List.DropRight

/-! # The accepted media type

`jsonMediaType` cuts a header value at its first semicolon and the parameter behind
it at the first equals sign, and trims every slice again. Here it is shown to
accept exactly the values of one grammar.
-/

namespace RttHttp.Http

/-! ## Optional white space -/

/-- `OWS`: any run of spaces and tabs. -/
def Blank (text : Bytes) : Prop := ∀ c ∈ text, isBlank c = true

/-- `OWS word OWS`, in any case. -/
def Padded (word text : Bytes) : Prop :=
  ∃ before middle after, Blank before ∧ Blank after ∧ middle.map lowerByte = word ∧
    text = before ++ middle ++ after

theorem lowerTrim_eq (text : Bytes) :
    lowerTrim text = ((text.dropWhile isBlank).rdropWhile isBlank).map lowerByte := rfl

theorem isBlank_lowerByte (c : UInt8) : isBlank (lowerByte c) = isBlank c :=
  forall_byte (p := fun c => isBlank (lowerByte c) = isBlank c) (by decide +kernel) c

theorem lowerByte_lowerByte (c : UInt8) : lowerByte (lowerByte c) = lowerByte c :=
  forall_byte (p := fun c => lowerByte (lowerByte c) = lowerByte c) (by decide +kernel) c

theorem dropWhile_map_lowerByte (text : Bytes) :
    (text.map lowerByte).dropWhile isBlank = (text.dropWhile isBlank).map lowerByte := by
  have hsame : isBlank ∘ lowerByte = isBlank := by
    funext c
    exact isBlank_lowerByte c
  rw [List.dropWhile_map, hsame]

theorem rdropWhile_map_lowerByte (text : Bytes) :
    (text.map lowerByte).rdropWhile isBlank = (text.rdropWhile isBlank).map lowerByte := by
  rw [List.rdropWhile, List.rdropWhile, ← List.map_reverse, dropWhile_map_lowerByte,
    List.map_reverse]

theorem lowerTrim_map_lowerByte (text : Bytes) : lowerTrim (text.map lowerByte) = lowerTrim text := by
  have htwice : lowerByte ∘ lowerByte = lowerByte := by
    funext c
    exact lowerByte_lowerByte c
  rw [lowerTrim_eq, lowerTrim_eq, dropWhile_map_lowerByte, rdropWhile_map_lowerByte, List.map_map,
    htwice]

/-- Trimming in front stops at a byte that is not blank. -/
theorem dropWhile_append_cons {c : UInt8} (hc : isBlank c = false) (before after : Bytes) :
    (before ++ c :: after).dropWhile isBlank = before.dropWhile isBlank ++ c :: after := by
  induction before with
  | nil => simp [hc]
  | cons first rest ih =>
      rw [List.cons_append, List.dropWhile_cons, List.dropWhile_cons]
      split
      · exact ih
      · rfl

/-- Trimming at the end stops there as well. -/
theorem rdropWhile_append_cons {c : UInt8} (hc : isBlank c = false) (before after : Bytes) :
    (before ++ c :: after).rdropWhile isBlank = before ++ c :: after.rdropWhile isBlank := by
  rw [List.rdropWhile, List.reverse_append, List.reverse_cons, List.append_assoc,
    List.singleton_append, dropWhile_append_cons hc, List.reverse_append, List.reverse_cons,
    List.reverse_reverse, List.append_assoc, List.singleton_append, List.rdropWhile]

/-- Trimming only trims the ends of what stands around a byte that is not blank. -/
theorem lowerTrim_append_cons {c : UInt8} (hc : isBlank c = false) (before after : Bytes) :
    lowerTrim (before ++ c :: after) = (before.dropWhile isBlank).map lowerByte ++
      lowerByte c :: (after.rdropWhile isBlank).map lowerByte := by
  rw [lowerTrim_eq, dropWhile_append_cons hc, rdropWhile_append_cons hc, List.map_append,
    List.map_cons]

/-- A text is blank, or has a byte that is not. -/
theorem blank_or_split (text : Bytes) :
    Blank text ∨ ∃ before c after, text = before ++ c :: after ∧ isBlank c = false := by
  by_cases hblank : Blank text
  · exact .inl hblank
  · unfold Blank at hblank
    push Not at hblank
    obtain ⟨c, hc, hnot⟩ := hblank
    obtain ⟨before, after, rfl⟩ := List.append_of_mem hc
    exact .inr ⟨before, c, after, rfl, by simpa using hnot⟩

/-- The two ends can be trimmed in either order. -/
theorem dropWhile_rdropWhile (text : Bytes) :
    (text.rdropWhile isBlank).dropWhile isBlank = (text.dropWhile isBlank).rdropWhile isBlank := by
  rcases blank_or_split text with hblank | ⟨before, c, after, rfl, hc⟩
  · rw [List.rdropWhile_eq_nil_iff.mpr hblank, List.dropWhile_eq_nil_iff.mpr hblank]
    rfl
  · rw [rdropWhile_append_cons hc, dropWhile_append_cons hc, dropWhile_append_cons hc,
      rdropWhile_append_cons hc]

theorem lowerTrim_dropWhile (text : Bytes) : lowerTrim (text.dropWhile isBlank) = lowerTrim text := by
  rw [lowerTrim_eq, lowerTrim_eq, List.dropWhile_idempotent]

theorem lowerTrim_rdropWhile (text : Bytes) :
    lowerTrim (text.rdropWhile isBlank) = lowerTrim text := by
  rw [lowerTrim_eq, lowerTrim_eq, dropWhile_rdropWhile, List.rdropWhile_idempotent]

theorem lowerTrim_blank_append {before : Bytes} (hbefore : Blank before) (text : Bytes) :
    lowerTrim (before ++ text) = lowerTrim text := by
  rw [lowerTrim_eq, lowerTrim_eq, List.dropWhile_append_of_pos hbefore]

theorem lowerTrim_append_blank {after : Bytes} (hafter : Blank after) (text : Bytes) :
    lowerTrim (text ++ after) = lowerTrim text := by
  have hreverse : ∀ c ∈ after.reverse, isBlank c = true :=
    fun c hc => hafter c (List.mem_reverse.mp hc)
  have hend : (text ++ after).rdropWhile isBlank = text.rdropWhile isBlank := by
    rw [List.rdropWhile, List.reverse_append, List.dropWhile_append_of_pos hreverse, List.rdropWhile]
  rw [← lowerTrim_rdropWhile, hend, lowerTrim_rdropWhile]

theorem lowerTrim_word {text : Bytes} (h : ∀ c ∈ text, isBlank c = false) :
    lowerTrim text = text.map lowerByte := by
  rcases blank_or_split text with hblank | ⟨before, c, after, rfl, hc⟩
  · cases text with
    | nil => rfl
    | cons c rest => exact absurd (hblank c List.mem_cons_self) (by simp [h c List.mem_cons_self])
  · have hfront : before.dropWhile isBlank = before := by
      cases before with
      | nil => rfl
      | cons first rest => simp [h first (by simp)]
    have hend : after.rdropWhile isBlank = after := by
      rw [List.rdropWhile_eq_self_iff]
      intro hne
      simp [h _ (List.mem_append_right _ (List.mem_cons_of_mem _ (List.getLast_mem hne)))]
    rw [lowerTrim_append_cons hc, hfront, hend, List.map_append, List.map_cons]

/-- What trims to a word without blanks. -/
theorem lowerTrim_eq_iff {word text : Bytes} (hword : ∀ c ∈ word, isBlank c = false) :
    lowerTrim text = word ↔ Padded word text := by
  constructor
  · rintro rfl
    refine ⟨text.takeWhile isBlank, (text.dropWhile isBlank).rdropWhile isBlank,
      (text.dropWhile isBlank).rtakeWhile isBlank, fun c hc => List.mem_takeWhile_imp hc,
      fun c hc => List.mem_rtakeWhile_imp hc, rfl, ?_⟩
    rw [List.append_assoc, List.rdropWhile_append_rtakeWhile, List.takeWhile_append_dropWhile]
  · rintro ⟨before, middle, after, hbefore, hafter, rfl, rfl⟩
    have hmiddle : ∀ c ∈ middle, isBlank c = false := by
      intro c hc
      rw [← isBlank_lowerByte]
      exact hword _ (List.mem_map_of_mem hc)
    rw [lowerTrim_append_blank hafter, lowerTrim_blank_append hbefore, lowerTrim_word hmiddle]

/-- A padded word has no bytes besides its own and blanks. -/
theorem Padded.not_mem {word text : Bytes} (h : Padded word text) {c : UInt8}
    (hblank : isBlank c = false) (hword : lowerByte c ∉ word) : c ∉ text := by
  obtain ⟨before, middle, after, hbefore, hafter, rfl, rfl⟩ := h
  intro hc
  rcases List.mem_append.mp hc with hc | hc
  · rcases List.mem_append.mp hc with hc | hc
    · simp [hbefore c hc] at hblank
    · exact hword (List.mem_map_of_mem hc)
  · simp [hafter c hc] at hblank

/-! ## Cutting at a byte -/

/-- A text is cut at the first place of a byte in one way. -/
theorem cut_unique {c : UInt8} {before after first rest : Bytes} (hbefore : c ∉ before)
    (hfirst : c ∉ first) (h : before ++ c :: after = first ++ c :: rest) :
    before = first ∧ after = rest := by
  have hsame : before = first := by
    rcases List.append_eq_append_iff.mp h with ⟨more, rfl, hmore⟩ | ⟨more, rfl, hmore⟩
    · cases more with
      | nil => exact (List.append_nil _).symm
      | cons head tail =>
          obtain ⟨rfl, -⟩ := List.cons.inj hmore
          exact absurd (by simp) hfirst
    · cases more with
      | nil => exact List.append_nil _
      | cons head tail =>
          obtain ⟨rfl, -⟩ := List.cons.inj hmore
          exact absurd (by simp) hbefore
  subst hsame
  exact ⟨rfl, (List.cons.inj (List.append_cancel_left h)).2⟩

theorem findFrom_append {c : UInt8} {before : Bytes} (hc : c ∉ before) (after : Bytes) :
    findFrom (before ++ c :: after) c 0 = some before.length := by
  cases hfind : findFrom (before ++ c :: after) c 0 with
  | none => exact absurd (by simp) (findFrom_eq_none hfind)
  | some stop =>
      obtain ⟨first, rest, hsplit, hfirst, rfl⟩ := findFrom_eq_some hfind
      rw [(cut_unique hc hfirst hsplit).1, Nat.zero_add]

/-- A text has a byte or not; the cut is at its first place. -/
theorem cut_cases (c : UInt8) (text : Bytes) :
    (c ∉ text ∧ findFrom text c 0 = none) ∨
    ∃ before after, text = before ++ c :: after ∧ c ∉ before ∧
      findFrom text c 0 = some before.length := by
  cases hfind : findFrom text c 0 with
  | none => exact .inl ⟨findFrom_eq_none hfind, rfl⟩
  | some stop =>
      obtain ⟨before, after, hsplit, hbefore, rfl⟩ := findFrom_eq_some hfind
      exact .inr ⟨before, after, hsplit, hbefore, by rw [Nat.zero_add]⟩

/-! ## The grammar -/

/-- `charset OWS = OWS (utf-8 or "utf-8")`, with white space around it. -/
def CharsetUtf8 (parameter : Bytes) : Prop :=
  ∃ name charset, parameter = name ++ equalSign :: charset ∧ Padded (bytes "charset") name ∧
    (Padded (bytes "utf-8") charset ∨ Padded (bytes "\"utf-8\"") charset)

/-- `application/json`, with or without the parameter. -/
def JsonMedia (value : Bytes) : Prop :=
  Padded (bytes "application/json") value ∨
  ∃ type parameter, value = type ++ semicolon :: parameter ∧
    Padded (bytes "application/json") type ∧ CharsetUtf8 parameter

theorem mem_lowerTrim {text : Bytes} {c : UInt8} (hc : c ∈ lowerTrim text) :
    ∃ found ∈ text, lowerByte found = c := by
  rw [lowerTrim_eq] at hc
  obtain ⟨found, hfound, rfl⟩ := List.mem_map.mp hc
  exact ⟨found, List.dropWhile_subset isBlank ((List.rdropWhile_prefix _ _).subset hfound), rfl⟩

theorem eq_equalSign {c : UInt8} (h : lowerByte c = equalSign) : c = equalSign :=
  forall_byte (p := fun c => lowerByte c = equalSign → c = equalSign) (by decide +kernel) c h

/-- The parameter is cut where it was before it was trimmed, and its two sides trim
to the same. -/
theorem lowerTrim_cut {name : Bytes} (hname : equalSign ∉ name) (charset : Bytes) :
    ∃ front back, lowerTrim (name ++ equalSign :: charset) = front ++ equalSign :: back ∧
      equalSign ∉ front ∧ lowerTrim front = lowerTrim name ∧ lowerTrim back = lowerTrim charset := by
  refine ⟨(name.dropWhile isBlank).map lowerByte, (charset.rdropWhile isBlank).map lowerByte,
    lowerTrim_append_cons (by decide) name charset, ?_, ?_, ?_⟩
  · intro hmem
    obtain ⟨found, hfound, hvalue⟩ := List.mem_map.mp hmem
    rw [eq_equalSign hvalue] at hfound
    exact hname (List.dropWhile_subset isBlank hfound)
  · rw [lowerTrim_map_lowerByte, lowerTrim_dropWhile]
  · rw [lowerTrim_map_lowerByte, lowerTrim_rdropWhile]

/-- What `jsonMediaType` asks of the trimmed parameter. -/
theorem parameter_iff (parameter : Bytes) :
    (match findFrom (lowerTrim parameter) equalSign 0 with
      | none => false
      | some equal =>
          if lowerTrim ((lowerTrim parameter).take equal) ≠ bytes "charset" then false
          else
            let value := lowerTrim ((lowerTrim parameter).drop (equal + 1))
            value == bytes "utf-8" || value == bytes "\"utf-8\"") = true ↔
      CharsetUtf8 parameter := by
  have hword : ∀ text, lowerTrim text = bytes "charset" ↔ Padded (bytes "charset") text :=
    fun text => lowerTrim_eq_iff (by decide +kernel)
  have hplain : ∀ text, lowerTrim text = bytes "utf-8" ↔ Padded (bytes "utf-8") text :=
    fun text => lowerTrim_eq_iff (by decide +kernel)
  have hquoted : ∀ text, lowerTrim text = bytes "\"utf-8\"" ↔ Padded (bytes "\"utf-8\"") text :=
    fun text => lowerTrim_eq_iff (by decide +kernel)
  rcases cut_cases equalSign parameter with ⟨hmissing, -⟩ | ⟨name, charset, rfl, hname, -⟩
  · have hnone : equalSign ∉ lowerTrim parameter := by
      intro hmem
      obtain ⟨found, hfound, hvalue⟩ := mem_lowerTrim hmem
      exact hmissing (eq_equalSign hvalue ▸ hfound)
    have hfind : findFrom (lowerTrim parameter) equalSign 0 = none := by
      rcases cut_cases equalSign (lowerTrim parameter) with ⟨-, hfind⟩ | ⟨before, after, hcut, -⟩
      · exact hfind
      · exact absurd (by simp [hcut]) hnone
    rw [hfind]
    simp only [Bool.false_eq_true, false_iff]
    rintro ⟨name, charset, rfl, -⟩
    exact hmissing (by simp)
  · obtain ⟨front, back, hcut, hfront, hsame, hother⟩ := lowerTrim_cut hname charset
    have hback : (front ++ equalSign :: back).drop (front.length + 1) = back := by
      rw [← List.drop_drop, List.drop_left, List.drop_one, List.tail_cons]
    rw [hcut, findFrom_append hfront]
    simp only [List.take_left, hback, hsame, hother]
    constructor
    · intro h
      split at h
      next => cases h
      next hcharset =>
        refine ⟨name, charset, rfl, (hword _).mp (not_not.mp hcharset), ?_⟩
        rcases Bool.or_eq_true_iff.mp h with hvalue | hvalue
        · exact .inl ((hplain _).mp (beq_iff_eq.mp hvalue))
        · exact .inr ((hquoted _).mp (beq_iff_eq.mp hvalue))
    · rintro ⟨first, rest, hsplit, hcharset, hvalue⟩
      have hfirst : equalSign ∉ first := hcharset.not_mem (by decide) (by decide)
      obtain ⟨rfl, rfl⟩ := cut_unique hname hfirst hsplit
      rw [if_neg (not_not.mpr ((hword _).mpr hcharset)), Bool.or_eq_true_iff, beq_iff_eq, beq_iff_eq]
      exact hvalue.imp (hplain _).mpr (hquoted _).mpr

/-! ## Requests -/

/-- A value with a semicolon is the type and its parameter. -/
theorem jsonMedia_cut_iff {type parameter : Bytes} (htype : semicolon ∉ type) :
    JsonMedia (type ++ semicolon :: parameter) ↔
      Padded (bytes "application/json") type ∧ CharsetUtf8 parameter := by
  constructor
  · rintro (hbare | ⟨first, rest, hsplit, hfirst, hcharset⟩)
    · exact absurd (by simp) (hbare.not_mem (c := semicolon) (by decide) (by decide))
    · have hmissing : semicolon ∉ first := hfirst.not_mem (by decide) (by decide)
      obtain ⟨rfl, rfl⟩ := cut_unique htype hmissing hsplit
      exact ⟨hfirst, hcharset⟩
  · rintro ⟨hjson, hcharset⟩
    exact .inr ⟨type, parameter, rfl, hjson, hcharset⟩

theorem jsonMedia_bare_iff {value : Bytes} (hvalue : semicolon ∉ value) :
    JsonMedia value ↔ Padded (bytes "application/json") value := by
  constructor
  · rintro (hbare | ⟨type, parameter, rfl, -⟩)
    · exact hbare
    · exact absurd (by simp) hvalue
  · exact .inl

/-- One header value against the grammar. -/
theorem jsonMediaType_of_single {request : Request} {value : Bytes}
    (hencoding : request.headerValues (bytes "Content-Encoding") = [])
    (hvalue : request.headerValues (bytes "Content-Type") = [value]) :
    jsonMediaType request = true ↔ JsonMedia value := by
  have htype : ∀ text, lowerTrim text = bytes "application/json" ↔
      Padded (bytes "application/json") text := fun text => lowerTrim_eq_iff (by decide +kernel)
  have hmissing : ¬ ((request.headerValues (bytes "Content-Type")).length ≠ 1 ∨
      request.hasHeader (bytes "Content-Encoding") = true) := by
    simp [Request.hasHeader, hencoding, hvalue]
  have hraw : request.headerValue (bytes "Content-Type") = value := by
    rw [Request.headerValue, hvalue]
    rfl
  unfold jsonMediaType
  rw [if_neg hmissing, hraw]
  dsimp only
  rcases cut_cases semicolon value with ⟨hbare, hfind⟩ | ⟨type, parameter, rfl, hcut, hfind⟩
  · rw [hfind, Option.getD_none, List.take_length, jsonMedia_bare_iff hbare, ← htype]
    simp
  · have hparameter : (type ++ semicolon :: parameter).drop (type.length + 1) = parameter := by
      rw [← List.drop_drop, List.drop_left, List.drop_one, List.tail_cons]
    rw [hfind, Option.getD_some, List.take_left, jsonMedia_cut_iff hcut, ← htype]
    dsimp only
    rw [hparameter]
    by_cases hjson : lowerTrim type = bytes "application/json"
    · rw [if_neg (not_not.mpr hjson)]
      exact (parameter_iff parameter).trans ⟨fun hcharset => ⟨hjson, hcharset⟩, fun h => h.2⟩
    · rw [if_pos hjson]
      simp [hjson]

/-- The media type is accepted exactly for one header value of the grammar and no
content encoding; the order of the headers does not matter. -/
theorem json_media_type_exact (request : Request) :
    (jsonMediaType request = true ↔ request.headerValues (bytes "Content-Encoding") = [] ∧
      ∃ value, request.headerValues (bytes "Content-Type") = [value] ∧ JsonMedia value) ∧
    ∀ other : Request, other.headers.Perm request.headers →
      jsonMediaType other = jsonMediaType request := by
  have hexact : ∀ request : Request, jsonMediaType request = true ↔
      request.headerValues (bytes "Content-Encoding") = [] ∧
      ∃ value, request.headerValues (bytes "Content-Type") = [value] ∧ JsonMedia value := by
    intro request
    constructor
    · intro haccepted
      have hheaders : ¬ ((request.headerValues (bytes "Content-Type")).length ≠ 1 ∨
          request.hasHeader (bytes "Content-Encoding") = true) := by
        intro hbad
        rw [jsonMediaType, if_pos hbad] at haccepted
        cases haccepted
      rw [not_or, not_not, Request.hasHeader, Bool.not_eq_true, Bool.not_eq_false',
        List.isEmpty_iff] at hheaders
      obtain ⟨value, hvalue⟩ := List.length_eq_one_iff.mp hheaders.1
      exact ⟨hheaders.2, value, hvalue, (jsonMediaType_of_single hheaders.2 hvalue).mp haccepted⟩
    · rintro ⟨hencoding, value, hvalue, hmedia⟩
      exact (jsonMediaType_of_single hencoding hvalue).mpr hmedia
  refine ⟨hexact request, fun other hperm => ?_⟩
  have hvalues : ∀ name, (other.headerValues name).Perm (request.headerValues name) :=
    fun name => (hperm.filter _).map _
  have hempty : other.headerValues (bytes "Content-Encoding") = [] ↔
      request.headerValues (bytes "Content-Encoding") = [] := by
    rw [← List.perm_nil, (hvalues _).congr_left, List.perm_nil]
  have hsingle : ∀ value, other.headerValues (bytes "Content-Type") = [value] ↔
      request.headerValues (bytes "Content-Type") = [value] := by
    intro value
    rw [← List.perm_singleton, (hvalues _).congr_left, List.perm_singleton]
  rw [Bool.eq_iff_iff, hexact, hexact, hempty]
  simp only [hsingle]

example : jsonMediaType ⟨bytes "PUT", bytes "/", [(bytes "content-type",
    bytes "Application/JSON ;\tcharset = \"UTF-8\" ")], []⟩ = true := by decide

example : jsonMediaType ⟨bytes "PUT", bytes "/", [(bytes "content-type",
    bytes "application/json; charset=utf-8; q=1")], []⟩ = false := by decide

end RttHttp.Http
