import RttHttp.Route.Path
import Mathlib.Data.List.TakeWhile

/-! # The grammar of request targets

`canonicalRequestPath` is an index loop. Here it is shown to compute a function
of the segment list of the target: split at slashes, percent-decode each segment,
check each name, and encode the names again. Rendering a list of names is
injective, and the canonical form of a rendered list is that list's rendering.
-/

namespace RttHttp

/-- The first occurrence from `start` on, read off the remaining bytes. -/
theorem findFrom_eq_some {text : Bytes} {byte : UInt8} {start stop : Nat}
    (hfind : findFrom text byte start = some stop) :
    ∃ before after, text.drop start = before ++ byte :: after ∧ byte ∉ before ∧
      stop = start + before.length := by
  obtain ⟨i, hi, rfl⟩ := Option.map_eq_some_iff.mp hfind
  obtain ⟨hlt, hbyte, hbefore⟩ := List.idxOf?_eq_some_iff.mp hi
  refine ⟨(text.drop start).take i, (text.drop start).drop (i + 1), ?_, ?_, ?_⟩
  · rw [← hbyte, List.getElem_cons_drop, List.take_append_drop]
  · intro hmem
    obtain ⟨j, hj, hget⟩ := List.getElem_of_mem hmem
    rw [List.getElem_take] at hget
    exact hbefore j (by rw [List.length_take] at hj; omega) hget
  · rw [List.length_take]
    omega

theorem findFrom_eq_none {text : Bytes} {byte : UInt8} {start : Nat}
    (hfind : findFrom text byte start = none) : byte ∉ text.drop start := by
  simpa [findFrom] using hfind

theorem byteAt_of_lt {text : Bytes} {index : Nat} (h : index < text.length) :
    byteAt text index = .ok text[index] := by
  simp [byteAt, h]

namespace Route

/-- Percent-decode one segment; `none` when it has a byte or an escape that a
target must not have. -/
def percentDecode : Bytes → Option Bytes
  | [] => some []
  | c :: rest =>
      if c = percent then
        match rest with
        | high :: low :: rest =>
            if hex high < 0 ∨ hex low < 0 then none
            else (percentDecode rest).map (decodePair high low :: ·)
        | _ => none
      else if c ≤ 0x20 ∨ c = 0x7f ∨ c = backslash then none
      else (percentDecode rest).map (c :: ·)

/-- The name a segment stands for. -/
def segmentName (segment : Bytes) : Option Bytes := (percentDecode segment).filter validName

/-- The target without its query. -/
def originPath (target : Bytes) : Bytes := target.takeWhile (· ≠ question)

/-- The percent-decoded segments of a target. -/
def segments (target : Bytes) : Option (List Bytes) :=
  (((originPath target).drop 1).splitOn slash).mapM percentDecode

/-- A list of names as a route string. -/
def render (names : List Bytes) : Bytes := names.flatMap fun name => slash :: encodeSegment name

@[simp] theorem render_nil : render [] = [] := rfl

@[simp] theorem render_cons (name : Bytes) (names : List Bytes) :
    render (name :: names) = slash :: encodeSegment name ++ render names := rfl

theorem render_append (first second : List Bytes) :
    render (first ++ second) = render first ++ render second := List.flatMap_append

theorem percentDecode_escape (high low : UInt8) (rest : Bytes) :
    percentDecode (percent :: high :: low :: rest) =
      if hex high < 0 ∨ hex low < 0 then none
      else (percentDecode rest).map (decodePair high low :: ·) := by
  rw [percentDecode.eq_def]
  exact if_pos rfl

theorem percentDecode_short {rest : Bytes} (hshort : rest.length < 2) :
    percentDecode (percent :: rest) = none := by
  rcases rest with _ | ⟨a, _ | ⟨b, rest⟩⟩
  · rfl
  · rfl
  · simp only [List.length_cons] at hshort
    omega

theorem percentDecode_plain {c : UInt8} (hc : c ≠ percent) (rest : Bytes) :
    percentDecode (c :: rest) =
      if c ≤ 0x20 ∨ c = 0x7f ∨ c = backslash then none
      else (percentDecode rest).map (c :: ·) := by
  rw [percentDecode.eq_def]
  exact if_neg hc

/-! ## The loops -/

section Loops

variable {target : Bytes} {stop i : Nat}

theorem drop_take_nil (hi : ¬ i < stop) : (target.take stop).drop i = [] := by
  rw [List.drop_eq_nil_iff, List.length_take]
  omega

theorem drop_take_cons (hstop : stop ≤ target.length) (hi : i < stop) :
    (target.take stop).drop i = target[i] :: (target.take stop).drop (i + 1) := by
  rw [List.drop_eq_getElem_cons (by rw [List.length_take]; omega), List.getElem_take]

/-- The inner loop decodes the bytes between its two positions. -/
theorem decodeLoop_eq (hstop : stop ≤ target.length) (fuel : Nat) (decoded : Bytes)
    (hfuel : stop ≤ i + fuel) :
    decodeLoop target stop fuel i decoded =
      .ok ((percentDecode ((target.take stop).drop i)).map (decoded ++ ·)) := by
  induction fuel generalizing i decoded with
  | zero =>
      have hi : ¬ i < stop := by omega
      simp [decodeLoop, hi, drop_take_nil hi, percentDecode]
  | succ fuel ih =>
      by_cases hi : i < stop
      · rw [decodeLoop, if_pos hi, byteAt_of_lt (by omega), drop_take_cons hstop hi]
        simp only
        by_cases hpercent : target[i] = percent
        · rw [if_pos hpercent, hpercent]
          by_cases hshort : stop - i < 3
          · rw [if_pos hshort, percentDecode_short]
            · rfl
            · rw [List.length_drop, List.length_take]
              omega
          · rw [if_neg hshort, byteAt_of_lt (by omega), byteAt_of_lt (by omega),
              drop_take_cons hstop (show i + 1 < stop by omega),
              drop_take_cons hstop (show i + 1 + 1 < stop by omega), percentDecode_escape]
            simp only
            split
            · rfl
            · rw [ih _ (by omega)]
              simp [Function.comp_def]
        · rw [if_neg hpercent, percentDecode_plain hpercent]
          split
          · rfl
          · rw [ih _ (by omega)]
            simp [Function.comp_def]
      · simp [decodeLoop, hi, drop_take_nil hi, percentDecode]

/-- The outer loop reads the rest of the target as a list of names. -/
theorem segmentLoop_eq (fuel start : Nat) (path : Bytes) (hstart : start ≤ target.length)
    (hfuel : target.length < start + fuel) :
    segmentLoop target fuel start path =
      .ok ((((target.drop start).splitOn slash).mapM segmentName).map (path ++ render ·)) := by
  induction fuel generalizing start path with
  | zero => omega
  | succ fuel ih =>
      rw [segmentLoop, if_pos hstart]
      cases hfind : findFrom target slash start with
      | none =>
          have hnone := findFrom_eq_none hfind
          simp only [Option.getD_none]
          rw [decodeLoop_eq (Nat.le_refl _) _ _ (by omega), List.take_length,
            List.splitOn_eq_singleton hnone]
          cases hdecode : percentDecode (target.drop start) with
          | none => simp [segmentName, hdecode]
          | some decoded =>
              by_cases hvalid : validName decoded <;>
                simp [segmentName, hdecode, hvalid, Option.filter]
      | some stop =>
          obtain ⟨before, after, hdrop, hbefore, rfl⟩ := findFrom_eq_some hfind
          have hlen : target.length = start + (before.length + (after.length + 1)) := by
            have := congrArg List.length hdrop
            simp only [List.length_drop, List.length_append, List.length_cons] at this
            omega
          have hseg : (target.take (start + before.length)).drop start = before := by
            rw [List.drop_take, hdrop, Nat.add_sub_cancel_left, List.take_left']
            rfl
          have hrest : target.drop (start + before.length + 1) = after := by
            rw [Nat.add_assoc, ← List.drop_drop, hdrop, List.drop_append,
              List.drop_eq_nil_of_le (by omega)]
            simp
          simp only [Option.getD_some]
          rw [decodeLoop_eq (by omega) _ _ (by omega), hseg, hdrop,
            List.splitOn_append_cons_self_of_not_mem hbefore]
          cases hdecode : percentDecode before with
          | none => simp [segmentName, hdecode]
          | some decoded =>
              by_cases hvalid : validName decoded
              · have hne : start + before.length ≠ target.length := by omega
                simp only [Option.map_some, List.nil_append, hvalid, if_true, hne, if_false]
                rw [ih _ _ (by omega) (by omega), hrest]
                cases hnames : (after.splitOn slash).mapM segmentName with
                | none => simp [segmentName, hdecode, hvalid, Option.filter, hnames]
                | some names => simp [segmentName, hdecode, hvalid, Option.filter, hnames]
              · simp [segmentName, hdecode, hvalid, Option.filter]

end Loops

theorem originPath_eq (target : Bytes) :
    target.take ((findFrom target question 0).getD target.length) = originPath target := by
  cases hfind : findFrom target question 0 with
  | none =>
      have hnone := findFrom_eq_none hfind
      rw [List.drop_zero] at hnone
      rw [Option.getD_none, List.take_length, originPath, List.takeWhile_eq_self_iff.mpr]
      intro c hc
      simpa using fun heq : c = question => hnone (heq ▸ hc)
  | some stop =>
      obtain ⟨before, after, hdrop, hbefore, rfl⟩ := findFrom_eq_some hfind
      rw [List.drop_zero] at hdrop
      rw [Option.getD_some, originPath, hdrop, Nat.zero_add, List.take_left',
        List.takeWhile_append_of_pos]
      · simp
      · intro c hc
        simpa using fun heq : c = question => hbefore (heq ▸ hc)
      · rfl

/-- Checking the names after decoding them all. -/
theorem mapM_segmentName_eq_some {segs names : List Bytes} :
    segs.mapM segmentName = some names ↔
      segs.mapM percentDecode = some names ∧ ∀ name ∈ names, validName name = true := by
  induction segs generalizing names with
  | nil => cases names <;> simp
  | cons seg rest ih =>
      simp only [List.mapM_cons, segmentName, Option.pure_def, Option.bind_eq_bind,
        Option.bind_eq_some_iff, Option.filter_eq_some_iff, Option.some.injEq]
      constructor
      · rintro ⟨name, ⟨hname, hvalid⟩, others, hothers, rfl⟩
        obtain ⟨hrest, hall⟩ := ih.mp hothers
        refine ⟨⟨name, hname, others, hrest, rfl⟩, ?_⟩
        simpa [hvalid] using hall
      · rintro ⟨⟨name, hname, others, hothers, rfl⟩, hall⟩
        rw [List.forall_mem_cons] at hall
        exact ⟨name, ⟨hname, hall.1⟩, others, ih.mpr ⟨hothers, hall.2⟩, rfl⟩

theorem length_originPath_pos {target : Bytes} (hslash : target.head? = some slash) :
    1 ≤ (originPath target).length := by
  obtain ⟨rest, rfl⟩ : ∃ rest, target = slash :: rest := ⟨_, List.eq_cons_of_mem_head? hslash⟩
  rw [originPath, List.takeWhile_cons_of_pos (by decide)]
  simp

/-- The canonicaliser accepts exactly the targets of the grammar and renders the
names they stand for. -/
theorem canonicalRequestPath_eq_some {target path : Bytes} :
    canonicalRequestPath target = some path ↔
      target.head? = some slash ∧ target.length ≤ 8192 ∧ hash ∉ target ∧
        ∃ names, segments target = some names ∧ (∀ name ∈ names, validName name = true) ∧
          path = render names := by
  unfold canonicalRequestPath canonicalLoop
  by_cases hbad : target.head? ≠ some slash ∨ 8192 < target.length ∨ target.contains hash
  · rw [if_pos hbad]
    simp only [List.contains_eq_mem, decide_eq_true_eq] at hbad
    constructor
    · intro h
      cases h
    · rintro ⟨hhead, hlen, hhash, -⟩
      rcases hbad with h | h | h
      · exact absurd hhead h
      · omega
      · exact absurd h hhash
  · rw [if_neg hbad]
    simp only [List.contains_eq_mem, decide_eq_true_eq, not_or, not_not, Nat.not_lt] at hbad
    have hlen := length_originPath_pos hbad.1
    simp only [originPath_eq]
    rw [segmentLoop_eq _ _ _ hlen (by omega)]
    simp only [List.nil_append, Option.map_eq_some_iff, mapM_segmentName_eq_some, segments]
    constructor
    · rintro ⟨names, ⟨hdecode, hvalid⟩, rfl⟩
      exact ⟨hbad.1, hbad.2.1, hbad.2.2, names, hdecode, hvalid, rfl⟩
    · rintro ⟨-, -, -, names, hdecode, hvalid, rfl⟩
      exact ⟨names, ⟨hdecode, hvalid⟩, rfl⟩

/-! ## Encoding -/

/-- The bytes that a target gives a meaning to. -/
def delimiter (c : UInt8) : Bool := c == slash || c == question || c == hash

theorem encodeByte_clean (c : UInt8) : ∀ d ∈ encodeByte c, delimiter d = false := by
  have hall : (encodeByte c).all (fun d => !delimiter d) = true :=
    forall_byte (p := fun c => (encodeByte c).all (fun d => !delimiter d) = true)
      (by decide +kernel) c
  intro d hd
  simpa using List.all_eq_true.mp hall d hd

theorem unreserved_plain (c : UInt8) :
    unreserved c = true → c ≠ percent ∧ ¬ (c ≤ 0x20 ∨ c = 0x7f ∨ c = backslash) :=
  forall_byte (p := fun c => unreserved c = true →
    c ≠ percent ∧ ¬ (c ≤ 0x20 ∨ c = 0x7f ∨ c = backslash)) (by decide +kernel) c

theorem decodePair_digits (c : UInt8) :
    ¬ (hex (digit (c >>> 4)) < 0 ∨ hex (digit (c &&& 15)) < 0) ∧
      decodePair (digit (c >>> 4)) (digit (c &&& 15)) = c :=
  forall_byte (p := fun c => ¬ (hex (digit (c >>> 4)) < 0 ∨ hex (digit (c &&& 15)) < 0) ∧
    decodePair (digit (c >>> 4)) (digit (c &&& 15)) = c) (by decide +kernel) c

/-- Percent-decoding undoes the encoder, byte by byte. -/
theorem percentDecode_encodeByte (c : UInt8) (rest : Bytes) :
    percentDecode (encodeByte c ++ rest) = (percentDecode rest).map (c :: ·) := by
  unfold encodeByte
  by_cases hc : unreserved c = true
  · obtain ⟨hpercent, hplain⟩ := unreserved_plain c hc
    rw [if_pos hc, List.singleton_append, percentDecode_plain hpercent, if_neg hplain]
  · obtain ⟨hdigits, hpair⟩ := decodePair_digits c
    rw [if_neg hc, List.cons_append, List.cons_append, List.singleton_append,
      percentDecode_escape, if_neg hdigits, hpair]

theorem percentDecode_encodeSegment (name : Bytes) :
    percentDecode (encodeSegment name) = some name := by
  induction name with
  | nil => rfl
  | cons c rest ih =>
      rw [encodeSegment, List.flatMap_cons, percentDecode_encodeByte]
      rw [encodeSegment] at ih
      rw [ih, Option.map_some]

theorem encodeSegment_clean (name : Bytes) : ∀ d ∈ encodeSegment name, delimiter d = false := by
  intro d hd
  obtain ⟨c, -, hc⟩ := List.mem_flatMap.mp hd
  exact encodeByte_clean c d hc

theorem slash_not_mem_encodeSegment (name : Bytes) : slash ∉ encodeSegment name := by
  intro hmem
  have := encodeSegment_clean name slash hmem
  cases this

/-- A route string has neither a query nor a fragment. -/
theorem render_clean (names : List Bytes) : question ∉ render names ∧ hash ∉ render names := by
  have hclean : ∀ d ∈ render names, d = slash ∨ delimiter d = false := by
    intro d hd
    obtain ⟨name, -, hname⟩ := List.mem_flatMap.mp hd
    rcases List.mem_cons.mp hname with rfl | hmem
    · exact .inl rfl
    · exact .inr (encodeSegment_clean name d hmem)
  constructor
  · intro hmem
    rcases hclean _ hmem with h | h <;> revert h <;> decide
  · intro hmem
    rcases hclean _ hmem with h | h <;> revert h <;> decide

theorem splitOn_render (name : Bytes) (names : List Bytes) :
    (encodeSegment name ++ render names).splitOn slash = (name :: names).map encodeSegment := by
  induction names generalizing name with
  | nil =>
      rw [render_nil, List.append_nil,
        List.splitOn_eq_singleton (slash_not_mem_encodeSegment name)]
      rfl
  | cons next rest ih =>
      rw [render_cons, List.cons_append,
        List.splitOn_append_cons_self_of_not_mem (slash_not_mem_encodeSegment name), ih]
      rfl

theorem mapM_percentDecode_encodeSegment (names : List Bytes) :
    (names.map encodeSegment).mapM percentDecode = some names := by
  induction names with
  | nil => rfl
  | cons name rest ih => simp [percentDecode_encodeSegment, ih]

/-- The segments of a rendered list are the list. -/
theorem segments_render {names : List Bytes} (hnames : names ≠ []) :
    segments (render names) = some names := by
  obtain ⟨name, rest, rfl⟩ := List.exists_cons_of_ne_nil hnames
  have horigin : originPath (render (name :: rest)) = render (name :: rest) := by
    rw [originPath, List.takeWhile_eq_self_iff]
    intro c hc
    simpa using fun heq : c = question => (render_clean _).1 (heq ▸ hc)
  rw [segments, horigin, render_cons, List.cons_append, List.drop_one, List.tail_cons,
    splitOn_render]
  exact mapM_percentDecode_encodeSegment (name :: rest)

theorem render_injective {first second : List Bytes} (h : render first = render second) :
    first = second := by
  by_cases hfirst : first = []
  · subst hfirst
    cases second with
    | nil => rfl
    | cons name rest => simp at h
  · by_cases hsecond : second = []
    · subst hsecond
      cases first with
      | nil => rfl
      | cons name rest => simp at h
    · have hsegments := segments_render hfirst
      rw [h, segments_render hsecond, Option.some.injEq] at hsegments
      exact hsegments.symm

/-- A rendered list of valid names is its own canonical path. -/
theorem canonicalRequestPath_render {names : List Bytes} (hnames : names ≠ [])
    (hvalid : ∀ name ∈ names, validName name = true) (hlen : (render names).length ≤ 8192) :
    canonicalRequestPath (render names) = some (render names) := by
  rw [canonicalRequestPath_eq_some]
  refine ⟨?_, hlen, (render_clean names).2, names, segments_render hnames, hvalid, rfl⟩
  obtain ⟨name, rest, rfl⟩ := List.exists_cons_of_ne_nil hnames
  rfl

/-! ## The grammar of request targets -/

def isHexDigit (c : UInt8) : Bool :=
  (0x30 ≤ c && c ≤ 0x39) || (0x41 ≤ c && c ≤ 0x46) || (0x61 ≤ c && c ≤ 0x66)

/-- A byte that stands for itself. -/
structure PlainByte (c : UInt8) : Prop where
  visible : 0x20 < c
  delete : c ≠ 0x7f
  percent : c ≠ Route.percent
  backslash : c ≠ Route.backslash

/-- A segment and the bytes it decodes to. -/
inductive Decodes : Bytes → Bytes → Prop
  | nil : Decodes [] []
  | escape {high low : UInt8} {rest decoded : Bytes} (hhigh : isHexDigit high = true)
      (hlow : isHexDigit low = true) (hrest : Decodes rest decoded) :
      Decodes (percent :: high :: low :: rest) (decodePair high low :: decoded)
  | plain {c : UInt8} {rest decoded : Bytes} (hc : PlainByte c) (hrest : Decodes rest decoded) :
      Decodes (c :: rest) (c :: decoded)

/-- A name that a route may have. -/
structure ValidName (name : Bytes) : Prop where
  nonempty : name ≠ []
  length : name.length ≤ 1024
  dot : name ≠ bytes "."
  dotdot : name ≠ bytes ".."
  nul : 0 ∉ name
  utf8 : validUtf8 name = true

theorem validName_iff {name : Bytes} : validName name = true ↔ ValidName name := by
  simp only [validName, Bool.and_eq_true, Bool.not_eq_true', List.isEmpty_eq_false_iff,
    decide_eq_true_eq, List.contains_eq_mem, decide_eq_false_iff_not]
  constructor
  · rintro ⟨⟨⟨⟨⟨hnonempty, hlength⟩, hdot⟩, hdotdot⟩, hnul⟩, hutf8⟩
    exact ⟨hnonempty, hlength, hdot, hdotdot, hnul, hutf8⟩
  · rintro ⟨hnonempty, hlength, hdot, hdotdot, hnul, hutf8⟩
    exact ⟨⟨⟨⟨⟨hnonempty, hlength⟩, hdot⟩, hdotdot⟩, hnul⟩, hutf8⟩

theorem isHexDigit_iff (c : UInt8) : isHexDigit c = true ↔ ¬ hex c < 0 :=
  forall_byte (p := fun c => isHexDigit c = true ↔ ¬ hex c < 0) (by decide +kernel) c

theorem plainByte_iff {c : UInt8} :
    PlainByte c ↔ c ≠ percent ∧ ¬ (c ≤ 0x20 ∨ c = 0x7f ∨ c = backslash) := by
  constructor
  · rintro ⟨hvisible, hdelete, hpercent, hbackslash⟩
    refine ⟨hpercent, ?_⟩
    rintro (hcontrol | hc | hc)
    · exact absurd hvisible (UInt8.not_lt.mpr hcontrol)
    · exact hdelete hc
    · exact hbackslash hc
  · rintro ⟨hpercent, hplain⟩
    simp only [not_or, UInt8.not_le] at hplain
    exact ⟨hplain.1, hplain.2.1, hpercent, hplain.2.2⟩

/-- The decoder of the scanner reads exactly the grammar. -/
theorem percentDecode_iff {segment decoded : Bytes} :
    percentDecode segment = some decoded ↔ Decodes segment decoded := by
  constructor
  · intro h
    fun_induction percentDecode segment generalizing decoded with
    | case1 =>
        cases h
        exact .nil
    | case2 => cases h
    | case3 high low rest hdigits ih =>
        obtain ⟨found, hfound, rfl⟩ := Option.map_eq_some_iff.mp h
        rw [not_or, ← isHexDigit_iff, ← isHexDigit_iff] at hdigits
        exact .escape hdigits.1 hdigits.2 (ih hfound)
    | case4 => cases h
    | case5 => cases h
    | case6 c rest hpercent hplain ih =>
        obtain ⟨found, hfound, rfl⟩ := Option.map_eq_some_iff.mp h
        exact .plain (plainByte_iff.mpr ⟨hpercent, hplain⟩) (ih hfound)
  · intro h
    induction h with
    | nil => rfl
    | escape hhigh hlow _ ih =>
        rw [percentDecode_escape, if_neg, ih, Option.map_some]
        rw [isHexDigit_iff] at hhigh hlow
        rintro (hbad | hbad)
        · exact hhigh hbad
        · exact hlow hbad
    | plain hc _ ih =>
        obtain ⟨hpercent, hplain⟩ := plainByte_iff.mp hc
        rw [percentDecode_plain hpercent, if_neg hplain, ih, Option.map_some]

/-- The segments of a path: none has a slash, and each stands after one. -/
theorem splitOn_slash (text : Bytes) :
    slash :: text = (text.splitOn slash).flatMap (slash :: ·) ∧
      ∀ segment ∈ text.splitOn slash, slash ∉ segment := by
  induction text with
  | nil => simp
  | cons c rest ih =>
      obtain ⟨hjoin, hfree⟩ := ih
      obtain ⟨first, others, hsplit⟩ := List.exists_cons_of_ne_nil (List.splitOn_ne_nil slash rest)
      rw [hsplit] at hjoin hfree
      by_cases hc : c = slash
      · subst hc
        have hnew : (slash :: rest).splitOn slash = [] :: first :: others := by
          rw [← hsplit]
          exact List.splitOn_append_cons_self [] rest
        rw [hnew]
        refine ⟨?_, List.forall_mem_cons.mpr ⟨by simp, hfree⟩⟩
        rw [hjoin]
        rfl
      · have hnew : (c :: rest).splitOn slash = (c :: first) :: others := by
          rw [List.splitOn_cons_eq_if_modifyHead, hsplit, if_neg (by simpa using hc)]
          rfl
        rw [hnew]
        obtain ⟨hfirst, hothers⟩ := List.forall_mem_cons.mp hfree
        refine ⟨?_, List.forall_mem_cons.mpr ⟨?_, hothers⟩⟩
        · rw [List.flatMap_cons] at hjoin ⊢
          rw [(List.cons.inj hjoin).2]
          rfl
        · rw [List.mem_cons, not_or]
          exact ⟨fun heq => hc heq.symm, hfirst⟩

/-- Segments without slashes are found again. -/
theorem splitOn_of_segments {segment : Bytes} {others : List Bytes}
    (hfree : ∀ found ∈ segment :: others, slash ∉ found) :
    (segment ++ others.flatMap (slash :: ·)).splitOn slash = segment :: others := by
  obtain ⟨hfirst, hrest⟩ := List.forall_mem_cons.mp hfree
  induction others generalizing segment with
  | nil =>
      rw [List.flatMap_nil, List.append_nil]
      exact List.splitOn_eq_singleton hfirst
  | cons next more ih =>
      obtain ⟨hnext, hmore⟩ := List.forall_mem_cons.mp hrest
      rw [List.flatMap_cons, List.cons_append, List.splitOn_append_cons_self_of_not_mem hfirst,
        ih hrest hnext hmore]

/-- A target that the grammar allows, with the names of its segments. -/
structure Targets (target : Bytes) (names : List Bytes) : Prop where
  length : target.length ≤ 8192
  fragment : hash ∉ target
  names_ne_nil : names ≠ []
  path : ∃ segments, originPath target = segments.flatMap (slash :: ·) ∧
    (∀ segment ∈ segments, slash ∉ segment) ∧ List.Forall₂ Decodes segments names
  valid : ∀ name ∈ names, ValidName name

theorem targets_iff {target : Bytes} {names : List Bytes} :
    Targets target names ↔ target.head? = some slash ∧ target.length ≤ 8192 ∧ hash ∉ target ∧
      segments target = some names ∧ ∀ name ∈ names, validName name = true := by
  have hhead : (originPath target).head? = some slash ↔ target.head? = some slash := by
    cases target with
    | nil => rfl
    | cons c rest =>
        by_cases hc : c = question
        · subst hc
          have hne : question ≠ slash := by decide
          simp [originPath, hne]
        · simp [originPath, hc]
  constructor
  · rintro ⟨hlength, hfragment, hnames, ⟨found, hpath, hfree, hdecodes⟩, hvalid⟩
    obtain ⟨name, others, rfl⟩ := List.exists_cons_of_ne_nil hnames
    obtain ⟨segment, more, rfl⟩ : ∃ segment more, found = segment :: more := by
      cases hdecodes with
      | cons _ _ => exact ⟨_, _, rfl⟩
    refine ⟨?_, hlength, hfragment, ?_, fun other hother => validName_iff.mpr (hvalid other hother)⟩
    · rw [← hhead, hpath]
      rfl
    · rw [segments, hpath, List.flatMap_cons, List.cons_append, List.drop_one, List.tail_cons,
        splitOn_of_segments hfree, mapM_eq_some_iff]
      exact hdecodes.imp fun _ _ => percentDecode_iff.mpr
  · rintro ⟨hslash, hlength, hfragment, hsegments, hvalid⟩
    rw [segments, mapM_eq_some_iff] at hsegments
    obtain ⟨rest, hrest⟩ : ∃ rest, originPath target = slash :: rest := by
      rw [← hhead] at hslash
      exact ⟨_, (List.eq_cons_of_mem_head? hslash)⟩
    rw [hrest, List.drop_one, List.tail_cons] at hsegments
    obtain ⟨hjoin, hfree⟩ := splitOn_slash rest
    refine ⟨hlength, hfragment, ?_, ⟨rest.splitOn slash, hrest.trans hjoin, hfree, ?_⟩, ?_⟩
    · rintro rfl
      cases hsplit : rest.splitOn slash with
      | nil => exact List.splitOn_ne_nil slash rest hsplit
      | cons _ _ =>
          rw [hsplit] at hsegments
          cases hsegments
    · exact hsegments.imp fun _ _ => percentDecode_iff.mp
    · exact fun name hname => validName_iff.mp (hvalid name hname)

theorem canonicalRequestPath_iff {target path : Bytes} :
    canonicalRequestPath target = some path ↔ ∃ names, Targets target names ∧ path = render names := by
  rw [canonicalRequestPath_eq_some]
  constructor
  · rintro ⟨hslash, hlength, hfragment, names, hsegments, hvalid, rfl⟩
    exact ⟨names, targets_iff.mpr ⟨hslash, hlength, hfragment, hsegments, hvalid⟩, rfl⟩
  · rintro ⟨names, htargets, rfl⟩
    obtain ⟨hslash, hlength, hfragment, hsegments, hvalid⟩ := targets_iff.mp htargets
    exact ⟨hslash, hlength, hfragment, names, hsegments, hvalid, rfl⟩

/-- A target decodes to one list of names. -/
theorem Targets.unique {target : Bytes} {first second : List Bytes} (hfirst : Targets target first)
    (hsecond : Targets target second) : first = second := by
  obtain ⟨-, -, -, hone, -⟩ := targets_iff.mp hfirst
  obtain ⟨-, -, -, htwo, -⟩ := targets_iff.mp hsecond
  exact Option.some.inj (hone.symm.trans htwo)

/-- The loops never run out of the target. -/
theorem canonicalLoop_total (target : Bytes) : ∃ result, canonicalLoop target = .ok result := by
  unfold canonicalLoop
  split
  next => exact ⟨none, rfl⟩
  next hok =>
    have hslash : target.head? = some slash := by
      by_contra hne
      exact hok (.inl hne)
    simp only [originPath_eq]
    rw [segmentLoop_eq _ _ _ (length_originPath_pos hslash) (by omega)]
    exact ⟨_, rfl⟩

/-- The scanner accepts exactly the grammar, and its result is the canonical form. -/
theorem canonical_path_grammar :
    (∀ target path, canonicalRequestPath target = some path ↔
      ∃ names, Targets target names ∧ path = render names) ∧
    (∀ first second path other, canonicalRequestPath first = some path →
      canonicalRequestPath second = some other →
      (path = other ↔ ∃ names, Targets first names ∧ Targets second names)) ∧
    (∀ name, percentDecode (encodeSegment name) = some name) ∧
    Function.Injective encodeSegment ∧
    (∀ target path, canonicalRequestPath target = some path → path.length ≤ 8192 →
      canonicalRequestPath path = some path) ∧
    ∀ target, ∃ result, canonicalLoop target = .ok result := by
  refine ⟨fun _ _ => canonicalRequestPath_iff, ?_, percentDecode_encodeSegment, ?_, ?_,
    canonicalLoop_total⟩
  · intro first second path other hfirst hsecond
    obtain ⟨names, hnames, rfl⟩ := canonicalRequestPath_iff.mp hfirst
    obtain ⟨others, hothers, rfl⟩ := canonicalRequestPath_iff.mp hsecond
    constructor
    · intro hequal
      obtain rfl := render_injective hequal
      exact ⟨names, hnames, hothers⟩
    · rintro ⟨found, hone, htwo⟩
      rw [hnames.unique hone, hothers.unique htwo]
  · intro first second hequal
    have hdecoded := percentDecode_encodeSegment first
    rw [hequal, percentDecode_encodeSegment] at hdecoded
    exact (Option.some.inj hdecoded).symm
  · intro target path haccepted hlength
    obtain ⟨names, hnames, rfl⟩ := canonicalRequestPath_iff.mp haccepted
    exact canonicalRequestPath_render hnames.names_ne_nil
      (fun name hname => validName_iff.mpr (hnames.valid name hname)) hlength

/-- An escape that is not needed is taken out, once. -/
theorem canonical_path_grammar_dash :
    canonicalRequestPath (bytes "/a-b") = some (bytes "/a-b") := by
  have hread : canonicalRequestPath (bytes "/a%2db?x") = some (bytes "/a-b") := by decide
  exact canonical_path_grammar.2.2.2.2.1 (bytes "/a%2db?x") (bytes "/a-b") hread (by decide)

end Route

end RttHttp
