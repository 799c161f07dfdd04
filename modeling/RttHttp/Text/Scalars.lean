import RttHttp.Text.Utf8
import Mathlib.Data.Nat.Bitwise

/-! # Well-formed UTF-8

The texts of RFC 3629 are the encodings of lists of Unicode scalar values, which
are the values of `Char`. `validUtf8` accepts exactly these. The loops are followed
by the list of bytes that is left, and every value that `index` takes is recorded.
-/

namespace RttHttp

/-- The text is the encoding of some list of scalar values. -/
def WellFormedUtf8 (text : Bytes) : Prop :=
  ∃ scalars : List Char, scalars.flatMap String.utf8EncodeChar = text

/-! ## Continuation bytes -/

/-- `(next & 0xc0) == 0x80`. -/
def IsContinuation (c : UInt8) : Prop := c &&& 0xc0 = 0x80

/-- The code point after its continuation bytes. -/
def payload (value : Nat) (rest : Bytes) : Nat :=
  rest.foldl (fun value c => value * 64 + (c.toNat - 0x80)) value

theorem payload_nil (value : Nat) : payload value [] = value := rfl

theorem payload_cons (value : Nat) (c : UInt8) (rest : Bytes) :
    payload value (c :: rest) = payload (value * 64 + (c.toNat - 0x80)) rest := by
  simp only [payload, List.foldl_cons]

theorem isContinuation_iff (c : UInt8) : IsContinuation c ↔ 0x80 ≤ c.toNat ∧ c.toNat < 0xc0 :=
  forall_byte (p := fun c => (c &&& 0xc0 = 0x80) ↔ 0x80 ≤ c.toNat ∧ c.toNat < 0xc0)
    (by decide +kernel) c

/-- One round of `while (count--)` on a continuation byte. -/
theorem shift_continuation {c : UInt8} (hc : IsContinuation c) (value : Nat) :
    (value <<< 6) ||| (c &&& 0x3f).toNat = value * 64 + (c.toNat - 0x80) := by
  have hbits : (c &&& 0x3f).toNat = c.toNat - 0x80 :=
    forall_byte (p := fun c => c &&& 0xc0 = 0x80 → (c &&& 0x3f).toNat = c.toNat - 0x80)
      (by decide +kernel) c hc
  have hbound := (isContinuation_iff c).mp hc
  have hsmall : c.toNat - 0x80 < 2 ^ 6 := by omega
  rw [hbits, ← Nat.shiftLeft_add_eq_or_of_lt hsmall, Nat.shiftLeft_eq]

theorem byteAt_drop {text : Bytes} {index : Nat} {c : UInt8} {rest : Bytes}
    (h : text.drop index = c :: rest) :
    byteAt text index = .ok c ∧ text.drop (index + 1) = rest ∧ index < text.length := by
  have hget : text[index]? = some c := by
    rw [← List.head?_drop, h, List.head?_cons]
  refine ⟨by rw [byteAt, hget], ?_, (List.getElem?_eq_some_iff.mp hget).1⟩
  rw [← List.tail_drop, h, List.tail_cons]

/-- The inner loop reads the announced bytes and stops at the first that is none. -/
theorem continuationBytes_eq {text : Bytes} {count index : Nat} (value : Nat)
    (hlength : index + count ≤ text.length) :
    ((∀ c ∈ (text.drop index).take count, IsContinuation c) →
      continuationBytes text count index value =
        .ok (some (index + count, payload value ((text.drop index).take count)))) ∧
    ((¬ ∀ c ∈ (text.drop index).take count, IsContinuation c) →
      continuationBytes text count index value = .ok none) := by
  induction count generalizing index value with
  | zero => simp [continuationBytes, payload]
  | succ count ih =>
      obtain ⟨c, rest, hdrop⟩ : ∃ c rest, text.drop index = c :: rest := by
        refine List.exists_cons_of_length_pos ?_
        rw [List.length_drop]
        omega
      obtain ⟨hbyte, hrest, -⟩ := byteAt_drop hdrop
      have hnext : index + 1 + count ≤ text.length := by omega
      obtain ⟨hread, hstop⟩ := ih (value * 64 + (c.toNat - 0x80)) hnext
      rw [hrest] at hread hstop
      rw [continuationBytes, hbyte, hdrop, List.take_succ_cons, List.forall_mem_cons]
      dsimp only
      by_cases hc : IsContinuation c
      · have hmask : ¬ (c &&& 0xc0 ≠ 0x80) := not_not.mpr hc
        rw [if_neg hmask, shift_continuation hc]
        refine ⟨fun hall => ?_, fun hall => hstop fun hrest => hall ⟨hc, hrest⟩⟩
        rw [hread hall.2, payload_cons, show index + 1 + count = index + (count + 1) by omega]
      · have hmask : c &&& 0xc0 ≠ 0x80 := hc
        rw [if_pos hmask]
        exact ⟨fun hall => absurd hall.1 hc, fun _ => rfl⟩

/-! ## One scalar value -/

/-- The range check on a code point. -/
def InRange (minimum value : Nat) : Prop :=
  minimum ≤ value ∧ value ≤ 0x10ffff ∧ ¬ (0xd800 ≤ value ∧ value ≤ 0xdfff)

/-- What one round of the outer loop accepts. -/
inductive Sequence : Bytes → Prop
  | ascii {c : UInt8} (hc : c < 0x80) : Sequence [c]
  | multi {first : UInt8} {value count minimum : Nat} {rest : Bytes}
      (hlead : leadByte first = some (value, count, minimum)) (hlength : rest.length = count)
      (hrest : ∀ c ∈ rest, IsContinuation c) (hrange : InRange minimum (payload value rest)) :
      Sequence (first :: rest)

/-- The three classes of lead bytes. -/
theorem leadByte_eq_some {first : UInt8} {value count minimum : Nat} :
    leadByte first = some (value, count, minimum) ↔
      (0xc2 ≤ first.toNat ∧ first.toNat ≤ 0xdf ∧ value = first.toNat - 0xc0 ∧ count = 1 ∧
        minimum = 0x80) ∨
      (0xe0 ≤ first.toNat ∧ first.toNat ≤ 0xef ∧ value = first.toNat - 0xe0 ∧ count = 2 ∧
        minimum = 0x800) ∨
      (0xf0 ≤ first.toNat ∧ first.toNat ≤ 0xf4 ∧ value = first.toNat - 0xf0 ∧ count = 3 ∧
        minimum = 0x10000) := by
  have hclass : leadByte first =
      if 0xc2 ≤ first.toNat ∧ first.toNat ≤ 0xdf then some (first.toNat - 0xc0, 1, 0x80)
      else if 0xe0 ≤ first.toNat ∧ first.toNat ≤ 0xef then some (first.toNat - 0xe0, 2, 0x800)
      else if 0xf0 ≤ first.toNat ∧ first.toNat ≤ 0xf4 then some (first.toNat - 0xf0, 3, 0x10000)
      else none :=
    forall_byte (p := fun first => leadByte first =
      if 0xc2 ≤ first.toNat ∧ first.toNat ≤ 0xdf then some (first.toNat - 0xc0, 1, 0x80)
      else if 0xe0 ≤ first.toNat ∧ first.toNat ≤ 0xef then some (first.toNat - 0xe0, 2, 0x800)
      else if 0xf0 ≤ first.toNat ∧ first.toNat ≤ 0xf4 then some (first.toNat - 0xf0, 3, 0x10000)
      else none) (by decide +kernel) first
  rw [hclass]
  grind

/-- A code point in range is a scalar value. -/
theorem exists_scalar {minimum value : Nat} (h : InRange minimum value) :
    ∃ scalar : Char, scalar.toNat = value := by
  obtain ⟨-, hmax, hsurrogate⟩ := h
  have hvalid : value.isValidChar := by
    unfold Nat.isValidChar
    omega
  exact ⟨Char.ofNatAux value hvalid, rfl⟩

theorem sequence_encodes {text : Bytes} (h : Sequence text) :
    ∃ scalar : Char, String.utf8EncodeChar scalar = text := by
  cases h with
  | @ascii c hc =>
      have hsmall : c.toNat < 0x80 := hc
      have hrange : InRange 0 c.toNat := by
        unfold InRange
        omega
      obtain ⟨scalar, hscalar⟩ := exists_scalar hrange
      refine ⟨scalar, ?_⟩
      have hvalue : scalar.val.toNat = c.toNat := hscalar
      simp only [String.utf8EncodeChar, hvalue]
      rw [if_pos (by omega), UInt8.ofNat_toNat]
  | @multi first value count minimum rest hlead hlength hrest hrange =>
      obtain ⟨scalar, hscalar⟩ := exists_scalar hrange
      have hvalue : scalar.val.toNat = payload value rest := hscalar
      have hmin := hrange.1
      have hmax := hrange.2.1
      refine ⟨scalar, ?_⟩
      rcases leadByte_eq_some.mp hlead with ⟨hlow, hhigh, hfirst, hcount, hleast⟩ |
        ⟨hlow, hhigh, hfirst, hcount, hleast⟩ | ⟨hlow, hhigh, hfirst, hcount, hleast⟩
      · obtain ⟨a, rfl⟩ := List.length_eq_one_iff.mp (hlength.trans hcount)
        have ha := (isContinuation_iff a).mp (hrest a (by simp))
        simp only [payload_cons, payload_nil, hfirst] at hvalue hmin hmax
        simp only [String.utf8EncodeChar, hvalue]
        rw [if_neg (by omega), if_pos (by omega)]
        simp only [List.cons.injEq, and_true, ← UInt8.toNat_inj, UInt8.toNat_ofNat']
        omega
      · obtain ⟨a, b, rfl⟩ := List.length_eq_two.mp (hlength.trans hcount)
        have ha := (isContinuation_iff a).mp (hrest a (by simp))
        have hb := (isContinuation_iff b).mp (hrest b (by simp))
        simp only [payload_cons, payload_nil, hfirst] at hvalue hmin hmax
        simp only [String.utf8EncodeChar, hvalue]
        rw [if_neg (by omega), if_neg (by omega), if_pos (by omega)]
        simp only [List.cons.injEq, and_true, ← UInt8.toNat_inj, UInt8.toNat_ofNat']
        omega
      · obtain ⟨a, b, c, rfl⟩ := List.length_eq_three.mp (hlength.trans hcount)
        have ha := (isContinuation_iff a).mp (hrest a (by simp))
        have hb := (isContinuation_iff b).mp (hrest b (by simp))
        have hc := (isContinuation_iff c).mp (hrest c (by simp))
        simp only [payload_cons, payload_nil, hfirst] at hvalue hmin hmax
        simp only [String.utf8EncodeChar, hvalue]
        rw [if_neg (by omega), if_neg (by omega), if_neg (by omega)]
        simp only [List.cons.injEq, and_true, ← UInt8.toNat_inj, UInt8.toNat_ofNat']
        omega

theorem isContinuation_ofNat (n : Nat) : IsContinuation (UInt8.ofNat (n % 0x40 + 0x80)) := by
  rw [isContinuation_iff, UInt8.toNat_ofNat']
  omega

/-- The encoding of a scalar value, by its length. -/
theorem encodes_sequence (scalar : Char) : Sequence (String.utf8EncodeChar scalar) := by
  have hvalid : scalar.val.toNat < 0xd800 ∨ 0xdfff < scalar.val.toNat ∧ scalar.val.toNat < 0x110000 :=
    scalar.valid
  have hmulti : ∀ {first : UInt8} {value count minimum : Nat} {rest : Bytes},
      leadByte first = some (value, count, minimum) → rest.length = count →
      (∀ c ∈ rest, IsContinuation c) → payload value rest = scalar.val.toNat →
      minimum ≤ scalar.val.toNat → Sequence (first :: rest) := by
    intro first value count minimum rest hlead hlength hrest hpayload hminimum
    refine .multi hlead hlength hrest ?_
    rw [hpayload]
    exact ⟨hminimum, by omega, by omega⟩
  simp only [String.utf8EncodeChar]
  split
  next hsmall =>
    refine .ascii ?_
    rw [UInt8.lt_iff_toNat_lt, UInt8.toNat_ofNat']
    exact Nat.lt_of_le_of_lt (Nat.mod_le _ _) (Nat.lt_succ_of_le hsmall)
  next hbig =>
    split
    next htwo =>
      refine hmulti (leadByte_eq_some.mpr (.inl ⟨?_, ?_, rfl, rfl, rfl⟩)) rfl ?_ ?_ (by omega)
      · rw [UInt8.toNat_ofNat']
        omega
      · rw [UInt8.toNat_ofNat']
        omega
      · simp only [List.forall_mem_cons, isContinuation_ofNat, true_and]
        exact List.forall_mem_nil _
      · simp only [payload_cons, payload_nil, UInt8.toNat_ofNat']
        omega
    next hthree =>
      split
      next hbasic =>
        refine hmulti (leadByte_eq_some.mpr (.inr (.inl ⟨?_, ?_, rfl, rfl, rfl⟩))) rfl ?_ ?_ (by omega)
        · rw [UInt8.toNat_ofNat']
          omega
        · rw [UInt8.toNat_ofNat']
          omega
        · simp only [List.forall_mem_cons, isContinuation_ofNat, true_and]
          exact List.forall_mem_nil _
        · simp only [payload_cons, payload_nil, UInt8.toNat_ofNat']
          omega
      next hfour =>
        refine hmulti (leadByte_eq_some.mpr (.inr (.inr ⟨?_, ?_, rfl, rfl, rfl⟩))) rfl ?_ ?_ (by omega)
        · rw [UInt8.toNat_ofNat']
          omega
        · rw [UInt8.toNat_ofNat']
          omega
        · simp only [List.forall_mem_cons, isContinuation_ofNat, true_and]
          exact List.forall_mem_nil _
        · simp only [payload_cons, payload_nil, UInt8.toNat_ofNat']
          omega

/-! ## Texts by their first byte -/

theorem wellFormedUtf8_nil : WellFormedUtf8 [] := ⟨[], rfl⟩

theorem wellFormedUtf8_cons_iff {first : UInt8} {tail : Bytes} :
    WellFormedUtf8 (first :: tail) ↔
      ∃ one more, Sequence (first :: one) ∧ tail = one ++ more ∧ WellFormedUtf8 more := by
  constructor
  · rintro ⟨scalars, hscalars⟩
    cases scalars with
    | nil => cases hscalars
    | cons scalar rest =>
        have hsequence := encodes_sequence scalar
        rw [List.flatMap_cons] at hscalars
        cases hencoding : String.utf8EncodeChar scalar with
        | nil => exact absurd hencoding String.utf8EncodeChar_ne_nil
        | cons lead one =>
            rw [hencoding] at hscalars hsequence
            obtain ⟨rfl, htail⟩ := List.cons.inj hscalars
            exact ⟨one, _, hsequence, htail.symm, rest, rfl⟩
  · rintro ⟨one, more, hsequence, rfl, scalars, rfl⟩
    obtain ⟨scalar, hscalar⟩ := sequence_encodes hsequence
    refine ⟨scalar :: scalars, ?_⟩
    rw [List.flatMap_cons, hscalar, List.cons_append]

theorem leadByte_ascii {first : UInt8} (hascii : first < 0x80) : leadByte first = none := by
  have hsmall : first.toNat < 0x80 := hascii
  rw [Option.eq_none_iff_forall_ne_some]
  rintro ⟨value, count, minimum⟩ hlead
  have hclass := leadByte_eq_some.mp hlead
  omega

theorem wellFormedUtf8_ascii {first : UInt8} {tail : Bytes} (hascii : first < 0x80) :
    WellFormedUtf8 (first :: tail) ↔ WellFormedUtf8 tail := by
  rw [wellFormedUtf8_cons_iff]
  constructor
  · rintro ⟨one, more, hsequence, rfl, hmore⟩
    cases hsequence with
    | ascii => exact hmore
    | multi hlead =>
        rw [leadByte_ascii hascii] at hlead
        cases hlead
  · exact fun htail => ⟨[], tail, .ascii hascii, rfl, htail⟩

theorem not_wellFormedUtf8 {first : UInt8} {tail : Bytes} (hascii : ¬ first < 0x80)
    (hlead : leadByte first = none) : ¬ WellFormedUtf8 (first :: tail) := by
  rw [wellFormedUtf8_cons_iff]
  rintro ⟨one, more, hsequence, -, -⟩
  cases hsequence with
  | ascii hc => exact hascii hc
  | multi hother =>
      rw [hlead] at hother
      cases hother

theorem wellFormedUtf8_multi {first : UInt8} {tail : Bytes} {value count minimum : Nat}
    (hlead : leadByte first = some (value, count, minimum)) :
    WellFormedUtf8 (first :: tail) ↔
      count ≤ tail.length ∧ (∀ c ∈ tail.take count, IsContinuation c) ∧
        InRange minimum (payload value (tail.take count)) ∧ WellFormedUtf8 (tail.drop count) := by
  rw [wellFormedUtf8_cons_iff]
  constructor
  · rintro ⟨one, more, hsequence, rfl, hmore⟩
    cases hsequence with
    | ascii hc =>
        rw [leadByte_ascii hc] at hlead
        cases hlead
    | multi hother hlength hrest hrange =>
        rw [hlead] at hother
        cases hother
        rw [List.length_append, List.take_left' hlength, List.drop_left' hlength]
        exact ⟨by omega, hrest, hrange, hmore⟩
  · rintro ⟨hlength, hrest, hrange, hmore⟩
    exact ⟨_, _, .multi hlead (List.length_take_of_le hlength) hrest hrange,
      (List.take_append_drop _ _).symm, hmore⟩

/-! ## The outer loop -/

/-- The values of `index` while the continuation bytes are read. -/
def continuationIndices (text : Bytes) : (count index : Nat) → List Nat
  | 0, index => [index]
  | count + 1, index =>
      index :: match byteAt text index with
        | .error _ => []
        | .ok next =>
            if next &&& 0xc0 ≠ 0x80 then [index + 1]
            else continuationIndices text count (index + 1)

/-- Every value of `index` in the outer loop of `validUtf8`. -/
def loopIndices (text : Bytes) : (fuel index : Nat) → List Nat
  | 0, index => [index]
  | fuel + 1, index =>
      index :: if index < text.length then
        match byteAt text index with
        | .error _ => []
        | .ok first =>
            if first < 0x80 then loopIndices text fuel (index + 1)
            else match leadByte first with
              | none => [index + 1]
              | some (value, count, minimum) =>
                  if text.length - (index + 1) < count then [index + 1]
                  else continuationIndices text count (index + 1) ++
                    match continuationBytes text count (index + 1) value with
                    | .error _ | .ok none => []
                    | .ok (some (index, value)) =>
                        if value < minimum ∨ 0x10ffff < value ∨
                            (0xd800 ≤ value ∧ value ≤ 0xdfff) then []
                        else loopIndices text fuel index
      else []

theorem continuationIndices_le {text : Bytes} {count index : Nat}
    (hlength : index + count ≤ text.length) :
    ∀ position ∈ continuationIndices text count index, position ≤ text.length := by
  induction count generalizing index with
  | zero =>
      intro position hposition
      rw [List.mem_singleton.mp hposition]
      exact hlength
  | succ count ih =>
      have hnext : index + 1 + count ≤ text.length := by omega
      rw [continuationIndices, List.forall_mem_cons]
      refine ⟨by omega, ?_⟩
      split
      next => exact List.forall_mem_nil _
      next =>
        split
        next =>
          intro position hposition
          rw [List.mem_singleton.mp hposition]
          omega
        next => exact ih hnext

theorem outOfRange_iff {minimum value : Nat} :
    (value < minimum ∨ 0x10ffff < value ∨ (0xd800 ≤ value ∧ value ≤ 0xdfff)) ↔
      ¬ InRange minimum value := by
  unfold InRange
  omega

/-- The bytes after a lead byte complete a sequence. -/
def Completes (count minimum value : Nat) (tail : Bytes) : Prop :=
  count ≤ tail.length ∧ (∀ c ∈ tail.take count, IsContinuation c) ∧
    InRange minimum (payload value (tail.take count))

section Round

variable {text tail : Bytes} {first : UInt8} {value count minimum index : Nat}
  (hdrop : text.drop index = first :: tail) (hascii : ¬ first < 0x80)
  (hlead : leadByte first = some (value, count, minimum))

include hdrop hascii hlead

/-- A round that reads a whole sequence goes on behind it. -/
theorem validUtf8Loop_completes (fuel : Nat) (hcompletes : Completes count minimum value tail) :
    validUtf8Loop text (fuel + 1) index = validUtf8Loop text fuel (index + 1 + count) ∧
    loopIndices text (fuel + 1) index =
      index :: (continuationIndices text count (index + 1) ++
        loopIndices text fuel (index + 1 + count)) := by
  obtain ⟨hcount, hall, hrange⟩ := hcompletes
  obtain ⟨hbyte, htail, hmore⟩ := byteAt_drop hdrop
  have hlength : tail.length = text.length - (index + 1) := by rw [← htail, List.length_drop]
  have hcomplete : ¬ text.length - (index + 1) < count := by omega
  have hvalid := fun hbad => outOfRange_iff.mp hbad hrange
  have hfits : index + 1 + count ≤ text.length := by omega
  have hread := (continuationBytes_eq value hfits).1 (htail ▸ hall)
  rw [htail] at hread
  rw [validUtf8Loop, loopIndices, if_pos hmore, if_pos hmore, hbyte]
  dsimp only
  rw [if_neg hascii, if_neg hascii, hlead]
  dsimp only
  rw [if_neg hcomplete, if_neg hcomplete, hread]
  dsimp only
  rw [if_neg hvalid, if_neg hvalid]
  exact ⟨rfl, rfl⟩

/-- Any other round ends the loop. -/
theorem validUtf8Loop_breaks (fuel : Nat) (hbreaks : ¬ Completes count minimum value tail) :
    validUtf8Loop text (fuel + 1) index = .ok false ∧
    ∀ position ∈ loopIndices text (fuel + 1) index, position ≤ text.length := by
  obtain ⟨hbyte, htail, hmore⟩ := byteAt_drop hdrop
  have hlength : tail.length = text.length - (index + 1) := by rw [← htail, List.length_drop]
  rw [validUtf8Loop, loopIndices, if_pos hmore, if_pos hmore, hbyte, List.forall_mem_cons]
  dsimp only
  rw [if_neg hascii, if_neg hascii, hlead]
  dsimp only
  by_cases htruncated : text.length - (index + 1) < count
  · rw [if_pos htruncated, if_pos htruncated, List.forall_mem_singleton]
    exact ⟨rfl, hmore.le, hmore⟩
  · have hcount : index + 1 + count ≤ text.length := by omega
    have hread := continuationIndices_le hcount
    rw [if_neg htruncated, if_neg htruncated, List.forall_mem_append]
    by_cases hall : ∀ c ∈ tail.take count, IsContinuation c
    · have hrange : ¬ InRange minimum (payload value (tail.take count)) :=
        fun hrange => hbreaks ⟨by omega, hall, hrange⟩
      have hbytes := (continuationBytes_eq value hcount).1 (htail ▸ hall)
      rw [htail] at hbytes
      rw [hbytes]
      dsimp only
      rw [if_pos (outOfRange_iff.mpr hrange), if_pos (outOfRange_iff.mpr hrange)]
      exact ⟨rfl, hmore.le, hread, List.forall_mem_nil _⟩
    · rw [(continuationBytes_eq value hcount).2 (htail ▸ hall)]
      exact ⟨rfl, hmore.le, hread, List.forall_mem_nil _⟩

end Round

/-- The outer loop from a position on: its answer is about the rest of the text,
and it never steps past the end. -/
theorem validUtf8Loop_decides {text : Bytes} {fuel index : Nat} (hindex : index ≤ text.length)
    (hfuel : text.length ≤ index + fuel) :
    (∃ valid, validUtf8Loop text fuel index = .ok valid ∧
      (valid = true ↔ WellFormedUtf8 (text.drop index))) ∧
    ∀ position ∈ loopIndices text fuel index, position ≤ text.length := by
  induction fuel generalizing index with
  | zero =>
      have hend : ¬ index < text.length := by omega
      rw [validUtf8Loop, if_neg hend, List.drop_eq_nil_of_le (by omega), loopIndices,
        List.forall_mem_singleton]
      exact ⟨⟨true, rfl, by simp [wellFormedUtf8_nil]⟩, hindex⟩
  | succ fuel ih =>
      cases hdrop : text.drop index with
      | nil =>
          have hend : ¬ index < text.length := Nat.not_lt.mpr (List.drop_eq_nil_iff.mp hdrop)
          rw [validUtf8Loop, loopIndices, if_neg hend, if_neg hend, List.forall_mem_singleton]
          exact ⟨⟨true, rfl, by simp [wellFormedUtf8_nil]⟩, hindex⟩
      | cons first tail =>
          obtain ⟨hbyte, htail, hmore⟩ := byteAt_drop hdrop
          by_cases hascii : first < 0x80
          · have hnext : index + 1 ≤ text.length := hmore
            obtain ⟨hverdict, hpositions⟩ := ih hnext (by omega)
            rw [validUtf8Loop, loopIndices, if_pos hmore, if_pos hmore, hbyte, List.forall_mem_cons]
            dsimp only
            rw [if_pos hascii, if_pos hascii, wellFormedUtf8_ascii hascii, ← htail]
            exact ⟨hverdict, hindex, hpositions⟩
          · cases hlead : leadByte first with
            | none =>
                have hbad : ¬ WellFormedUtf8 (first :: tail) := not_wellFormedUtf8 hascii hlead
                rw [validUtf8Loop, loopIndices, if_pos hmore, if_pos hmore, hbyte]
                dsimp only
                rw [if_neg hascii, if_neg hascii, hlead, List.forall_mem_cons,
                  List.forall_mem_singleton]
                exact ⟨⟨false, rfl, by simp [hbad]⟩, hindex, hmore⟩
            | some lead =>
                obtain ⟨value, count, minimum⟩ := lead
                by_cases hcompletes : Completes count minimum value tail
                · have hlength := congrArg List.length htail
                  rw [List.length_drop] at hlength
                  have hcount : index + 1 + count ≤ text.length := by
                    have hfits := hcompletes.1
                    omega
                  obtain ⟨hverdict, hpositions⟩ := ih hcount (by omega)
                  obtain ⟨hloop, hindices⟩ :=
                    validUtf8Loop_completes hdrop hascii hlead fuel hcompletes
                  rw [hloop, hindices, wellFormedUtf8_multi hlead, List.forall_mem_cons,
                    List.forall_mem_append]
                  rw [← List.drop_drop, htail] at hverdict
                  obtain ⟨valid, hvalid, hiff⟩ := hverdict
                  refine ⟨⟨valid, hvalid, hiff.trans ?_⟩, hindex, continuationIndices_le hcount,
                    hpositions⟩
                  constructor
                  · exact fun hrest => ⟨hcompletes.1, hcompletes.2.1, hcompletes.2.2, hrest⟩
                  · exact fun h => h.2.2.2
                · obtain ⟨hloop, hpositions⟩ :=
                    validUtf8Loop_breaks hdrop hascii hlead fuel hcompletes
                  have hbad : ¬ WellFormedUtf8 (first :: tail) := by
                    rw [wellFormedUtf8_multi hlead]
                    exact fun h => hcompletes ⟨h.1, h.2.1, h.2.2.1⟩
                  exact ⟨⟨false, hloop, by simp [hbad]⟩, hpositions⟩

/-- `validUtf8` accepts exactly the encodings of scalar values; its loop ends on
every text and `index` stays within it. -/
theorem validUtf8_exact (text : Bytes) :
    (validUtf8 text = true ↔ WellFormedUtf8 text) ∧
    validUtf8Loop text text.length 0 = .ok (validUtf8 text) ∧
    ∀ index ∈ loopIndices text text.length 0, index ≤ text.length := by
  obtain ⟨⟨valid, hloop, hvalid⟩, hindices⟩ :=
    validUtf8Loop_decides (Nat.zero_le text.length) (Nat.le_add_left text.length 0)
  have hresult : validUtf8 text = valid := by rw [validUtf8, hloop]
  rw [hresult]
  exact ⟨hvalid, hloop, hindices⟩

example : validUtf8 [0xe6, 0x9c, 0xba, 0xe5, 0x99] = false := by decide

end RttHttp
