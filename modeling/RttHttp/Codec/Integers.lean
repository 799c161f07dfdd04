import RttHttp.Codec.RoundTrip
import Mathlib.Data.Nat.Digits.Lemmas

/-! # The spellings of integers

Integers of 64 bits are written as decimal strings. Decoding parses such a string
and prints it again, so that it accepts one spelling of every integer only.
-/

namespace RttHttp

/-! ## Canonical decimal spellings -/

/-- A run of digits that does not start with a zero. -/
structure Leading (run : Bytes) : Prop where
  digits : ∀ c ∈ run, isDigit c = true
  first : ∃ c rest, run = c :: rest ∧ c ≠ digitByte 0

/-- A zero, or an optional minus sign and digits without a leading zero. -/
def Canonical (signed : Bool) (text : Bytes) : Prop :=
  text = [digitByte 0] ∨ Leading text ∨ signed = true ∧ ∃ run, text = minus :: run ∧ Leading run

/-- The integer that a text spells. -/
def spelledInteger : Bytes → Int
  | [] => 0
  | c :: rest => if c = minus then -(digitsValue rest : Int) else digitsValue (c :: rest)

theorem leading_decimal {magnitude : Nat} (hmagnitude : magnitude ≠ 0) :
    Leading (decimal magnitude) := by
  refine ⟨decimal_isDigit magnitude, ?_⟩
  have hne : Nat.digits 10 magnitude ≠ [] := Nat.digits_ne_nil_iff_ne_zero.mpr hmagnitude
  have hlast := Nat.getLast_digit_ne_zero 10 hmagnitude
  have hsmall : (Nat.digits 10 magnitude).getLast hne < 10 :=
    Nat.digits_lt_base (by decide) (List.getLast_mem hne)
  have hbyte : ∀ digit < 10, digit ≠ 0 → digitByte digit ≠ digitByte 0 := by decide
  rw [decimal, if_neg hmagnitude, ← List.dropLast_append_getLast hne, List.reverse_append,
    List.map_append]
  exact ⟨_, _, rfl, hbyte _ hsmall hlast⟩

/-- Digits without a leading zero are printed as they are. -/
theorem decimal_digitsValue {run : Bytes} (h : Leading run) :
    digitsValue run ≠ 0 ∧ decimal (digitsValue run) = run := by
  have hbyte : ∀ c : UInt8, isDigit c = true → c.toNat - 0x30 < 10 ∧
      digitByte (c.toNat - 0x30) = c :=
    forall_byte (p := fun c => isDigit c = true → c.toNat - 0x30 < 10 ∧
      digitByte (c.toNat - 0x30) = c) (by decide +kernel)
  obtain ⟨c, rest, rfl, hfirst⟩ := h.first
  have hdigits : ∀ digit ∈ ((c :: rest).map fun c => c.toNat - 0x30).reverse, digit < 10 := by
    intro digit hdigit
    obtain ⟨found, hfound, rfl⟩ := List.mem_map.mp (List.mem_reverse.mp hdigit)
    exact (hbyte found (h.digits found hfound)).1
  have hmap : ((c :: rest).map fun c => c.toNat - 0x30).map digitByte = c :: rest := by
    rw [List.map_map]
    conv_rhs => rw [← List.map_id (c :: rest)]
    exact List.map_congr_left fun found hfound => (hbyte found (h.digits found hfound)).2
  have hvalue : digitsValue (c :: rest) =
      Nat.ofDigits 10 ((c :: rest).map fun c => c.toNat - 0x30).reverse := by
    rw [Nat.ofDigits_eq_foldr, List.foldr_reverse, List.foldl_map, digitsValue]
    congr 1
    funext value c
    simp
    omega
  have hzero : c.toNat - 0x30 ≠ 0 := by
    intro hzero
    have hsame := (hbyte c (h.digits c List.mem_cons_self)).2
    rw [hzero] at hsame
    exact hfirst hsame.symm
  have hback : Nat.digits 10 (digitsValue (c :: rest)) =
      ((c :: rest).map fun c => c.toNat - 0x30).reverse := by
    rw [hvalue]
    refine Nat.digits_ofDigits 10 (by decide) _ hdigits ?_
    intro hne
    rw [List.getLast_reverse]
    exact hzero
  have hpositive : digitsValue (c :: rest) ≠ 0 := by
    intro hnone
    rw [hnone, Nat.digits_zero] at hback
    simp at hback
  refine ⟨hpositive, ?_⟩
  rw [decimal, if_neg hpositive, hback, List.reverse_reverse, hmap]

theorem spelledInteger_of_leading {run : Bytes} (h : Leading run) :
    spelledInteger run = digitsValue run := by
  obtain ⟨c, rest, rfl, -⟩ := h.first
  have hne : c ≠ minus := by
    rintro rfl
    exact absurd (h.digits minus List.mem_cons_self) (by decide)
  rw [spelledInteger, if_neg hne]

/-- A canonical spelling is what is printed for its integer. -/
theorem toChars_spelledInteger {signed : Bool} {text : Bytes} (h : Canonical signed text) :
    toChars (spelledInteger text) = text := by
  rcases h with rfl | hleading | ⟨-, run, rfl, hleading⟩
  · decide
  · obtain ⟨-, hprinted⟩ := decimal_digitsValue hleading
    rw [spelledInteger_of_leading hleading, toChars, if_neg (by omega), Int.natAbs_natCast, hprinted]
  · obtain ⟨hpositive, hprinted⟩ := decimal_digitsValue hleading
    rw [spelledInteger, if_pos rfl, toChars, if_pos (by omega), Int.natAbs_neg, Int.natAbs_natCast,
      hprinted]

theorem spelledInteger_toChars (value : Int) : spelledInteger (toChars value) = value := by
  unfold toChars
  split
  next hnegative =>
    rw [spelledInteger, if_pos rfl, digitsValue_decimal]
    omega
  next hnonneg =>
    by_cases hzero : value.natAbs = 0
    · rw [hzero]
      obtain rfl : value = 0 := by omega
      decide
    · rw [spelledInteger_of_leading (leading_decimal hzero), digitsValue_decimal]
      omega

theorem canonical_toChars {signed : Bool} {value : Int} (hsigned : value < 0 → signed = true) :
    Canonical signed (toChars value) := by
  unfold toChars
  split
  next hnegative => exact .inr (.inr ⟨hsigned hnegative, _, rfl, leading_decimal (by omega)⟩)
  next hnonneg =>
    by_cases hzero : value.natAbs = 0
    · rw [hzero]
      exact .inl (by decide)
    · exact .inr (.inl (leading_decimal hzero))

namespace Codec

/-! ## Integers of 64 bits -/

/-- One canonical spelling: what the two conversions of a wide type do with strings. -/
structure OneSpelling (t : IntType) (encode : t.Value → Json → CodecContext → Result Json)
    (decode : Json → t.Value → CodecContext → Result t.Value) : Prop where
  /-- What is accepted. -/
  accepts : ∀ json output context, (decode json output context).status = .converted ↔
    ∃ text, json = .string text ∧ Canonical t.signed text ∧ t.Holds (spelledInteger text)
  /-- What it is decoded to. -/
  value : ∀ text output context, (decode (.string text) output context).status = .converted →
    (decode (.string text) output context).output.1 = spelledInteger text
  injective : ∀ first second output other context after,
    (decode first output context).status = .converted →
    (decode second other after).status = .converted →
    (decode first output context).output = (decode second other after).output → first = second
  /-- What is accepted is what is written. -/
  image : ∀ json output context, (decode json output context).status = .converted ↔
    ∃ value other after, (encode value other after).status = .converted ∧
      (encode value other after).output = json
  /-- Encoding what was decoded gives it back, or the bytes run out. -/
  inverse : ∀ json output context, (decode json output context).status = .converted →
    ∀ other after,
      (encode (decode json output context).output other after).status = .converted ∧
        (encode (decode json output context).output other after).output = json ∨
      (encode (decode json output context).output other after).status = .failure .documentLimit

theorem wideNumber_iff_canonical {t : IntType} {json : Json} {value : Int} :
    wideNumber t json = some value ↔
      ∃ text, json = .string text ∧ Canonical t.signed text ∧ spelledInteger text = value ∧
        t.Holds value := by
  rw [wideNumber_eq_some]
  constructor
  · rintro ⟨rfl, hholds⟩
    refine ⟨toChars value, rfl, canonical_toChars ?_, spelledInteger_toChars value, hholds⟩
    intro hnegative
    by_contra hsigned
    have hnonneg := nonneg_of_unsigned (Bool.eq_false_iff.mpr hsigned) hholds
    omega
  · rintro ⟨text, rfl, hcanonical, rfl, hholds⟩
    exact ⟨by rw [toChars_spelledInteger hcanonical], hholds⟩

section Wide

variable {t : IntType} {encode : t.Value → Json → CodecContext → Result Json}
  {decode : Json → t.Value → CodecContext → Result t.Value}
  (hdecode : ∀ json output context,
    Ends context output ((intNumber t json).map t.cast) 0 0 (decode json output context))

include hdecode

/-- Decoding an integer charges nothing, so it succeeds whenever there is one. -/
theorem decode_of_number {json : Json} {value : t.Value} (output : t.Value) (context : CodecContext)
    (hnumber : intNumber t json = some value.1) :
    (decode json output context).status = .converted ∧
      (decode json output context).output = value := by
  have hends := hdecode json output context
  rw [hnumber, Option.map_some, IntType.cast_val] at hends
  rcases hends.of_some with hok | ⟨-, hbytes⟩ | ⟨-, hdepth⟩
  · exact hok
  · exact absurd hbytes (Nat.not_lt_zero _)
  · exact absurd context.depth_le (Nat.not_le.mpr hdepth)

theorem number_of_converted {json : Json} {output : t.Value} {context : CodecContext}
    (hstatus : (decode json output context).status = .converted) :
    intNumber t json = some (decode json output context).output.1 :=
  intNumber_of_cast ((hdecode json output context).of_converted hstatus).1

theorem oneSpelling_of_ends (hwide : t.width = .w64)
    (hencode : ∀ value output context,
      Ends context output (some (intJson t value)) (intCost t value) 0 (encode value output context)) :
    OneSpelling t encode decode := by
  have hnumber : ∀ json, intNumber t json = wideNumber t json := by
    intro json
    rw [intNumber, if_pos hwide]
  have hjson : ∀ value : t.Value, intJson t value = .string (toChars value.1) := by
    intro value
    rw [intJson, hwide]
  have hread : ∀ {json output context}, (decode json output context).status = .converted →
      json = intJson t (decode json output context).output := by
    intro json output context hstatus
    have hvalue := number_of_converted hdecode hstatus
    rw [hnumber, wideNumber_eq_some] at hvalue
    rw [hjson, ← hvalue.1]
  refine ⟨?_, ?_, ?_, ?_, ?_⟩
  · intro json output context
    constructor
    · intro hstatus
      have hvalue := number_of_converted hdecode hstatus
      rw [hnumber] at hvalue
      obtain ⟨text, htext, hcanonical, hspelled, hholds⟩ := wideNumber_iff_canonical.mp hvalue
      exact ⟨text, htext, hcanonical, hspelled ▸ hholds⟩
    · rintro ⟨text, htext, hcanonical, hholds⟩
      have hvalue : wideNumber t json = some (spelledInteger text) :=
        wideNumber_iff_canonical.mpr ⟨text, htext, hcanonical, rfl, hholds⟩
      rw [← hnumber] at hvalue
      have hmember : intNumber t json = some (⟨_, hholds⟩ : t.Value).1 := hvalue
      exact (decode_of_number hdecode output context hmember).1
  · intro text output context hstatus
    have hvalue := number_of_converted hdecode hstatus
    rw [hnumber] at hvalue
    obtain ⟨found, hfound, -, hspelled, -⟩ := wideNumber_iff_canonical.mp hvalue
    cases hfound
    exact hspelled.symm
  · intro first second output other context after hfirst hsecond hequal
    rw [hread hfirst, hread hsecond, hequal]
  · intro json output context
    constructor
    · intro hstatus
      have hends := hencode (decode json output context).output .null
        (.fresh { maxDocumentBytes := intCost t (decode json output context).output })
      rcases hends.of_some with ⟨hok, houtput⟩ | ⟨-, hbytes⟩ | ⟨-, hdepth⟩
      · exact ⟨_, _, _, hok, houtput.trans (hread hstatus).symm⟩
      · exact absurd hbytes (Nat.lt_irrefl _)
      · exact absurd hdepth (Nat.not_lt_zero _)
    · rintro ⟨value, other, after, hstatus, rfl⟩
      obtain ⟨hvalue, -, -⟩ := (hencode value other after).of_converted hstatus
      have hback : intNumber t (encode value other after).output = some value.1 := by
        apply intNumber_of_respelled value
        rw [← Option.some.inj hvalue]
        exact .refl _
      exact (decode_of_number hdecode output context hback).1
  · intro json output context hstatus other after
    rcases (hencode (decode json output context).output other after).of_some with
      ⟨hok, houtput⟩ | ⟨hbytes, -⟩ | ⟨-, hdepth⟩
    · exact .inl ⟨hok, houtput.trans (hread hstatus).symm⟩
    · exact .inr hbytes
    · exact absurd after.depth_le (Nat.not_le.mpr hdepth)

end Wide

/-- Both 64-bit integers, and the enumerations over them, have one spelling for each value. -/
theorem wide_integers_one_spelling (signed : Bool) :
    OneSpelling ⟨signed, .w64⟩ (encode (.int ⟨signed, .w64⟩)) (decode (.int ⟨signed, .w64⟩)) ∧
      OneSpelling ⟨signed, .w64⟩ (encode (.enum ⟨signed, .w64⟩)) (decode (.enum ⟨signed, .w64⟩)) := by
  refine ⟨?_, ?_⟩
  · exact oneSpelling_of_ends (fun json output context => decodeInt_ends _ json output) rfl
      fun value output context => encodeInt_ends _ value output
  · exact oneSpelling_of_ends (fun json output context => decodeEnum_ends _ json output) rfl
      fun value output context => encodeInt_ends _ value output

example : ¬ Canonical true (bytes "-0") := by
  rintro (h | h | ⟨-, run, h, hrun⟩)
  · exact absurd h (by decide)
  · exact absurd (h.digits minus (by decide)) (by decide)
  · obtain ⟨c, rest, rfl, hfirst⟩ := hrun.first
    cases h
    exact hfirst rfl

end Codec

end RttHttp
