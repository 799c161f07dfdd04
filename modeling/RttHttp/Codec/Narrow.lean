import RttHttp.Codec.RoundTrip
import RttHttp.Json.Output

/-! # Narrow integers at the level of machine arithmetic

`JsonConversion<T>::decode` for integers of 8, 16 and 32 bits, with the conversions
that the language makes implicitly: operands of a comparison are converted to their
common type first, limits are converted to `double`, and the result is cast. In
`checked` mode a conversion that does not keep its value is a fault; the machine
runs in the other mode.
-/

namespace RttHttp

namespace Codec

/-! ## Integer conversions -/

/-- What a conversion must not do: change a value, or be undefined. -/
inductive CastFault where
  | lossy
  | undefined
  deriving DecidableEq, Repr

namespace IntType

/-- `int`. -/
def int : IntType := ⟨true, .w32⟩

/-- `std::int64_t`. -/
def int64 : IntType := ⟨true, .w64⟩

/-- `std::uint64_t`. -/
def uint64 : IntType := ⟨false, .w64⟩

/-- Integral promotion: `int` holds every value of a type that is narrower. -/
def promoted (t : IntType) : IntType := if t.width.bits < 32 then int else t

/-- The usual arithmetic conversions: the wider type, the unsigned one of two that
are equally wide. -/
def common (first second : IntType) : IntType :=
  let first := first.promoted
  let second := second.promoted
  if first.width.bits < second.width.bits then second
  else if second.width.bits < first.width.bits then first
  else if first.signed then second else first

/-- A conversion to an integer type. -/
def convert (checked : Bool) (t : IntType) (value : Int) : Except CastFault t.Value :=
  if checked && !decide (t.Holds value) then .error .lossy else .ok (t.cast value)

end IntType

/-- A typed operand. -/
structure Operand where
  type : IntType
  value : type.Value

/-- `std::numeric_limits<T>::min()`. -/
def Operand.min (t : IntType) : Operand := ⟨t, t.cast t.low⟩

/-- `std::numeric_limits<T>::max()`. -/
def Operand.max (t : IntType) : Operand := ⟨t, t.cast t.high⟩

/-- `first < second`. -/
def Operand.less (checked : Bool) (first second : Operand) : Except CastFault Bool := do
  let common := first.type.common second.type
  let first ← common.convert checked first.value.1
  let second ← common.convert checked second.value.1
  return first.1 < second.1

/-- `static_cast<T>(operand)`. -/
def Operand.cast (checked : Bool) (t : IntType) (operand : Operand) : Except CastFault Operand := do
  let value ← t.convert checked operand.value.1
  return ⟨t, value⟩

/-- `static_cast<double>(operand)`. -/
def Operand.toDouble (checked : Bool) (operand : Operand) : Except CastFault Double :=
  let value := Format.binary64.ofInt operand.value.1
  if checked && value.toInt? ≠ some operand.value.1 then .error .lossy else .ok value

/-- `static_cast<T>(value)` of a `double`, which is undefined out of range. -/
def castDouble (t : IntType) (value : Double) : Except CastFault t.Value :=
  match value.trunc.toInt? with
  | none => .error .undefined
  | some number => if h : t.Holds number then .ok ⟨number, h⟩ else .error .undefined

/-! ## Decoding -/

section Decoding

variable (checked : Bool) (t : IntType)

/-- The tests on a number held as `std::int64_t`. -/
def outsideInt64 (value : Operand) : Except CastFault Bool := do
  if t.signed then
    if ← value.less checked (.min t) then return true
    (Operand.max t).less checked value
  else
    if ← value.less checked ⟨.int, IntType.int.cast 0⟩ then return true
    (Operand.max t).less checked (← value.cast checked .uint64)

/-- The test on a number held as `std::uint64_t`. -/
def outsideUint64 (value : Operand) : Except CastFault Bool := do
  (← (Operand.max t).cast checked .uint64).less checked value

/-- The tests on a number held as `double`. -/
def outsideDouble (value : Double) : Except CastFault Bool := do
  if !value.isFinite then return true
  if !value.trunc.equal value then return true
  if value.less (← (Operand.min t).toDouble checked) then return true
  return (← (Operand.max t).toDouble checked).less value

/-- `JsonConversion<T>::decode` for an integer type that is not 64 bits wide. -/
def decodeNarrow (input : Json) (output : t.Value) (context : CodecContext) :
    Except CastFault (Result t.Value) := do
  match input with
  | .int64 value =>
      let value : Operand := ⟨.int64, IntType.int64.cast value.toInt⟩
      if ← outsideInt64 checked t value then return fail .typeMismatch output context
      return ⟨.converted, ← t.convert checked value.value.1, context⟩
  | .uint64 value =>
      let value : Operand := ⟨.uint64, IntType.uint64.cast value.toNat⟩
      if ← outsideUint64 checked t value then return fail .typeMismatch output context
      return ⟨.converted, ← t.convert checked value.value.1, context⟩
  | .double value =>
      if ← outsideDouble checked t value then return fail .typeMismatch output context
      return ⟨.converted, ← castDouble t value, context⟩
  | _ => return fail .typeMismatch output context

end Decoding

/-! ## No conversion changes a value -/

theorem IntType.convert_of_holds {checked : Bool} {t : IntType} {value : Int} (h : t.Holds value) :
    t.convert checked value = .ok ⟨value, h⟩ := by
  rw [IntType.convert, IntType.cast_of_holds h]
  simp [h]

/-- A comparison whose common type holds both operands compares their values. -/
theorem Operand.less_of_holds {checked : Bool} {common : IntType} {first second : Operand}
    (hcommon : first.type.common second.type = common) (hfirst : common.Holds first.value.1)
    (hsecond : common.Holds second.value.1) :
    first.less checked second = .ok (decide (first.value.1 < second.value.1)) := by
  subst hcommon
  rw [Operand.less, IntType.convert_of_holds hfirst, IntType.convert_of_holds hsecond]
  rfl

theorem IntType.low_le_high (t : IntType) : t.low ≤ 0 ∧ 0 ≤ t.high := by
  obtain ⟨signed, width⟩ := t
  cases signed <;> cases width <;> decide

theorem IntType.holds_low (t : IntType) : t.Holds t.low :=
  ⟨Int.le_refl _, t.low_le_high.1.trans t.low_le_high.2⟩

theorem IntType.holds_high (t : IntType) : t.Holds t.high :=
  ⟨t.low_le_high.1.trans t.low_le_high.2, Int.le_refl _⟩

@[simp] theorem Operand.min_value (t : IntType) : (Operand.min t).value = ⟨t.low, t.holds_low⟩ :=
  IntType.cast_of_holds t.holds_low

@[simp] theorem Operand.max_value (t : IntType) : (Operand.max t).value = ⟨t.high, t.holds_high⟩ :=
  IntType.cast_of_holds t.holds_high

theorem IntType.holds_int64_iff {value : Int} :
    IntType.int64.Holds value ↔ -2 ^ 63 ≤ value ∧ value < 2 ^ 63 := by
  have hlow : IntType.int64.low = -2 ^ 63 := by decide
  have hhigh : IntType.int64.high = 2 ^ 63 - 1 := by decide
  rw [IntType.Holds, hlow, hhigh]
  omega

theorem IntType.holds_uint64_iff {value : Int} :
    IntType.uint64.Holds value ↔ 0 ≤ value ∧ value < 2 ^ 64 := by
  have hlow : IntType.uint64.low = 0 := by decide
  have hhigh : IntType.uint64.high = 2 ^ 64 - 1 := by decide
  rw [IntType.Holds, hlow, hhigh]
  omega

theorem IntType.outside_eq (t : IntType) (value : Int) :
    (!decide (t.Holds value)) = (decide (value < t.low) || decide (t.high < value)) := by
  rw [Bool.eq_iff_iff, Bool.not_eq_true', decide_eq_false_iff_not, Bool.or_eq_true,
    decide_eq_true_iff, decide_eq_true_iff, IntType.Holds]
  omega

theorem castDouble_of_holds {t : IntType} {value : Double} {number : Int}
    (hinteger : value.toInt? = some number) (h : t.Holds number) : castDouble t value = .ok ⟨number, h⟩ := by
  simp only [castDouble, Binary.trunc_of_toInt? hinteger, hinteger, dif_pos h]

section Narrow

variable {checked : Bool} {t : IntType} (hnarrow : t.width ≠ .w64)

include hnarrow

/-- The common type of a narrow and a 64-bit operand is the 64-bit one. -/
theorem IntType.common_wide {wide : IntType} (hwide : wide.width = .w64) :
    wide.common t = wide ∧ t.common wide = wide := by
  obtain ⟨sign, width⟩ := wide
  obtain ⟨signed, narrow⟩ := t
  obtain rfl := hwide
  cases narrow with
  | w64 => exact absurd rfl hnarrow
  | _ => cases sign <;> cases signed <;> decide

theorem IntType.holds_int64_of_narrow {value : Int} (h : t.Holds value) :
    IntType.int64.Holds value := by
  have hbounds := narrow_bounds hnarrow h
  rw [IntType.holds_int64_iff]
  omega

theorem IntType.holds_uint64_of_narrow {value : Int} (h : t.Holds value) (hvalue : 0 ≤ value) :
    IntType.uint64.Holds value := by
  have hbounds := narrow_bounds hnarrow h
  rw [IntType.holds_uint64_iff]
  omega

theorem Operand.less_min (checked : Bool) (wide : IntType) (hwide : wide.width = .w64) (hlow : wide.Holds t.low)
    (value : wide.Value) :
    Operand.less checked ⟨wide, value⟩ (.min t) = .ok (decide (value.1 < t.low)) := by
  rw [Operand.less_of_holds (IntType.common_wide hnarrow hwide).1 value.2, Operand.min_value]
  rwa [Operand.min_value]

theorem Operand.max_less (checked : Bool) (wide : IntType) (hwide : wide.width = .w64) (hhigh : wide.Holds t.high)
    (value : wide.Value) :
    Operand.less checked (.max t) ⟨wide, value⟩ = .ok (decide (t.high < value.1)) := by
  rw [Operand.less_of_holds (IntType.common_wide hnarrow hwide).2 _ value.2, Operand.max_value]
  rwa [Operand.max_value]

/-- The tests on an `std::int64_t` are the range check. -/
theorem outsideInt64_eq (value : IntType.int64.Value) :
    outsideInt64 checked t ⟨.int64, value⟩ = .ok !decide (t.Holds value.1) := by
  have hlow := Operand.less_min hnarrow checked .int64 rfl
    (IntType.holds_int64_of_narrow hnarrow t.holds_low) value
  have hhigh := Operand.max_less hnarrow checked .int64 rfl
    (IntType.holds_int64_of_narrow hnarrow t.holds_high) value
  rw [IntType.outside_eq]
  unfold outsideInt64
  cases hsigned : t.signed with
  | true =>
      rw [if_pos rfl, hlow, hhigh]
      cases decide (value.1 < t.low) <;> rfl
  | false =>
      have hzero : t.low = 0 := by rw [IntType.low, hsigned, if_neg Bool.false_ne_true]
      have hcommon : IntType.int64.common .int = .int64 := rfl
      have hnegative : Operand.less checked ⟨.int64, value⟩ ⟨.int, IntType.int.cast 0⟩ =
          .ok (decide (value.1 < t.low)) := by
        rw [Operand.less_of_holds hcommon value.2 (by decide), hzero]
        rfl
      rw [if_neg Bool.false_ne_true, hnegative]
      by_cases hsmall : value.1 < t.low
      · simp only [hsmall, decide_true, Bool.true_or]
        rfl
      · have hunsigned : IntType.uint64.Holds value.1 := by
          have hvalue := IntType.holds_int64_iff.mp value.2
          rw [IntType.holds_uint64_iff]
          omega
        have hcast : Operand.cast checked .uint64 ⟨.int64, value⟩ =
            .ok ⟨.uint64, ⟨value.1, hunsigned⟩⟩ := by
          rw [Operand.cast, IntType.convert_of_holds hunsigned]
          rfl
        have habove := Operand.max_less hnarrow checked .uint64 rfl
          (IntType.holds_uint64_of_narrow hnarrow t.holds_high t.low_le_high.2) ⟨value.1, hunsigned⟩
        rw [hcast]
        simp only [hsmall, decide_false, Bool.false_or]
        exact habove

/-- The test on an `std::uint64_t` is the range check. -/
theorem outsideUint64_eq (value : IntType.uint64.Value) :
    outsideUint64 checked t ⟨.uint64, value⟩ = .ok !decide (t.Holds value.1) := by
  have hhigh : IntType.uint64.Holds t.high :=
    IntType.holds_uint64_of_narrow hnarrow t.holds_high t.low_le_high.2
  have hcast : (Operand.max t).cast checked .uint64 = .ok ⟨.uint64, ⟨t.high, hhigh⟩⟩ := by
    have hmax : IntType.uint64.Holds (Operand.max t).value.1 := by rwa [Operand.max_value]
    rw [Operand.cast, IntType.convert_of_holds hmax]
    simp only [Operand.max_value]
    rfl
  have hcommon : IntType.uint64.common .uint64 = .uint64 := rfl
  have hless : Operand.less checked ⟨.uint64, ⟨t.high, hhigh⟩⟩ ⟨.uint64, value⟩ =
      .ok (decide (t.high < value.1)) :=
    Operand.less_of_holds hcommon hhigh value.2
  have hlow : decide (value.1 < t.low) = false := by
    have hvalue := IntType.holds_uint64_iff.mp value.2
    have hzero := t.low_le_high.1
    exact decide_eq_false (by omega)
  rw [outsideUint64, hcast, IntType.outside_eq, hlow, Bool.false_or]
  exact hless

/-- The limits of a narrow type are numbers of the type `double`. -/
theorem toDouble_of_holds (operand : Operand) (hoperand : operand.type = t) (checked : Bool) :
    ∃ value, operand.toDouble checked = .ok value ∧ value.toInt? = some operand.value.1 := by
  obtain ⟨type, number⟩ := operand
  obtain rfl : type = t := hoperand
  have hexact : (Format.binary64.ofInt number.1).toInt? = some number.1 := by
    have hbounds := narrow_bounds hnarrow number.2
    refine Binary.toInt?_ofInt ?_ (by decide +kernel)
    have hprecision : Format.binary64.precision = 53 := by decide +kernel
    rw [hprecision]
    omega
  refine ⟨_, ?_, hexact⟩
  simp only [Operand.toDouble, hexact]
  simp

/-- The tests on a `double` are the range check on an integer value. -/
theorem outsideDouble_eq (value : Double) :
    outsideDouble checked t value =
      .ok !(value.toInt?.any fun number => decide (t.Holds number)) := by
  obtain ⟨low, hmin, hlow⟩ := toDouble_of_holds hnarrow (.min t) rfl checked
  obtain ⟨high, hmax, hhigh⟩ := toDouble_of_holds hnarrow (.max t) rfl checked
  rw [Operand.min_value] at hlow
  rw [Operand.max_value] at hhigh
  cases hfinite : value.isFinite with
  | false =>
      have hnone : value.toInt? = none := by
        cases value with
        | finite number => cases hfinite
        | _ => rfl
      simp only [outsideDouble, hfinite, hnone]
      rfl
  | true =>
      simp only [outsideDouble, hfinite, hmin, hmax]
      cases hinteger : value.toInt? with
      | none =>
          have hbroken : value.trunc.equal value = false := by
            rw [← Bool.not_eq_true, Binary.trunc_equal_iff hfinite, hinteger]
            simp
          simp only [hbroken]
          rfl
      | some number =>
          have hwhole : value.trunc.equal value = true :=
            (Binary.trunc_equal_iff hfinite).mpr ⟨number, hinteger⟩
          simp only [hwhole, Option.any_some, IntType.outside_eq]
          rw [← Binary.less_of_toInt? hinteger hlow, ← Binary.less_of_toInt? hhigh hinteger]
          change (if value.less low = true then pure true else pure (high.less value) :
            Except CastFault Bool) = _
          cases value.less low <;> rfl

/-- A number in range is decoded, in both modes. -/
theorem decodeNarrow_of_holds {input : Json} {number : Int} (hnumber : input.number? = some number)
    (h : t.Holds number) (output : t.Value) (context : CodecContext) :
    decodeNarrow checked t input output context = .ok ⟨.converted, ⟨number, h⟩, context⟩ := by
  cases input with
  | int64 value =>
      obtain rfl := Option.some.inj hnumber
      have hvalue : IntType.int64.Holds value.toInt := IntType.holds_int64_of_narrow hnarrow h
      simp only [decodeNarrow, IntType.cast_of_holds hvalue, outsideInt64_eq hnarrow, h,
        IntType.convert_of_holds h]
      rfl
  | uint64 value =>
      obtain rfl := Option.some.inj hnumber
      have hvalue : IntType.uint64.Holds value.toNat :=
        IntType.holds_uint64_of_narrow hnarrow h (Int.natCast_nonneg _)
      simp only [decodeNarrow, IntType.cast_of_holds hvalue, outsideUint64_eq hnarrow, h,
        IntType.convert_of_holds h]
      rfl
  | double value =>
      have hinteger : value.toInt? = some number := hnumber
      simp only [decodeNarrow, outsideDouble_eq hnarrow, hinteger, Option.any_some, h,
        castDouble_of_holds hinteger h]
      rfl
  | _ => cases hnumber

/-- Anything else is refused, in both modes. -/
theorem decodeNarrow_of_not_holds {input : Json}
    (hnone : ∀ number, input.number? = some number → ¬ t.Holds number) (output : t.Value)
    (context : CodecContext) :
    decodeNarrow checked t input output context = .ok (fail .typeMismatch output context) := by
  cases input with
  | int64 value =>
      have hvalue : IntType.int64.Holds value.toInt := by
        rw [IntType.holds_int64_iff]
        exact ⟨value.le_toInt, value.toInt_lt⟩
      have hbad : ¬ t.Holds value.toInt := hnone _ rfl
      simp only [decodeNarrow, IntType.cast_of_holds hvalue, outsideInt64_eq hnarrow, hbad]
      rfl
  | uint64 value =>
      have hvalue : IntType.uint64.Holds value.toNat := by
        have hsize := value.toNat_lt
        rw [IntType.holds_uint64_iff]
        omega
      have hbad : ¬ t.Holds value.toNat := hnone _ rfl
      simp only [decodeNarrow, IntType.cast_of_holds hvalue, outsideUint64_eq hnarrow, hbad]
      rfl
  | double value =>
      have hbad : (value.toInt?.any fun number => decide (t.Holds number)) = false := by
        rw [Option.any_eq_false]
        intro number hnumber
        simpa using hnone number hnumber
      simp only [decodeNarrow, outsideDouble_eq hnarrow, hbad]
      rfl
  | _ => rfl

end Narrow

/-! ## Exactness -/

end Codec

/-- The mathematical value of a JSON number. -/
def Json.rational? : Json → Option ℚ
  | .int64 value => some value.toInt
  | .uint64 value => some value.toNat
  | .double value => value.rational?
  | _ => none

theorem Json.number?_eq_some {json : Json} {number : Int} :
    json.number? = some number ↔ json.rational? = some (number : ℚ) := by
  cases json with
  | int64 value => simp [Json.number?, Json.rational?]
  | uint64 value =>
      rw [Json.number?, Json.rational?, Option.some.injEq, Option.some.injEq]
      norm_cast
  | double value => exact Binary.toInt?_eq_some_iff_rational
  | _ => simp [Json.number?, Json.rational?]

namespace Codec

/-- Decoding accepts exactly the numbers of the type and stores them, in whatever
kind they are held; anything else is refused and leaves the output as it was. -/
structure ExactDecoding (t : IntType) (decode : Json → t.Value → CodecContext → Result t.Value) :
    Prop where
  accepts : ∀ json output context, (decode json output context).status = .converted ↔
    ∃ number : Int, json.rational? = some (number : ℚ) ∧ t.Holds number
  stores : ∀ json output context, (decode json output context).status = .converted →
    json.rational? = some ((decode json output context).output.1 : ℚ)
  kinds : ∀ first second output context, first.rational? = second.rational? →
    decode first output context = decode second output context
  refuses : ∀ json output context, (decode json output context).status ≠ .converted →
    decode json output context = fail .typeMismatch output context

section Exact

variable {t : IntType} (hnarrow : t.width ≠ .w64)

include hnarrow

/-- The decoder of the typed conversions and the one with machine arithmetic agree;
no conversion in it changes a value. -/
theorem decodeNarrow_eq (checked : Bool) (input : Json) (output : t.Value) (context : CodecContext) :
    decodeNarrow checked t input output context = .ok (decode (.int t) input output context) := by
  rw [decode, decodeInt, if_neg hnarrow]
  cases hnumber : narrowNumber t input with
  | some number =>
      obtain ⟨hvalue, hholds⟩ := narrowNumber_eq_some.mp hnumber
      simp only [decodeNarrow_of_holds hnarrow hvalue hholds, IntType.cast_of_holds hholds]
  | none =>
      refine decodeNarrow_of_not_holds hnarrow (fun number hvalue hholds => ?_) output context
      rw [narrowNumber_eq_some.mpr ⟨hvalue, hholds⟩] at hnumber
      cases hnumber

theorem decode_of_holds {input : Json} {number : Int} (hnumber : input.number? = some number)
    (h : t.Holds number) (output : t.Value) (context : CodecContext) :
    decode (.int t) input output context = ⟨.converted, ⟨number, h⟩, context⟩ :=
  Except.ok.inj ((decodeNarrow_eq hnarrow true input output context).symm.trans
    (decodeNarrow_of_holds hnarrow hnumber h output context))

theorem decode_of_not_holds {input : Json}
    (hnone : ∀ number, input.number? = some number → ¬ t.Holds number) (output : t.Value)
    (context : CodecContext) :
    decode (.int t) input output context = fail .typeMismatch output context :=
  Except.ok.inj ((decodeNarrow_eq hnarrow true input output context).symm.trans
    (decodeNarrow_of_not_holds hnarrow hnone output context))

/-- Either a number of the type is decoded, or the value is refused. -/
theorem decode_cases (input : Json) (output : t.Value) (context : CodecContext) :
    (∃ (number : Int) (h : t.Holds number), input.number? = some number ∧
      decode (.int t) input output context = ⟨.converted, ⟨number, h⟩, context⟩) ∨
    ((∀ number, input.number? = some number → ¬ t.Holds number) ∧
      decode (.int t) input output context = fail .typeMismatch output context) := by
  by_cases hexists : ∃ number, input.number? = some number ∧ t.Holds number
  · obtain ⟨number, hnumber, h⟩ := hexists
    exact .inl ⟨number, h, hnumber, decode_of_holds hnarrow hnumber h output context⟩
  · have hnone : ∀ number, input.number? = some number → ¬ t.Holds number :=
      fun number hnumber h => hexists ⟨number, hnumber, h⟩
    exact .inr ⟨hnone, decode_of_not_holds hnarrow hnone output context⟩

theorem exactDecoding_of_narrow : ExactDecoding t (decode (.int t)) := by
  refine ⟨?_, ?_, ?_, ?_⟩
  · intro input output context
    rcases decode_cases hnarrow input output context with
      ⟨number, h, hnumber, hdecode⟩ | ⟨hnone, hdecode⟩
    · rw [hdecode]
      exact iff_of_true rfl ⟨number, Json.number?_eq_some.mp hnumber, h⟩
    · rw [hdecode]
      refine iff_of_false nofun ?_
      rintro ⟨number, hnumber, h⟩
      exact hnone number (Json.number?_eq_some.mpr hnumber) h
  · intro input output context hstatus
    rcases decode_cases hnarrow input output context with
      ⟨number, h, hnumber, hdecode⟩ | ⟨hnone, hdecode⟩
    · rw [hdecode]
      exact Json.number?_eq_some.mp hnumber
    · rw [hdecode] at hstatus
      cases hstatus
  · intro first second output context hsame
    have hnumber : ∀ number, first.number? = some number ↔ second.number? = some number := by
      intro number
      rw [Json.number?_eq_some, Json.number?_eq_some, hsame]
    rcases decode_cases hnarrow first output context with
      ⟨number, h, hfirst, hdecode⟩ | ⟨hnone, hdecode⟩
    · rw [hdecode, decode_of_holds hnarrow ((hnumber number).mp hfirst) h]
    · rw [hdecode, decode_of_not_holds hnarrow]
      exact fun number hsecond => hnone number ((hnumber number).mpr hsecond)
  · intro input output context hstatus
    rcases decode_cases hnarrow input output context with
      ⟨number, h, hnumber, hdecode⟩ | ⟨hnone, hdecode⟩
    · rw [hdecode] at hstatus
      exact absurd rfl hstatus
    · exact hdecode

end Exact

/-- Integers of 8, 16 and 32 bits are decoded exactly, and no comparison or cast
changes a value on the way. -/
theorem narrow_integers_exact (t : IntType) (hnarrow : t.width ≠ .w64) :
    ExactDecoding t (decode (.int t)) ∧
      ∀ checked input output context,
        decodeNarrow checked t input output context = .ok (decode (.int t) input output context) :=
  ⟨exactDecoding_of_narrow hnarrow, decodeNarrow_eq hnarrow⟩

/-- `UInt8` takes 255 also as the number 255.0, and no 256. -/
theorem narrow_integers_exact_byte :
    (∃ value, decode (.int ⟨false, .w8⟩) (.double (Format.binary64.ofInt 255)) (IntType.cast _ 0)
        (.fresh {}) = ⟨.converted, value, .fresh {}⟩ ∧ value.1 = 255) ∧
      (decode (.int ⟨false, .w8⟩) (.int64 256) (IntType.cast _ 0) (.fresh {})).status ≠
        .converted := by
  obtain ⟨hexact, -⟩ := narrow_integers_exact ⟨false, .w8⟩ (by decide)
  have hnumber : (Json.double (Format.binary64.ofInt 255)).number? = some 255 :=
    Binary.toInt?_ofInt (by decide +kernel) (by decide +kernel)
  refine ⟨⟨_, decode_of_holds (by decide) hnumber (by decide) _ _, rfl⟩, ?_⟩
  rw [ne_eq, hexact.accepts]
  rintro ⟨number, hnumber, -, hhigh⟩
  have hvalue : ((256 : Int) : ℚ) = number := Option.some.inj hnumber
  rw [← Int.cast_inj.mp hvalue] at hhigh
  exact absurd hhigh (by decide)

end Codec

end RttHttp
