import Mathlib.Algebra.Order.Field.Rat
import Mathlib.Data.Rat.Cast.Order
import Mathlib.Tactic.Positivity

/-! # Binary floating point

The numbers of a binary format, and rounding to the nearest of them, between two to the
even one. A finite number is a sign and a multiple of the smallest positive one, so
each number has one representation, and zero has two signs.
-/

namespace RttHttp

/-- A format: the bits of a significand, the places after the binary point, and by how
many places a significand can be shifted up from the last of them. -/
structure Format where
  precision : Nat
  places : Nat
  range : Nat
  positive : 0 < precision

namespace Format

@[irreducible] def binary32 : Format := ⟨24, 149, 253, by decide⟩

@[irreducible] def binary64 : Format := ⟨53, 1074, 2045, by decide⟩

variable (f : Format)

/-- The largest number, in units of the last place. -/
def largest : Nat := (2 ^ f.precision - 1) * 2 ^ f.range

/-- Without the zeros at its end, a magnitude fits into a significand. -/
def Exact (units : Nat) : Prop :=
  ∃ significand shift, significand < 2 ^ f.precision ∧ units = significand * 2 ^ shift

end Format

/-- A finite number, in units of the last place. -/
structure Finite (f : Format) where
  negative : Bool
  units : Nat
  exact : f.Exact units
  bounded : units ≤ f.largest
  deriving DecidableEq, Repr

inductive Binary (f : Format) where
  | finite (number : Finite f)
  | infinite (negative : Bool)
  | nan
  deriving DecidableEq, Repr

/-! ## Rounding -/

/-- `magnitude / 2 ^ shift`, rounded to the nearest integer, between two to the even one. -/
def roundShift (magnitude shift : Nat) : Nat :=
  let quotient := magnitude / 2 ^ shift
  let twice := 2 * (magnitude % 2 ^ shift)
  if twice < 2 ^ shift then quotient
  else if 2 ^ shift < twice then quotient + 1
  else quotient + quotient % 2

theorem roundShift_mul (quotient shift : Nat) : roundShift (quotient * 2 ^ shift) shift = quotient := by
  have hpower : 0 < 2 ^ shift := Nat.two_pow_pos shift
  rw [roundShift, Nat.mul_mod_left, Nat.mul_div_cancel _ hpower, if_pos hpower]

theorem roundShift_le {magnitude shift bound : Nat} (h : magnitude ≤ bound * 2 ^ shift) :
    roundShift magnitude shift ≤ bound := by
  have hpower : 0 < 2 ^ shift := Nat.two_pow_pos shift
  have hquotient : magnitude / 2 ^ shift ≤ bound := Nat.div_le_of_le_mul (Nat.mul_comm _ _ ▸ h)
  rcases hquotient.lt_or_eq with hless | hequal
  · unfold roundShift
    dsimp only
    split
    · omega
    · split <;> omega
  · have hmagnitude : magnitude = bound * 2 ^ shift :=
      le_antisymm h (hequal ▸ Nat.div_mul_le_self magnitude _)
    rw [hmagnitude, roundShift_mul]

/-- The bits of a magnitude. -/
def bitLength (magnitude : Nat) : Nat := if magnitude = 0 then 0 else magnitude.log2 + 1

theorem bitLength_le_iff {magnitude bits : Nat} : bitLength magnitude ≤ bits ↔ magnitude < 2 ^ bits := by
  unfold bitLength
  split
  next hzero => simp [hzero]
  next hzero => rw [Nat.succ_le_iff, Nat.log2_lt hzero]

namespace Format

variable (f : Format)

/-- The places that a magnitude loses, when that many are past the last one. -/
def lost (magnitude surplus : Nat) : Nat := max (bitLength magnitude - f.precision) surplus

/-- The number nearest to `magnitude / 2 ^ places`, in units of the last place. -/
def nearest (magnitude places : Nat) : Nat :=
  let raised := magnitude * 2 ^ (f.places - places)
  let surplus := places - f.places
  roundShift raised (f.lost raised surplus) * 2 ^ (f.lost raised surplus - surplus)

variable {f}

theorem Exact.of_le {significand : Nat} (shift : Nat) (h : significand ≤ 2 ^ f.precision) :
    f.Exact (significand * 2 ^ shift) := by
  rcases h.lt_or_eq with hless | rfl
  · exact ⟨significand, shift, hless, rfl⟩
  · refine ⟨1, f.precision + shift, Nat.one_lt_two_pow f.positive.ne', ?_⟩
    rw [pow_add, one_mul]

theorem lt_of_lost (magnitude surplus : Nat) :
    magnitude < 2 ^ f.precision * 2 ^ f.lost magnitude surplus := by
  rw [← pow_add]
  refine bitLength_le_iff.mp ?_
  unfold lost
  omega

theorem exact_nearest (magnitude places : Nat) : f.Exact (f.nearest magnitude places) :=
  .of_le _ (roundShift_le (lt_of_lost _ _).le)

/-- The zeros at the end of a number are all that it loses. -/
theorem lost_le {significand tail surplus : Nat} (h : significand < 2 ^ f.precision)
    (htail : surplus ≤ tail) : f.lost (significand * 2 ^ tail) surplus ≤ tail := by
  have hbits : bitLength (significand * 2 ^ tail) ≤ f.precision + tail := by
    rw [bitLength_le_iff, pow_add]
    exact Nat.mul_lt_mul_of_pos_right h (Nat.two_pow_pos tail)
  unfold lost
  omega

/-- What a format can express is not rounded. -/
theorem nearest_eq {magnitude places units : Nat} (hexact : f.Exact units)
    (h : magnitude * 2 ^ f.places = units * 2 ^ places) : f.nearest magnitude places = units := by
  obtain ⟨significand, tail, hsignificand, rfl⟩ := hexact
  have hraised : magnitude * 2 ^ (f.places - places) =
      significand * 2 ^ (tail + (places - f.places)) := by
    -- The places that both sides have are cancelled, whichever of the two is smaller.
    have hsplit : ∀ a b : Nat, 2 ^ a = 2 ^ (a - b) * 2 ^ min a b := fun a b => by
      rw [← pow_add, Nat.sub_add_min_cancel]
    rw [hsplit f.places places, hsplit places f.places, min_comm places, ← mul_assoc, ← mul_assoc] at h
    rw [pow_add, ← mul_assoc]
    exact Nat.eq_of_mul_eq_mul_right (Nat.two_pow_pos _) h
  unfold nearest
  rw [hraised]
  dsimp only
  generalize places - f.places = surplus
  have hlost : f.lost (significand * 2 ^ (tail + surplus)) surplus ≤ tail + surplus :=
    lost_le hsignificand (Nat.le_add_left _ _)
  have hleast : surplus ≤ f.lost (significand * 2 ^ (tail + surplus)) surplus := le_max_right _ _
  generalize f.lost (significand * 2 ^ (tail + surplus)) surplus = lost at hlost hleast ⊢
  -- Only zeros are lost, and `rest` of them stay in the significand.
  obtain ⟨rest, hrest⟩ := Nat.exists_eq_add_of_le hlost
  have htail : rest + (lost - surplus) = tail := by omega
  rw [hrest, Nat.add_comm lost, pow_add, ← mul_assoc, roundShift_mul, mul_assoc, ← pow_add, htail]

/-- Rounding does not go past a power of two. -/
theorem nearest_le {magnitude places bits : Nat} (hplaces : places ≤ f.places)
    (h : magnitude * 2 ^ (f.places - places) ≤ 2 ^ bits) : f.nearest magnitude places ≤ 2 ^ bits := by
  unfold nearest
  rw [Nat.sub_eq_zero_of_le hplaces]
  generalize magnitude * 2 ^ (f.places - places) = raised at h ⊢
  have hlength : bitLength raised ≤ bits + 1 :=
    bitLength_le_iff.mpr (h.trans_lt (Nat.pow_lt_pow_right (by decide) (Nat.lt_succ_self bits)))
  have hlost : f.lost raised 0 ≤ bits := by
    have hpositive := f.positive
    unfold lost
    omega
  -- The bound is a multiple of the last place that is left, so rounding stays below it.
  have hsplit : 2 ^ bits = 2 ^ (bits - f.lost raised 0) * 2 ^ f.lost raised 0 := by
    rw [← pow_add, Nat.sub_add_cancel hlost]
  dsimp only
  rw [Nat.sub_zero, hsplit]
  rw [hsplit] at h
  exact Nat.mul_le_mul_right _ (roundShift_le h)

variable (f)

/-- The number nearest to `magnitude / 2 ^ places`; past the largest one it is infinite. -/
def round (negative : Bool) (magnitude places : Nat) : Binary f :=
  if h : f.nearest magnitude places ≤ f.largest then
    .finite ⟨negative, f.nearest magnitude places, exact_nearest magnitude places, h⟩
  else .infinite negative

/-- The number nearest to an integer. -/
def ofInt (value : Int) : Binary f := f.round (decide (value < 0)) value.natAbs 0

variable {f}

theorem round_eq {negative : Bool} {magnitude places : Nat} {number : Finite f}
    (hsign : number.negative = negative)
    (h : magnitude * 2 ^ f.places = number.units * 2 ^ places) :
    f.round negative magnitude places = .finite number := by
  obtain ⟨sign, units, hexact, hbounded⟩ := number
  subst hsign
  have hnearest := nearest_eq hexact h
  unfold round
  simp only [hnearest, dif_pos hbounded]

/-- Integers up to a power of two are rounded to numbers up to it. -/
theorem ofInt_of_le {value : Int} {bits : Nat} (h : value.natAbs ≤ 2 ^ bits)
    (hlargest : 2 ^ (bits + f.places) ≤ f.largest) :
    ∃ number, f.ofInt value = .finite number ∧ number.units ≤ 2 ^ (bits + f.places) := by
  have hnearest : f.nearest value.natAbs 0 ≤ 2 ^ (bits + f.places) := by
    refine nearest_le (Nat.zero_le _) ?_
    rw [Nat.sub_zero, pow_add]
    exact Nat.mul_le_mul_right _ h
  exact ⟨_, dif_pos (hnearest.trans hlargest), hnearest⟩

end Format

/-! ## Values -/

namespace Finite

variable {f : Format}

/-- The number in units of the last place. -/
def signed (number : Finite f) : Int := if number.negative then -number.units else number.units

/-- Zero, of either sign. -/
def zero (f : Format) (negative : Bool) : Finite f :=
  ⟨negative, 0, ⟨0, 0, Nat.two_pow_pos _, rfl⟩, Nat.zero_le _⟩

/-- The largest number of a format. -/
def largest (f : Format) : Finite f where
  negative := false
  units := f.largest
  exact := ⟨_, f.range, Nat.sub_one_lt (Nat.two_pow_pos _).ne', rfl⟩
  bounded := le_refl _

/-- The number without its sign. -/
def abs (number : Finite f) : Finite f := { number with negative := false }

/-- The integer that is left when the places after the point are dropped. -/
def trunc (number : Finite f) : Finite f where
  negative := number.negative
  units := number.units / 2 ^ f.places * 2 ^ f.places
  exact := by
    obtain ⟨significand, tail, hsignificand, hunits⟩ := number.exact
    rw [hunits]
    -- Nothing stands after the point, or the significand is cut off at it.
    rcases Nat.le_total f.places tail with hmore | hless
    · obtain ⟨rest, rfl⟩ := Nat.exists_eq_add_of_le hmore
      refine ⟨significand, f.places + rest, hsignificand, Nat.div_mul_cancel ?_⟩
      exact (pow_dvd_pow 2 hmore).mul_left significand
    · obtain ⟨rest, hrest⟩ := Nat.exists_eq_add_of_le hless
      refine ⟨significand / 2 ^ rest, f.places, (Nat.div_le_self _ _).trans_lt hsignificand, ?_⟩
      rw [hrest, pow_add, Nat.mul_comm (2 ^ tail),
        Nat.mul_div_mul_right _ _ (Nat.two_pow_pos tail)]
  bounded := (Nat.div_mul_le_self _ _).trans number.bounded

theorem signed_of_positive {number : Finite f} (h : number.negative = false) :
    number.signed = number.units := by
  rw [signed, h, if_neg Bool.false_ne_true]

theorem signed_inj {first second : Finite f} (hsign : first.negative = second.negative)
    (h : first.signed = second.signed) : first = second := by
  obtain ⟨negative, units, hexact, hbounded⟩ := first
  obtain ⟨other, others, _, _⟩ := second
  obtain rfl : negative = other := hsign
  have hunits : units = others := by
    cases negative <;> simpa [signed] using h
  subst hunits
  rfl

theorem signed_trunc (number : Finite f) :
    number.trunc.signed = number.signed.tdiv (2 ^ f.places) * 2 ^ f.places := by
  unfold signed trunc
  dsimp only
  cases number.negative with
  | false =>
      simp only [Bool.false_eq_true, if_false]
      push_cast
      rw [Int.tdiv_eq_ediv_of_nonneg (Int.natCast_nonneg _)]
  | true =>
      simp only [if_true, Int.neg_tdiv]
      push_cast
      rw [Int.tdiv_eq_ediv_of_nonneg (Int.natCast_nonneg _), Int.neg_mul]

end Finite

namespace Binary

variable {f g : Format}

def isFinite : Binary f → Bool
  | .finite _ => true
  | .infinite _ | .nan => false

/-- A conversion between formats. -/
def cast (g : Format) : Binary f → Binary g
  | .finite number => g.round number.negative number.units f.places
  | .infinite negative => .infinite negative
  | .nan => .nan

def trunc : Binary f → Binary f
  | .finite number => .finite number.trunc
  | value => value

/-- `first < second`. -/
def less : Binary f → Binary f → Bool
  | .finite first, .finite second => decide (first.signed < second.signed)
  | .infinite true, .finite _ | .infinite true, .infinite false => true
  | .finite _, .infinite false => true
  | _, _ => false

/-- `first == second`. -/
def equal : Binary f → Binary f → Bool
  | .finite first, .finite second => decide (first.signed = second.signed)
  | .infinite first, .infinite second => first == second
  | _, _ => false

/-- The mathematical value of a finite number. -/
def rational? : Binary f → Option ℚ
  | .finite number => some (number.signed / 2 ^ f.places)
  | .infinite _ | .nan => none

/-- The value of a finite number without places after the point. -/
def toInt? : Binary f → Option Int
  | .finite number =>
      if number.signed % 2 ^ f.places = 0 then some (number.signed / 2 ^ f.places) else none
  | .infinite _ | .nan => none

theorem toInt?_eq_some {value : Binary f} {n : Int} :
    value.toInt? = some n ↔ ∃ number, value = .finite number ∧ number.signed = n * 2 ^ f.places := by
  cases value with
  | finite number =>
      have hpower : (0 : Int) < 2 ^ f.places := by positivity
      rw [toInt?, Option.ite_none_right_eq_some, Option.some.injEq]
      constructor
      · rintro ⟨hmod, rfl⟩
        exact ⟨number, rfl, (Int.ediv_mul_cancel (Int.dvd_of_emod_eq_zero hmod)).symm⟩
      · rintro ⟨other, hsame, hvalue⟩
        cases hsame
        rw [hvalue]
        exact ⟨Int.mul_emod_left _ _, Int.mul_ediv_cancel _ hpower.ne'⟩
  | _ => simp [toInt?]

/-- The finite numbers with an integer value. -/
theorem toInt?_eq_some_iff_rational {value : Binary f} {n : Int} :
    value.toInt? = some n ↔ value.rational? = some (n : ℚ) := by
  have hpower : (2 : ℚ) ^ f.places ≠ 0 := by positivity
  cases value with
  | finite number =>
      rw [toInt?_eq_some, rational?, Option.some.injEq, div_eq_iff hpower]
      simp only [finite.injEq, exists_eq_left']
      norm_cast
  | _ => simp [toInt?, rational?]

/-- Integers that fit into a significand are numbers of the format. -/
theorem toInt?_ofInt {value : Int} (h : value.natAbs < 2 ^ f.precision)
    (hplaces : f.places ≤ f.range) : (f.ofInt value).toInt? = some value := by
  have hbounded : value.natAbs * 2 ^ f.places ≤ f.largest :=
    Nat.mul_le_mul (Nat.le_sub_one_of_lt h) (Nat.pow_le_pow_right (by decide) hplaces)
  have hround : f.ofInt value = .finite ⟨decide (value < 0), value.natAbs * 2 ^ f.places,
      ⟨_, _, h, rfl⟩, hbounded⟩ := Format.round_eq rfl (by simp)
  rw [toInt?_eq_some]
  refine ⟨_, hround, ?_⟩
  unfold Finite.signed
  dsimp only
  push_cast
  rcases lt_or_ge value 0 with hnegative | hnonneg
  · rw [decide_eq_true hnegative, if_pos rfl, abs_of_neg hnegative, ← Int.neg_mul, Int.neg_neg]
  · rw [decide_eq_false (Int.not_lt.mpr hnonneg), if_neg Bool.false_ne_true,
      abs_of_nonneg hnonneg]

theorem less_of_toInt? {first second : Binary f} {m n : Int} (hfirst : first.toInt? = some m)
    (hsecond : second.toInt? = some n) : first.less second = decide (m < n) := by
  obtain ⟨number, rfl, hnumber⟩ := toInt?_eq_some.mp hfirst
  obtain ⟨other, rfl, hother⟩ := toInt?_eq_some.mp hsecond
  have hpower : (0 : Int) < 2 ^ f.places := by positivity
  rw [less, hnumber, hother]
  exact decide_eq_decide.mpr (mul_lt_mul_iff_left₀ hpower)

theorem trunc_of_toInt? {value : Binary f} {n : Int} (h : value.toInt? = some n) :
    value.trunc = value := by
  obtain ⟨number, rfl, hnumber⟩ := toInt?_eq_some.mp h
  have hpower : (2 : Int) ^ f.places ≠ 0 := by positivity
  refine congrArg finite (Finite.signed_inj rfl ?_)
  rw [Finite.signed_trunc, hnumber, Int.mul_tdiv_cancel _ hpower]

/-- `std::trunc(value) == value` for the finite numbers. -/
theorem trunc_equal_iff {value : Binary f} (hfinite : value.isFinite = true) :
    value.trunc.equal value = true ↔ ∃ n, value.toInt? = some n := by
  cases value with
  | finite number =>
      rw [trunc, equal, decide_eq_true_iff, Finite.signed_trunc]
      constructor
      · exact fun h => ⟨_, toInt?_eq_some.mpr ⟨number, rfl, h.symm⟩⟩
      · rintro ⟨n, hn⟩
        obtain ⟨other, hsame, hnumber⟩ := toInt?_eq_some.mp hn
        cases hsame
        rw [hnumber, Int.mul_tdiv_cancel _ (by positivity)]
  | _ => cases hfinite

/-- Finite numbers are equal when they are the same, but for the sign of zero. -/
theorem equal_and_negative_iff {first second : Finite f} :
    (finite first).equal (.finite second) = true ∧ first.negative = second.negative ↔
      first = second := by
  rw [equal, decide_eq_true_iff]
  constructor
  · exact fun h => Finite.signed_inj h.2 h.1
  · rintro rfl
    exact ⟨rfl, rfl⟩

/-! ### Conversions -/

/-- A number that the other format can express is not changed. -/
theorem cast_finite {number : Finite f} {other : Finite g} (hsign : other.negative = number.negative)
    (h : number.units * 2 ^ g.places = other.units * 2 ^ f.places) :
    (finite number).cast g = .finite other := Format.round_eq hsign h

end Binary

/-- Every number of the first format is one of the second. -/
structure Format.Includes (f g : Format) : Prop where
  precision : f.precision ≤ g.precision
  places : f.places ≤ g.places
  largest : f.largest * 2 ^ (g.places - f.places) ≤ g.largest

theorem Format.Includes.refl (f : Format) : f.Includes f := ⟨le_refl _, le_refl _, by simp⟩

/-- A number of a format in one that includes it. -/
def Finite.widen {f g : Format} (h : f.Includes g) (number : Finite f) : Finite g where
  negative := number.negative
  units := number.units * 2 ^ (g.places - f.places)
  exact := by
    obtain ⟨significand, tail, hsignificand, hunits⟩ := number.exact
    refine ⟨significand, tail + (g.places - f.places), hsignificand.trans_le ?_, ?_⟩
    · exact Nat.pow_le_pow_right (by decide) h.precision
    · rw [hunits, mul_assoc, ← pow_add]
  bounded := (Nat.mul_le_mul_right _ number.bounded).trans h.largest

namespace Binary

variable {f g : Format} (h : f.Includes g)

include h

theorem widen_units (number : Finite f) :
    number.units * 2 ^ g.places = (number.widen h).units * 2 ^ f.places := by
  rw [Finite.widen, mul_assoc, ← pow_add, Nat.sub_add_cancel h.places]

theorem cast_finite_of_includes (number : Finite f) :
    (finite number).cast g = .finite (number.widen h) :=
  cast_finite rfl (widen_units h number)

/-- A conversion to a format and back from it. -/
theorem cast_cast (value : Binary f) : (value.cast g).cast f = value := by
  cases value with
  | finite number =>
      rw [cast_finite_of_includes h]
      exact cast_finite rfl (widen_units h number).symm
  | _ => rfl

end Binary

end RttHttp
