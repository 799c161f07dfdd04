import RttHttp.Text.Bytes
import Mathlib.Data.Nat.Digits.Defs
import Mathlib.Data.List.TakeWhile

/-! # Decimal integers

`std::to_chars` and `std::from_chars` for integers in base ten.
-/

namespace RttHttp

def minus : UInt8 := 0x2d

def digitByte (digit : Nat) : UInt8 := UInt8.ofNat (0x30 + digit)

def isDigit (c : UInt8) : Bool := 0x30 ≤ c && c ≤ 0x39

/-- The digits of a magnitude, most significant first. -/
def decimal (magnitude : Nat) : Bytes :=
  if magnitude = 0 then [digitByte 0] else (Nat.digits 10 magnitude).reverse.map digitByte

def toChars (value : Int) : Bytes :=
  if value < 0 then minus :: decimal value.natAbs else decimal value.natAbs

/-- The value of a run of digits. -/
def digitsValue (run : Bytes) : Nat := run.foldl (fun value c => value * 10 + (c.toNat - 0x30)) 0

/-- `std::from_chars` into an integer type with the given range. The result is
the value and the text after it; `none` is a set `ec`. -/
def fromChars (low high : Int) (text : Bytes) : Option (Int × Bytes) :=
  let negative := decide (low < 0) && text.head? == some minus
  let rest := if negative then text.tail else text
  let run := rest.takeWhile isDigit
  let value : Int := if negative then -(digitsValue run : Int) else digitsValue run
  if run.isEmpty then none
  else if value < low ∨ high < value then none
  else some (value, rest.dropWhile isDigit)

theorem decimal_isDigit (magnitude : Nat) : ∀ c ∈ decimal magnitude, isDigit c = true := by
  have hbyte : ∀ digit < 10, isDigit (digitByte digit) = true := by decide
  intro c hc
  unfold decimal at hc
  split at hc
  · rw [List.mem_singleton.mp hc]
    exact hbyte 0 (by decide)
  · obtain ⟨digit, hdigit, rfl⟩ := List.mem_map.mp hc
    exact hbyte digit (Nat.digits_lt_base (by decide) (List.mem_reverse.mp hdigit))

theorem mem_toChars {value : Int} {c : UInt8} (hc : c ∈ toChars value) :
    c = minus ∨ isDigit c = true := by
  unfold toChars at hc
  split at hc
  · rcases List.mem_cons.mp hc with rfl | hc
    · exact .inl rfl
    · exact .inr (decimal_isDigit _ c hc)
  · exact .inr (decimal_isDigit _ c hc)

theorem decimal_ne_nil (magnitude : Nat) : decimal magnitude ≠ [] := by
  unfold decimal
  split
  · simp
  · next h => simpa [Nat.digits_eq_nil_iff_eq_zero] using h

theorem digitsValue_map_digitByte (digits : List Nat) (hdigits : ∀ digit ∈ digits, digit < 10)
    (value : Nat) :
    (digits.map digitByte).foldl (fun value c => value * 10 + (c.toNat - 0x30)) value =
      digits.foldl (fun value digit => value * 10 + digit) value := by
  have hbyte : ∀ digit < 10, (digitByte digit).toNat - 0x30 = digit := by decide
  induction digits generalizing value with
  | nil => rfl
  | cons digit rest ih =>
      rw [List.map_cons, List.foldl_cons, List.foldl_cons,
        hbyte digit (hdigits digit List.mem_cons_self)]
      exact ih (fun other hother => hdigits other (List.mem_cons_of_mem _ hother)) _

theorem digitsValue_decimal (magnitude : Nat) : digitsValue (decimal magnitude) = magnitude := by
  unfold decimal
  split
  · next h =>
    subst h
    decide
  · have hlt : ∀ digit ∈ (Nat.digits 10 magnitude).reverse, digit < 10 := fun digit hdigit =>
      Nat.digits_lt_base (by decide) (List.mem_reverse.mp hdigit)
    rw [digitsValue, digitsValue_map_digitByte _ hlt, List.foldl_reverse]
    calc (Nat.digits 10 magnitude).foldr (fun digit value => value * 10 + digit) 0
        = Nat.ofDigits 10 (Nat.digits 10 magnitude) := by
          rw [Nat.ofDigits_eq_foldr]
          congr 1
          funext digit value
          simp
          omega
      _ = magnitude := Nat.ofDigits_digits 10 magnitude

/-- A printed integer is read back whole, with nothing left over. -/
theorem fromChars_toChars {low high value : Int} (hlow : low ≤ value) (hhigh : value ≤ high) :
    fromChars low high (toChars value) = some (value, []) := by
  have htake : ∀ magnitude, (decimal magnitude).takeWhile isDigit = decimal magnitude :=
    fun magnitude => List.takeWhile_eq_self_iff.mpr (decimal_isDigit magnitude)
  have hdrop : ∀ magnitude, (decimal magnitude).dropWhile isDigit = [] :=
    fun magnitude => List.dropWhile_eq_nil_iff.mpr (decimal_isDigit magnitude)
  by_cases hnegative : value < 0
  · obtain ⟨magnitude, rfl⟩ : ∃ magnitude : Nat, value = -(magnitude : Int) :=
      ⟨value.natAbs, by omega⟩
    have hsigned : low < 0 := by omega
    simp only [fromChars, toChars, hnegative, if_true, Int.natAbs_neg, Int.natAbs_natCast,
      List.head?_cons, List.tail_cons, hsigned, decide_true, BEq.rfl, Bool.and_self, htake, hdrop,
      digitsValue_decimal, List.isEmpty_iff, decimal_ne_nil, if_false]
    rw [if_neg (by omega)]
  · obtain ⟨magnitude, rfl⟩ : ∃ magnitude : Nat, value = magnitude := ⟨value.natAbs, by omega⟩
    have hhead : ((decimal magnitude).head? == some minus) = false := by
      rw [beq_eq_false_iff_ne]
      intro h
      exact absurd (decimal_isDigit magnitude minus (List.mem_of_mem_head? h)) (by decide)
    simp only [fromChars, toChars, hnegative, if_false, Int.natAbs_natCast, hhead, Bool.and_false,
      Bool.false_eq_true, htake, hdrop, digitsValue_decimal, List.isEmpty_iff, decimal_ne_nil]
    rw [if_neg (by omega)]

end RttHttp
