import Mathlib.Algebra.BigOperators.Group.List.Basic
import Mathlib.Algebra.Order.Ring.Int
import Mathlib.Data.List.Forall2
import Mathlib.Data.List.Infix

/-! # Byte strings

Names, request targets and JSON strings are arbitrary byte sequences; nothing
guarantees that they are text before it has been checked. Loops that walk a
string by index read it through `byteAt`, so that a read past the end would be
visible as a fault.
-/

namespace RttHttp

abbrev Bytes := List UInt8

instance decidableMem (name : Bytes) (names : List Bytes) : Decidable (name ∈ names) :=
  inferInstance

/-- The bytes of a literal. -/
def bytes (text : String) : Bytes := text.toUTF8.data.toList

theorem bytes_inj {first second : String} : bytes first = bytes second ↔ first = second := by
  constructor
  · intro h
    have hdata : first.toUTF8.data = second.toUTF8.data := Array.toList_inj.mp h
    exact String.toByteArray_inj.mp (ByteArray.ext hdata)
  · rintro rfl
    rfl

/-- A decidable property of bytes holds of every byte if it holds of all 256. -/
theorem forall_byte {p : UInt8 → Prop} [DecidablePred p]
    (h : (List.range 256).all (fun n => decide (p (UInt8.ofNat n))) = true) (c : UInt8) : p c := by
  have hc := List.all_eq_true.mp h c.toNat (List.mem_range.mpr c.toNat_lt)
  rw [UInt8.ofNat_toNat] at hc
  exact of_decide_eq_true hc

/-- What a loop over a string must never run into. -/
inductive Fault where
  | outOfRange
  | outOfFuel
  deriving DecidableEq, Repr

def byteAt (text : Bytes) (index : Nat) : Except Fault UInt8 :=
  match text[index]? with
  | some byte => .ok byte
  | none => .error .outOfRange

/-- `find(byte, start)`: the first position from `start` on, or `npos`. -/
def findFrom (text : Bytes) (byte : UInt8) (start : Nat) : Option Nat :=
  ((text.drop start).idxOf? byte).map (start + ·)

/-! ## Loops that may fail on an element -/

theorem mapM_eq_some_iff {α β : Type} {f : α → Option β} {inputs : List α} {outputs : List β} :
    inputs.mapM f = some outputs ↔ List.Forall₂ (fun x y => f x = some y) inputs outputs := by
  induction inputs generalizing outputs with
  | nil =>
      cases outputs with
      | nil => simp
      | cons output rest => simp
  | cons input rest ih =>
      rw [List.mapM_cons]
      simp only [Option.pure_def, Option.bind_eq_bind, Option.bind_eq_some_iff, Option.some.injEq]
      constructor
      · rintro ⟨first, hfirst, others, hothers, rfl⟩
        exact .cons hfirst (ih.mp hothers)
      · intro h
        cases h with
        | cons hfirst hothers => exact ⟨_, hfirst, _, ih.mpr hothers, rfl⟩

theorem mapM_total {α β : Type} {f : α → Option β} {inputs : List α}
    (h : ∀ input ∈ inputs, ∃ output, f input = some output) :
    ∃ outputs, inputs.mapM f = some outputs := by
  induction inputs with
  | nil => exact ⟨[], rfl⟩
  | cons input rest ih =>
      obtain ⟨first, hfirst⟩ := h input List.mem_cons_self
      obtain ⟨others, hothers⟩ := ih fun other hother => h other (List.mem_cons_of_mem _ hother)
      exact ⟨first :: others, by rw [List.mapM_cons, hfirst, hothers]; rfl⟩

theorem exists_of_forall₂ {α β : Type} {r : α → β → Prop} {inputs : List α} {outputs : List β}
    (h : List.Forall₂ r inputs outputs) {input : α} (hinput : input ∈ inputs) :
    ∃ output ∈ outputs, r input output := by
  induction h with
  | nil => cases hinput
  | cons hfirst _ ih =>
      rcases List.mem_cons.mp hinput with rfl | hrest
      · exact ⟨_, List.mem_cons_self, hfirst⟩
      · obtain ⟨output, houtput, hrelated⟩ := ih hrest
        exact ⟨output, List.mem_cons_of_mem _ houtput, hrelated⟩

end RttHttp
