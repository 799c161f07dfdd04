import RttHttp.Executor.Slots
import RttHttp.Machine.Cells

/-! # The two ways to call an operation

A direct call stores the return value in storage of its own and leaves the mutable
arguments in the storage they were passed in. A call that is sent has storage for
everything it collects, and the collector writes that in collect order. Either way
the collected values of the invocation are what the operation gave, the return
value first.
-/

namespace RttHttp.Executor

open Codec (TypeCodec Value)
open Machine (writeAll writeAll_getElem? writeAll_of_notMem)
open Model (ObjectModel Operation OperationPart typeName)
open Model.ObjectModel (Described isOutput)

/-- What an RTT operation gives for its arguments: a return value, if it has one,
and the new values of its mutable references in the order of its arguments. -/
structure Outcome where
  result : Option Value
  references : List Value

/-- The mutable references among the arguments of an operation. -/
def referenceIndices (part : OperationPart) : List Nat := (List.range part.arity).filter (isOutput part)

/-- An outcome of an operation with this signature. -/
structure Outcome.Fits (outcome : Outcome) (part : OperationPart) : Prop where
  result : outcome.result.isSome = decide (typeName (part.argumentType 0) ≠ bytes "Void")
  references : outcome.references.length = (referenceIndices part).length

namespace Outcome

/-- What is collected, in collect order. -/
def collected (outcome : Outcome) : List Value := outcome.result.toList ++ outcome.references

/-- The final value of the argument at an index, if it is a mutable reference. -/
def argument (outcome : Outcome) (part : OperationPart) (index : Nat) : Option Value :=
  ((referenceIndices part).zip outcome.references).lookup index

end Outcome

/-- What the data sources of an invocation hold. -/
abbrev Store := Slot → Value

namespace Prepared

variable (prepared : Prepared) (outcome : Outcome)

/-- The data sources that collected values are bound to, in collect order. -/
def slots : List Slot :=
  (List.range prepared.values.length).filterMap (slot prepared.operation prepared.send)

/-- `caller->call()`. Only an operation with a result has bound a data source for it. -/
def call (store : Store) : Store :=
  let store := writeAll store ((referenceIndices prepared.operation.part).map .argument) outcome.references
  match outcome.result with
  | some value =>
      if prepared.operation.hasResult then Function.update store (.fresh 0) value else store
  | none => store

/-- `collector->collectIfDone()`, once the operation is done. -/
def collect (store : Store) : Store := writeAll store prepared.slots outcome.collected

/-- The data sources of an invocation that has finished. -/
def finish (store : Store) : Store :=
  if prepared.send then prepared.collect outcome store else prepared.call outcome store

/-- A finished invocation holds these values. -/
def Holds (values : Nat → Value) : Prop :=
  ∃ store, ∀ i < prepared.values.length, ∀ cell,
    slot prepared.operation prepared.send i = some cell → values i = prepared.finish outcome store cell

end Prepared

/-! ## What is collected -/

/-- A prepared invocation of a published operation, and an outcome of that operation. -/
structure Collects (prepared : Prepared) (outcome : Outcome) : Prop where
  result : outcome.result.isSome = prepared.operation.hasResult
  references : referenceIndices prepared.operation.part = prepared.operation.outputs
  given : outcome.references.length = prepared.operation.outputs.length
  count : prepared.values.length =
    prepared.operation.outputs.length + if prepared.operation.hasResult then 1 else 0

section Collects

variable {prepared : Prepared} {outcome : Outcome} {store : Store}

/-- A described operation has the signature that RTT reports. -/
theorem collects_of_ready {callers : OperationPart → List Value → Caller}
    {operation : Operation TypeCodec} {arguments : List Json} {options : Server.ServerOptions}
    {model : ObjectModel TypeCodec} (hready : prepared.Ready callers operation arguments options)
    (hdescribed : Described model operation true) (hfits : outcome.Fits operation.part) :
    Collects prepared outcome := by
  have hcallable := hdescribed.callable
  have hcalls := hready.calls
  have hreferences : referenceIndices operation.part = operation.outputs := hdescribed.outputs.symm
  refine ⟨?_, ?_, ?_, ?_⟩
  · rw [hcalls, hfits.result, hdescribed.hasResult]
  · rw [hcalls, hreferences]
  · rw [hcalls, hfits.references, hreferences]
  · rw [hready.values, hcalls, hcallable.bound, hcallable.collected]

theorem referenceIndices_nodup (part : OperationPart) : (referenceIndices part).Nodup :=
  List.nodup_range.filter _

variable (h : Collects prepared outcome)

include h

/-- The return value stands first, if there is one. -/
theorem Collects.collected_output (k : Nat) :
    outcome.collected[k + if prepared.operation.hasResult then 1 else 0]? =
      outcome.references[k]? := by
  have hresult := h.result
  unfold Outcome.collected
  cases hvalue : outcome.result with
  | none =>
      rw [hvalue, Option.isSome_none] at hresult
      simp [← hresult]
  | some value =>
      rw [hvalue, Option.isSome_some] at hresult
      simp [← hresult]

theorem Collects.length_collected : outcome.collected.length = prepared.values.length := by
  have hresult := h.result
  rw [h.count, Outcome.collected, List.length_append, h.given, Nat.add_comm, ← hresult]
  cases outcome.result <;> rfl

/-- After a sent call every slot holds what the collector wrote to it. -/
theorem Collects.collect_slot (hsend : prepared.send = true) {i : Nat}
    (hi : i < prepared.values.length) {cell : Slot}
    (hslot : slot prepared.operation prepared.send i = some cell) :
    outcome.collected[i]? = some (prepared.collect outcome store cell) := by
  have hslots : prepared.slots = (List.range prepared.values.length).map .fresh := by
    unfold Prepared.slots
    rw [hsend]
    exact congrFun List.filterMap_eq_map _
  rw [hsend, slot_send, Option.some.injEq] at hslot
  subst hslot
  have hlength := h.length_collected
  obtain ⟨value, hvalue⟩ : ∃ value, outcome.collected[i]? = some value :=
    ⟨_, List.getElem?_eq_getElem (hlength ▸ hi)⟩
  rw [hvalue, Prepared.collect, hslots]
  refine congrArg some (writeAll_getElem? (List.nodup_range.map ?_) ?_ hvalue).symm
  · exact fun first second hsame => Slot.fresh.inj hsame
  · simp [hi]

/-- A direct call leaves the return value in the storage for it. -/
theorem Collects.call_result (hresult : prepared.operation.hasResult = true) :
    outcome.collected[0]? = some (prepared.call outcome store (.fresh 0)) := by
  obtain ⟨value, hvalue⟩ := Option.isSome_iff_exists.mp (h.result.trans hresult)
  unfold Outcome.collected Prepared.call
  simp [hvalue, hresult]

/-- A direct call leaves every mutable argument in the storage it was passed in. -/
theorem Collects.call_argument {k index : Nat}
    (hindex : prepared.operation.outputs[k]? = some index) :
    outcome.references[k]? = some (prepared.call outcome store (.argument index)) := by
  have hk : k < outcome.references.length :=
    h.given ▸ (List.getElem?_eq_some_iff.mp hindex).1
  have hvalue : outcome.references[k]? = some outcome.references[k] := List.getElem?_eq_getElem hk
  have hdistinct : ((referenceIndices prepared.operation.part).map Slot.argument).Nodup :=
    (referenceIndices_nodup _).map fun first second hsame => Slot.argument.inj hsame
  have hcell : ((referenceIndices prepared.operation.part).map Slot.argument)[k]? =
      some (.argument index) := by
    rw [h.references, List.getElem?_map, hindex, Option.map_some]
  have hwritten : writeAll store ((referenceIndices prepared.operation.part).map .argument)
      outcome.references (.argument index) = outcome.references[k] :=
    writeAll_getElem? hdistinct hcell hvalue
  rw [hvalue, ← hwritten, Prepared.call]
  cases outcome.result with
  | none => rfl
  | some value =>
      -- The return value goes to another data source.
      cases prepared.operation.hasResult <;> simp

theorem Collects.call_slot (hsend : prepared.send = false) {i : Nat} {cell : Slot}
    (hslot : slot prepared.operation prepared.send i = some cell) :
    outcome.collected[i]? = some (prepared.call outcome store cell) := by
  rw [hsend] at hslot
  by_cases hfirst : prepared.operation.hasResult = true ∧ i = 0
  · obtain ⟨hresult, rfl⟩ := hfirst
    rw [slot_result hresult, Option.some.injEq] at hslot
    subst hslot
    exact h.call_result hresult
  · obtain ⟨k, rfl⟩ : ∃ k, i = k + if prepared.operation.hasResult then 1 else 0 := by
      cases hresult : prepared.operation.hasResult with
      | false => exact ⟨i, by simp⟩
      | true =>
          have hpositive : i ≠ 0 := fun hzero => hfirst ⟨hresult, hzero⟩
          exact ⟨i - 1, by simp; omega⟩
    rw [slot_output, Option.map_eq_some_iff] at hslot
    obtain ⟨index, hindex, rfl⟩ := hslot
    rw [h.collected_output]
    exact h.call_argument hindex

/-- Every collected value of an invocation has a data source. -/
theorem Collects.slot_isSome {i : Nat} (hi : i < prepared.values.length) :
    ∃ cell, slot prepared.operation prepared.send i = some cell := by
  unfold slot
  split
  next hreused =>
    have hcount := h.count
    have hindex : i - (if prepared.operation.hasResult then 1 else 0) <
        prepared.operation.outputs.length := by
      cases hresult : prepared.operation.hasResult with
      | false =>
          simp only [hresult, Bool.false_eq_true, if_false] at hcount ⊢
          omega
      | true =>
          have hpositive : i ≠ 0 := by
            rintro rfl
            simp [hresult] at hreused
          simp only [hresult, if_true] at hcount ⊢
          omega
    exact ⟨_, by rw [List.getElem?_eq_getElem hindex, Option.map_some]⟩
  next => exact ⟨_, rfl⟩

/-- Whichever way it was called, an invocation ends with what the operation gave. -/
theorem Collects.holds {values : Nat → Value} (hholds : prepared.Holds outcome values) :
    (List.range prepared.values.length).map values = outcome.collected := by
  obtain ⟨store, hstore⟩ := hholds
  apply List.ext_getElem?
  intro i
  by_cases hi : i < prepared.values.length
  · obtain ⟨cell, hslot⟩ := h.slot_isSome hi
    rw [List.getElem?_map, List.getElem?_range hi, Option.map_some, hstore i hi cell hslot,
      Prepared.finish]
    cases hsend : prepared.send with
    | true =>
        rw [if_pos rfl]
        exact (h.collect_slot hsend hi hslot).symm
    | false =>
        rw [if_neg Bool.false_ne_true]
        exact (h.call_slot hsend hslot).symm
  · rw [List.getElem?_eq_none (by simpa using hi),
      List.getElem?_eq_none (by rw [h.length_collected]; omega)]

end Collects

end RttHttp.Executor
