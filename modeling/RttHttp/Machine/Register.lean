import RttHttp.Machine.Run

/-! # Registers

A register holds what was written to it last. A machine whose actions each write at
most one of its variables is a family of registers, whatever else its actions do.
-/

namespace RttHttp.Machine

variable {Key State Action Content : Type*}

/-- A write takes the place of what the register held. -/
def Register.step (_ value : Content) : Option Content := some value

/-- A register ends with the last write, or with what it held. -/
theorem Register.run_eq (initial : Content) (writes : List Content) :
    run Register.step initial writes = some (writes.getLastD initial) := by
  induction writes generalizing initial with
  | nil => rfl
  | cons value rest ih =>
      rw [run_cons, Register.step, Option.bind_some, ih, List.getLastD_cons]

variable [DecidableEq Key] {step : State → Action → Option State}
  {contents : State → Key → Content} {written : Action → Option (Key × Content)}

/-- The variables of a machine, each action of which writes what it is labelled with. -/
def HoldsRegisters (step : State → Action → Option State) (contents : State → Key → Content)
    (written : Action → Option (Key × Content)) : Prop :=
  ∀ s action next, step s action = some next → contents next =
    (written action).elim (contents s) fun write => Function.update (contents s) write.1 write.2

/-- Such a machine simulates independent registers. -/
theorem HoldsRegisters.simulates (h : HoldsRegisters step contents written) :
    Simulates step (familyStep Register.step) written fun s registers => contents s = registers := by
  rintro s _ action next rfl hnext
  have hcontents := h s action next hnext
  split
  next hnone =>
    rw [hnone] at hcontents
    exact hcontents
  next event hsome =>
    rw [hsome] at hcontents
    exact ⟨_, rfl, hcontents⟩

/-- In every run a variable holds the last value that was written to it. -/
theorem HoldsRegisters.run_eq (h : HoldsRegisters step contents written) {actions : List Action}
    {s final : State} (hrun : run step s actions = some final) (key : Key) :
    contents final key = (eventsOf key (actions.filterMap written)).getLastD (contents s key) := by
  obtain ⟨registers, hregisters, rfl⟩ := h.simulates.run rfl hrun
  have hkey := run_eventsOf hregisters key
  rw [Register.run_eq] at hkey
  exact (Option.some.inj hkey).symm

/-- What was written last stays until something else is written. -/
theorem HoldsRegisters.last_write (h : HoldsRegisters step contents written) {before after : List Action}
    {action : Action} {s final : State} (hrun : run step s (before ++ action :: after) = some final)
    {key : Key} {value : Content} (haction : written action = some (key, value))
    (hafter : ∀ other ∈ after, ∀ found, written other ≠ some (key, found)) :
    contents final key = value := by
  obtain ⟨mid, next, -, hstep, hrest⟩ := run_split hrun
  have hnone : eventsOf key (after.filterMap written) = [] := by
    apply List.filterMap_eq_nil_iff.mpr
    intro event hevent
    obtain ⟨other, hother, hwritten⟩ := List.mem_filterMap.mp hevent
    apply if_neg
    rintro rfl
    exact hafter other hother event.2 hwritten
  have hnext := h mid action next hstep
  rw [haction] at hnext
  rw [h.run_eq hrest, hnone, List.getLastD_nil, hnext]
  exact Function.update_self ..

end RttHttp.Machine
