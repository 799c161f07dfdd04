import Mathlib.Algebra.Order.Ring.Int
import Mathlib.Logic.Function.Basic

/-! # Runs of partial machines

A machine is a partial step function: an action is either enabled in a state,
and then it determines the next state, or it is not. All nondeterminism of a
modelled system (thread choice, outcomes of foreign code) is carried by the
actions, so a schedule is a list of actions and a trace is the same list.
-/

namespace RttHttp.Machine

variable {State Action Abstract Event : Type*}

/-- Execute a list of actions; `none` when one of them is not enabled. -/
def run (step : State → Action → Option State) : State → List Action → Option State
  | s, [] => some s
  | s, action :: rest => (step s action).bind fun next => run step next rest

variable {step : State → Action → Option State}

@[simp] theorem run_nil (s : State) : run step s [] = some s := rfl

@[simp] theorem run_cons (s : State) (action : Action) (rest : List Action) :
    run step s (action :: rest) = (step s action).bind fun next => run step next rest := rfl

theorem run_append (s : State) (first second : List Action) :
    run step s (first ++ second) = (run step s first).bind fun mid => run step mid second := by
  induction first generalizing s with
  | nil => rfl
  | cons action rest ih =>
      simp only [List.cons_append, run_cons]
      cases hstep : step s action with
      | none => rfl
      | some next => simpa using ih next

/-- A run through a fixed action passes a state in which that action is enabled. -/
theorem run_split {s final : State} {before after : List Action} {action : Action}
    (hrun : run step s (before ++ action :: after) = some final) :
    ∃ mid next, run step s before = some mid ∧ step mid action = some next ∧
      run step next after = some final := by
  rw [run_append] at hrun
  obtain ⟨mid, hbefore, hrest⟩ := Option.bind_eq_some_iff.mp hrun
  obtain ⟨next, hstep, hafter⟩ := Option.bind_eq_some_iff.mp hrest
  exact ⟨mid, next, hbefore, hstep, hafter⟩

/-- States that some schedule reaches from `init`. -/
def Reachable (step : State → Action → Option State) (init s : State) : Prop :=
  ∃ actions, run step init actions = some s

theorem Reachable.refl (init : State) : Reachable step init init := ⟨[], rfl⟩

theorem Reachable.next {init s final : State} {action : Action}
    (hreach : Reachable step init s) (hstep : step s action = some final) :
    Reachable step init final := by
  obtain ⟨actions, hrun⟩ := hreach
  refine ⟨actions ++ [action], ?_⟩
  rw [run_append, hrun]
  simpa using hstep

/-- A predicate preserved by every step is preserved by every run. -/
theorem run_invariant {invariant : State → Prop}
    (hstep : ∀ s action next, invariant s → step s action = some next → invariant next)
    {actions : List Action} {s final : State} (hs : invariant s)
    (hrun : run step s actions = some final) : invariant final := by
  induction actions generalizing s with
  | nil =>
      cases hrun
      exact hs
  | cons action rest ih =>
      obtain ⟨next, hnext, hrest⟩ := Option.bind_eq_some_iff.mp hrun
      exact ih (hstep s action next hs hnext) hrest

/-- Every action of the schedule is allowed in the state in which it is taken. -/
def Along (step : State → Action → Option State) (allowed : State → Action → Prop) :
    State → List Action → Prop
  | _, [] => True
  | s, action :: rest => allowed s action ∧ match step s action with
    | none => True
    | some next => Along step allowed next rest

instance decidableAlong (allowed : State → Action → Prop) [∀ s action, Decidable (allowed s action)] :
    ∀ s actions, Decidable (Along step allowed s actions)
  | _, [] => inferInstanceAs (Decidable True)
  | s, action :: rest =>
      have : Decidable (match step s action with
          | none => True
          | some next => Along step allowed next rest) :=
        match step s action with
        | none => inferInstanceAs (Decidable True)
        | some next => decidableAlong allowed next rest
      inferInstanceAs (Decidable (_ ∧ _))

/-- The part of a schedule up to one of its actions, and that action. -/
theorem Along.split {allowed : State → Action → Prop} {s mid : State}
    {before after : List Action} {action : Action}
    (hallowed : Along step allowed s (before ++ action :: after))
    (hbefore : run step s before = some mid) :
    Along step allowed s before ∧ allowed mid action := by
  induction before generalizing s with
  | nil =>
      cases hbefore
      exact ⟨trivial, hallowed.1⟩
  | cons head rest ih =>
      obtain ⟨next, hnext, hrest⟩ := Option.bind_eq_some_iff.mp hbefore
      obtain ⟨hhead, htail⟩ := hallowed
      rw [hnext] at htail
      obtain ⟨hrestAllowed, haction⟩ := ih htail hrest
      refine ⟨⟨hhead, ?_⟩, haction⟩
      rw [hnext]
      exact hrestAllowed

theorem Along.of_append {allowed : State → Action → Prop} {s : State}
    {before after : List Action} (hallowed : Along step allowed s (before ++ after)) :
    Along step allowed s before := by
  induction before generalizing s with
  | nil => trivial
  | cons head rest ih =>
      obtain ⟨hhead, htail⟩ := hallowed
      refine ⟨hhead, ?_⟩
      cases hnext : step s head with
      | none => trivial
      | some next =>
          rw [hnext] at htail
          exact ih htail

theorem Along.append {allowed : State → Action → Prop} {s : State} {before after : List Action}
    (hbefore : Along step allowed s before)
    (hafter : ∀ mid, run step s before = some mid → Along step allowed mid after) :
    Along step allowed s (before ++ after) := by
  induction before generalizing s with
  | nil => exact hafter s rfl
  | cons head rest ih =>
      obtain ⟨hhead, hrest⟩ := hbefore
      refine ⟨hhead, ?_⟩
      cases hnext : step s head with
      | none => trivial
      | some next =>
          rw [hnext] at hrest
          refine ih hrest fun mid hmid => hafter mid ?_
          rw [run_cons, hnext]
          exact hmid

theorem Along.and {first second : State → Action → Prop} {s : State} {actions : List Action}
    (hfirst : Along step first s actions) (hsecond : Along step second s actions) :
    Along step (fun s action => first s action ∧ second s action) s actions := by
  induction actions generalizing s with
  | nil => trivial
  | cons head rest ih =>
      refine ⟨⟨hfirst.1, hsecond.1⟩, ?_⟩
      have hfirst := hfirst.2
      have hsecond := hsecond.2
      cases hnext : step s head with
      | none => trivial
      | some next =>
          rw [hnext] at hfirst hsecond
          exact ih hfirst hsecond

theorem Along.mono {allowed more : State → Action → Prop} {s : State} {actions : List Action}
    (h : Along step allowed s actions) (hmore : ∀ s action, allowed s action → more s action) :
    Along step more s actions := by
  induction actions generalizing s with
  | nil => trivial
  | cons head rest ih =>
      obtain ⟨hhead, hrest⟩ := h
      refine ⟨hmore s head hhead, ?_⟩
      cases hnext : step s head with
      | none => trivial
      | some next =>
          rw [hnext] at hrest
          exact ih hrest

/-- Actions that are allowed in every state. -/
theorem Along.of_forall {allowed : State → Action → Prop} {actions : List Action}
    (hallowed : ∀ action ∈ actions, ∀ s, allowed s action) (s : State) :
    Along step allowed s actions := by
  induction actions generalizing s with
  | nil => trivial
  | cons head rest ih =>
      obtain ⟨hhead, hrest⟩ := List.forall_mem_cons.mp hallowed
      refine ⟨hhead s, ?_⟩
      cases step s head with
      | none => trivial
      | some next => exact ih hrest next

/-- The invariant rule for schedules of allowed actions. -/
theorem run_invariant_of {invariant : State → Prop} {allowed : State → Action → Prop}
    (hstep : ∀ s action next, invariant s → allowed s action → step s action = some next →
      invariant next)
    {actions : List Action} {s final : State} (hs : invariant s)
    (hallowed : Along step allowed s actions)
    (hrun : run step s actions = some final) : invariant final := by
  induction actions generalizing s with
  | nil =>
      cases hrun
      exact hs
  | cons action rest ih =>
      obtain ⟨next, hnext, hrest⟩ := Option.bind_eq_some_iff.mp hrun
      obtain ⟨haction, htail⟩ := hallowed
      rw [hnext] at htail
      exact ih (hstep s action next hs haction hnext) htail hrest

theorem Reachable.invariant {invariant : State → Prop} {init s : State}
    (hinit : invariant init)
    (hstep : ∀ s action next, invariant s → step s action = some next → invariant next)
    (hreach : Reachable step init s) : invariant s := by
  obtain ⟨actions, hrun⟩ := hreach
  exact run_invariant hstep hinit hrun

/-! ## Forward simulation -/

/-- Every step is matched by the abstract transition its label names, or by no
abstract transition when it has no label. -/
def Simulates (step : State → Action → Option State)
    (abstractStep : Abstract → Event → Option Abstract) (label : Action → Option Event)
    (related : State → Abstract → Prop) : Prop :=
  ∀ s g action next, related s g → step s action = some next →
    match label action with
    | none => related next g
    | some event => ∃ g', abstractStep g event = some g' ∧ related next g'

/-- A forward simulation carries whole runs to runs over the visible labels. -/
theorem Simulates.run {abstractStep : Abstract → Event → Option Abstract}
    {label : Action → Option Event} {related : State → Abstract → Prop}
    (hsim : Simulates step abstractStep label related)
    {actions : List Action} {s final : State} {g : Abstract} (hs : related s g)
    (hrun : Machine.run step s actions = some final) :
    ∃ g', Machine.run abstractStep g (actions.filterMap label) = some g' ∧ related final g' := by
  induction actions generalizing s g with
  | nil =>
      cases hrun
      exact ⟨g, rfl, hs⟩
  | cons action rest ih =>
      obtain ⟨next, hnext, hrest⟩ := Option.bind_eq_some_iff.mp hrun
      have hmatch := hsim s g action next hs hnext
      cases hlabel : label action with
      | none =>
          rw [hlabel] at hmatch
          rw [List.filterMap_cons_none hlabel]
          exact ih hmatch hrest
      | some event =>
          rw [hlabel] at hmatch
          obtain ⟨g₁, hg₁, hrelated⟩ := hmatch
          obtain ⟨g', hrun', hfinal⟩ := ih hrelated hrest
          refine ⟨g', ?_, hfinal⟩
          rw [List.filterMap_cons_some hlabel, run_cons, hg₁]
          exact hrun'

/-! ## Independent automata indexed by a key -/

section Family

variable {Key : Type*} [DecidableEq Key]

/-- A family of copies of one automaton; an event addresses one copy. -/
def familyStep (step : State → Action → Option State) :
    (Key → State) → Key × Action → Option (Key → State) :=
  fun g event => (step (g event.1) event.2).map (Function.update g event.1)

/-- The events addressed to one copy. -/
def eventsOf (key : Key) (events : List (Key × Action)) : List Action :=
  events.filterMap fun event => if event.1 = key then some event.2 else none

/-- Each copy runs exactly on the events addressed to it. -/
theorem run_eventsOf {events : List (Key × Action)} {g final : Key → State}
    (hrun : run (familyStep step) g events = some final) (key : Key) :
    run step (g key) (eventsOf key events) = some (final key) := by
  induction events generalizing g with
  | nil =>
      cases hrun
      rfl
  | cons event rest ih =>
      obtain ⟨mid, hmid, hrest⟩ := Option.bind_eq_some_iff.mp hrun
      obtain ⟨next, hnext, rfl⟩ := Option.map_eq_some_iff.mp hmid
      have htail := ih hrest
      by_cases hkey : event.1 = key
      · subst hkey
        simp only [Function.update_self] at htail
        simpa [eventsOf, hnext] using htail
      · rw [Function.update_of_ne (Ne.symm hkey)] at htail
        simpa [eventsOf, hkey] using htail

end Family

/-- If each selected action raises a rank by one and no action lowers it, a run
contains at most as many selected actions as the rank it gains. -/
theorem run_countP_le {rank : State → Nat} {selected : Action → Bool}
    (hstep : ∀ s action next, step s action = some next →
      rank s + (if selected action then 1 else 0) ≤ rank next)
    {actions : List Action} {s final : State} (hrun : run step s actions = some final) :
    rank s + actions.countP selected ≤ rank final := by
  induction actions generalizing s with
  | nil =>
      cases hrun
      simp
  | cons action rest ih =>
      obtain ⟨next, hnext, hrest⟩ := Option.bind_eq_some_iff.mp hrun
      have hone := hstep s action next hnext
      have htail := ih hrest
      rw [List.countP_cons]
      omega

end RttHttp.Machine
