import RttHttp.Machine.Run

/-! # The life of one invocation

The abstract purpose of the executor: an invocation moves along one path from
preparation to release. It is queued, held by one worker, then either called
directly and finished by that worker, or sent and finished by the reaper. The
automaton has no way back, which is where the exactly-once guarantees come from.
-/

namespace RttHttp.Executor

/-- Where one invocation stands. A stage owned by a worker names that worker;
`threw` records that the send evaluation ended by an exception. -/
inductive Stage where
  | prepared
  | declined
  | queued
  | held (w : Nat)
  | calling (w : Nat)
  | called (w status : Nat)
  | evaluating (w : Nat)
  | failing (w : Nat)
  | sending (w : Nat) (threw : Bool)
  | awaiting (threw : Bool)
  | completed (finisher : Option Nat) (status : Nat)
  | released (finisher : Option Nat) (status : Nat)
  deriving DecidableEq, Repr

/-- What can happen to one invocation. -/
inductive Event where
  | admitted
  | declined
  | popped (w : Nat)
  | call
  | callEnded (status : Nat)
  | evaluate
  | sendEnded (threw : Bool)
  | failureRecorded
  | markedSent
  | collect
  | completed (status : Nat)
  | erased
  deriving DecidableEq, Repr

/-- `caller->call()` or `send->evaluate()` begins. -/
def Event.dispatches : Event → Bool
  | .call | .evaluate => true
  | _ => false

/-- `finish` is applied. -/
def Event.finishes : Event → Bool
  | .completed _ => true
  | _ => false

namespace Stage

def next : Stage → Event → Option Stage
  | .prepared, .admitted => some .queued
  | .prepared, .declined => some .declined
  | .queued, .popped w => some (.held w)
  | .held w, .call => some (.calling w)
  | .calling w, .callEnded status => some (.called w status)
  | .held w, .evaluate => some (.evaluating w)
  -- `send->reset()` threw, so `evaluate` is never reached.
  | .held w, .sendEnded true => some (.failing w)
  | .evaluating w, .sendEnded threw => some (if threw then .failing w else .sending w false)
  | .failing w, .failureRecorded => some (.sending w true)
  | .sending _ threw, .markedSent => some (.awaiting threw)
  | .awaiting threw, .collect => some (.awaiting threw)
  | .called w status, .completed final =>
      if final = status then some (.completed (some w) final) else none
  | .awaiting threw, .completed final =>
      if threw = true → final = 500 then some (.completed none final) else none
  | .completed finisher status, .erased => some (.released finisher status)
  | _, _ => none

/-- What `next` can do. -/
inductive Next : Stage → Event → Stage → Prop
  | entered : Next .prepared .admitted .queued
  | refused : Next .prepared .declined .declined
  | popped (w : Nat) : Next .queued (.popped w) (.held w)
  | call (w : Nat) : Next (.held w) .call (.calling w)
  | callEnded (w status : Nat) : Next (.calling w) (.callEnded status) (.called w status)
  | evaluate (w : Nat) : Next (.held w) .evaluate (.evaluating w)
  | resetThrew (w : Nat) : Next (.held w) (.sendEnded true) (.failing w)
  | evaluateThrew (w : Nat) : Next (.evaluating w) (.sendEnded true) (.failing w)
  | evaluated (w : Nat) : Next (.evaluating w) (.sendEnded false) (.sending w false)
  | recorded (w : Nat) : Next (.failing w) .failureRecorded (.sending w true)
  | markedSent (w : Nat) (threw : Bool) : Next (.sending w threw) .markedSent (.awaiting threw)
  | collect (threw : Bool) : Next (.awaiting threw) .collect (.awaiting threw)
  | finished (w status : Nat) :
      Next (.called w status) (.completed status) (.completed (some w) status)
  | reaped (threw : Bool) (status : Nat) (hstatus : threw = true → status = 500) :
      Next (.awaiting threw) (.completed status) (.completed none status)
  | erased (finisher : Option Nat) (status : Nat) :
      Next (.completed finisher status) .erased (.released finisher status)

theorem next_cases {g g' : Stage} {event : Event} (hnext : g.next event = some g') :
    Next g event g' := by
  revert hnext
  fun_cases next g event <;> intro hnext <;> cases hnext
  case case1 => exact .entered
  case case2 => exact .refused
  case case3 w => exact .popped w
  case case4 w => exact .call w
  case case5 w status => exact .callEnded w status
  case case6 w => exact .evaluate w
  case case7 w => exact .resetThrew w
  case case8 w threw =>
    cases threw
    · exact .evaluated w
    · exact .evaluateThrew w
  case case9 w => exact .recorded w
  case case10 w threw => exact .markedSent w threw
  case case11 threw => exact .collect threw
  case case12 w status => exact .finished w status
  case case14 threw status hstatus => exact .reaped threw status hstatus
  case case16 finisher status => exact .erased finisher status

/-- In `pending_`. -/
def retained : Stage → Bool
  | .prepared | .declined | .released _ _ => false
  | _ => true

/-- `admit` returned true. -/
def admitted : Stage → Bool
  | .prepared | .declined => false
  | _ => true

/-- The invocation's `sent` flag. -/
def sent : Stage → Bool
  | .awaiting _ | .completed none _ | .released none _ => true
  | _ => false

/-- The invocation's `complete` flag. -/
def complete : Stage → Bool
  | .completed _ _ | .released _ _ => true
  | _ => false

/-- The invocation's `status` field. -/
def status : Stage → Nat
  | .sending _ threw | .awaiting threw => if threw then 500 else 200
  | .completed _ status | .released _ status => status
  | _ => 200

/-- The send evaluation has ended, by return or by exception. -/
def sendEnded : Stage → Bool
  | .failing _ | .sending _ _ | .awaiting _ | .completed none _ | .released none _ => true
  | _ => false

/-- How many dispatches an invocation at this stage may have had. -/
def dispatchRank : Stage → Nat
  | .prepared | .declined | .queued | .held _ => 0
  | _ => 1

def finishRank : Stage → Nat
  | .completed _ _ | .released _ _ => 1
  | _ => 0

/-- The worker that owns the invocation. -/
def owner : Stage → Option Nat
  | .held w | .calling w | .called w _ | .evaluating w | .failing w | .sending w _ => some w
  | .completed finisher _ => finisher
  | _ => none

theorem dispatchRank_le_one (g : Stage) : g.dispatchRank ≤ 1 := by
  cases g <;> simp [dispatchRank]

theorem finishRank_le_one (g : Stage) : g.finishRank ≤ 1 := by
  cases g <;> simp [finishRank]

theorem admitted_of_complete {g : Stage} (hcomplete : g.complete) : g.admitted := by
  cases g <;> simp_all [admitted, complete]

theorem retained_of_admitted {g : Stage} (hadmitted : g.admitted) (hopen : g.complete = false) :
    g.retained := by
  cases g <;> simp_all [retained, admitted, complete]

theorem admitted_of_retained {g : Stage} (hretained : g.retained) : g.admitted := by
  cases g <;> simp_all [retained, admitted]

theorem awaiting_of_sent {g : Stage} (hsent : g.sent) (hopen : g.complete = false) :
    ∃ threw, g = .awaiting threw := by
  cases g with
  | awaiting threw => exact ⟨threw, rfl⟩
  | completed finisher status => simp [complete] at hopen
  | released finisher status => simp [complete] at hopen
  | _ => simp [sent] at hsent

theorem next_dispatchRank (g : Stage) (event : Event) (g' : Stage)
    (hnext : g.next event = some g') :
    g.dispatchRank + (if event.dispatches then 1 else 0) ≤ g'.dispatchRank := by
  cases next_cases hnext <;> simp [dispatchRank, Event.dispatches]

theorem next_finishRank (g : Stage) (event : Event) (g' : Stage)
    (hnext : g.next event = some g') :
    g.finishRank + (if event.finishes then 1 else 0) ≤ g'.finishRank := by
  cases next_cases hnext <;> simp [finishRank, Event.finishes]

/-- `collectIfDone` is only called while the invocation awaits collection. -/
theorem awaiting_of_next_collect {g g' : Stage} (hnext : g.next .collect = some g') :
    ∃ threw, g = .awaiting threw := by
  cases next_cases hnext with
  | collect threw => exact ⟨threw, rfl⟩

theorem next_complete {g g' : Stage} {event : Event} (hcomplete : g.complete)
    (hnext : g.next event = some g') : g'.complete ∧ g'.status = g.status := by
  cases next_cases hnext with
  | erased finisher status => exact ⟨rfl, rfl⟩
  | _ => cases hcomplete

/-- Completion and status survive every continuation. -/
theorem run_complete {g final : Stage} {events : List Event} (hcomplete : g.complete)
    (hrun : Machine.run next g events = some final) :
    final.complete ∧ final.status = g.status := by
  have hkept : ∀ (s : Stage) (event : Event) (s' : Stage),
      (s.complete ∧ s.status = g.status) → s.next event = some s' →
        s'.complete ∧ s'.status = g.status := by
    intro s event s' hs hnext
    obtain ⟨hcomplete', hstatus⟩ := next_complete hs.1 hnext
    exact ⟨hcomplete', hstatus.trans hs.2⟩
  exact Machine.run_invariant hkept ⟨hcomplete, rfl⟩ hrun

theorem next_admitted {g g' : Stage} {event : Event} (hadmitted : g.admitted)
    (hnext : g.next event = some g') : g'.admitted := by
  cases next_cases hnext with
  | entered => cases hadmitted
  | refused => cases hadmitted
  | _ => rfl

theorem admitted_of_run {g final : Stage} {events : List Event}
    (hrun : Machine.run next g events = some final) (hmem : .admitted ∈ events) :
    final.admitted := by
  obtain ⟨before, after, rfl⟩ := List.mem_iff_append.mp hmem
  obtain ⟨mid, reached, _, hstep, hafter⟩ := Machine.run_split hrun
  have hreached : reached.admitted := by
    cases next_cases hstep with
    | entered => rfl
  exact Machine.run_invariant (fun _ _ _ hs hnext => next_admitted hs hnext) hreached hafter

theorem next_sendEnded {g g' : Stage} {event : Event} (hnext : g.next event = some g')
    (hended : g'.sendEnded) : g.sendEnded ∨ ∃ threw, event = .sendEnded threw := by
  cases next_cases hnext with
  | resetThrew w => exact .inr ⟨true, rfl⟩
  | evaluateThrew w => exact .inr ⟨true, rfl⟩
  | evaluated w => exact .inr ⟨false, rfl⟩
  | recorded w => exact .inl rfl
  | markedSent w threw => exact .inl rfl
  | collect threw => exact .inl rfl
  | reaped threw status => exact .inl rfl
  | erased finisher status =>
      cases finisher with
      | none => exact .inl rfl
      | some w => cases hended
  | _ => cases hended

/-- A stage past the send evaluation is reached only through its end. -/
theorem sendEnded_mem_of_run {g final : Stage} {events : List Event}
    (hrun : Machine.run next g events = some final) (hended : final.sendEnded) :
    g.sendEnded ∨ ∃ threw, .sendEnded threw ∈ events := by
  induction events generalizing g with
  | nil =>
      cases hrun
      exact Or.inl hended
  | cons event rest ih =>
      obtain ⟨mid, hmid, hrest⟩ := Option.bind_eq_some_iff.mp hrun
      rcases ih hrest with hmidEnded | ⟨threw, hmem⟩
      · rcases next_sendEnded hmid hmidEnded with hg | ⟨threw, rfl⟩
        · exact Or.inl hg
        · exact Or.inr ⟨threw, List.mem_cons_self⟩
      · exact Or.inr ⟨threw, List.mem_cons_of_mem _ hmem⟩

/-- The send evaluation threw: the only final status left is 500. -/
def failed : Stage → Bool
  | .failing _ | .sending _ true | .awaiting true => true
  | .completed _ status | .released _ status => status == 500
  | _ => false

theorem next_failed {g g' : Stage} {event : Event} (hfailed : g.failed)
    (hnext : g.next event = some g') : g'.failed := by
  cases next_cases hnext with
  | recorded w => rfl
  | markedSent w threw =>
      cases threw with
      | true => rfl
      | false => cases hfailed
  | collect threw => exact hfailed
  | reaped threw status hstatus =>
      cases threw with
      | true => simp [failed, hstatus]
      | false => cases hfailed
  | erased finisher status => exact hfailed
  | _ => cases hfailed

theorem failed_of_next_threw {g g' : Stage} (hnext : g.next (.sendEnded true) = some g') :
    g'.failed := by
  cases next_cases hnext <;> rfl

/-- An exception out of the send evaluation marks every later stage. -/
theorem failed_of_run {g final : Stage} {events : List Event}
    (hrun : Machine.run next g events = some final) (hmem : .sendEnded true ∈ events) :
    final.failed := by
  obtain ⟨before, after, rfl⟩ := List.mem_iff_append.mp hmem
  obtain ⟨mid, next', _, hstep, hafter⟩ := Machine.run_split hrun
  exact Machine.run_invariant (fun _ _ _ hs hnext => next_failed hs hnext)
    (failed_of_next_threw hstep) hafter

theorem status_of_failed {g : Stage} (hfailed : g.failed) (hcomplete : g.complete) :
    g.status = 500 := by
  cases g <;> simp_all [failed, complete, status]

end Stage

end RttHttp.Executor
