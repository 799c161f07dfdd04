import RttHttp.Executor.Simulation

/-! # Exactly-once execution of admitted invocations

For every interleaving of handlers, workers, the reaper and a shutdown, an
admitted invocation is dispatched at most once and finished at most once, and
while it is unfinished it sits in exactly one place.
-/

namespace RttHttp.Executor

open OperationExecutor

namespace Action

/-- `admit` returned true for invocation `i`. -/
def admits (i : Nat) : Action → Bool
  | .handler j (.admission _ _ .admitted) => j == i
  | _ => false

/-- `caller->call()` or `send->evaluate()` is entered for invocation `i`. -/
def dispatches (i : Nat) : Action → Bool
  | .worker _ (.call j) | .worker _ (.evaluate j) => j == i
  | _ => false

/-- `finish` stores the final status of invocation `i`. -/
def finishes (i : Nat) : Action → Bool
  | .worker _ (.complete j _) | .reaper (.complete j _) => j == i
  | _ => false

/-- The send evaluation of invocation `i` ends. -/
def endsSend (i : Nat) : Action → Bool
  | .worker _ (.evaluated j _) | .worker _ (.resetThrew j) => j == i
  | _ => false

/-- The send evaluation of invocation `i` ends by an exception. -/
def failsSend (i : Nat) : Action → Bool
  | .worker _ (.evaluated j true) | .worker _ (.resetThrew j) => j == i
  | _ => false

/-- The event an action is for invocation `i`. -/
def event (i : Nat) (action : Action) : Option Event :=
  action.label.bind fun labelled => if labelled.1 = i then some labelled.2 else none

end Action

theorem eventsOf_label (i : Nat) (actions : List Action) :
    Machine.eventsOf i (actions.filterMap Action.label) = actions.filterMap (Action.event i) := by
  rw [Machine.eventsOf, List.filterMap_filterMap]
  rfl

/-- A property of actions that is a property of the automaton edge they take. -/
def OnEvents (holds : Nat → Action → Bool) (onEvent : Event → Bool) : Prop :=
  ∀ i action, holds i action =
    match action.label with
    | none => false
    | some labelled => labelled.1 == i && onEvent labelled.2

section OnEvents

variable {holds : Nat → Action → Bool} {onEvent : Event → Bool}

theorem OnEvents.eq_event (hlink : OnEvents holds onEvent) (i : Nat) (action : Action) :
    holds i action = ((action.event i).map onEvent).getD false := by
  rw [hlink, Action.event]
  cases action.label with
  | none => rfl
  | some labelled => by_cases heq : labelled.1 = i <;> simp [heq]

theorem OnEvents.countP_eq (hlink : OnEvents holds onEvent) (i : Nat) (actions : List Action) :
    actions.countP (holds i) = (actions.filterMap (Action.event i)).countP onEvent := by
  rw [List.countP_filterMap]
  exact List.countP_congr fun action _ => by rw [hlink.eq_event]

theorem OnEvents.exists_iff (hlink : OnEvents holds onEvent) (i : Nat) (actions : List Action) :
    (∃ action ∈ actions, holds i action) ↔
      ∃ event ∈ actions.filterMap (Action.event i), onEvent event := by
  rw [← List.countP_pos_iff, ← List.countP_pos_iff, hlink.countP_eq]

end OnEvents

theorem dispatches_onEvents : OnEvents Action.dispatches Event.dispatches := by
  intro i action
  fun_cases Action.label action <;> simp_all [Action.dispatches, Event.dispatches]

theorem finishes_onEvents : OnEvents Action.finishes Event.finishes := by
  intro i action
  fun_cases Action.label action <;> simp_all [Action.finishes, Event.finishes]

theorem admits_onEvents : OnEvents Action.admits (· == .admitted) := by
  intro i action
  fun_cases Action.label action <;> simp_all [Action.admits]

theorem endsSend_onEvents :
    OnEvents Action.endsSend (fun event => event == .sendEnded true || event == .sendEnded false) := by
  intro i action
  fun_cases Action.label action <;> simp_all [Action.endsSend]

theorem failsSend_onEvents : OnEvents Action.failsSend (· == .sendEnded true) := by
  intro i action
  fun_cases Action.label action <;> simp_all [Action.failsSend]
  all_goals grind [Action.failsSend]

/-- The three places an unfinished invocation can be in: the queue, a worker's
hands, or sent and awaiting collection. -/
def OperationExecutor.places (s : OperationExecutor) (i : Nat) : Nat :=
  s.queue.count i + (List.range s.width).countP (fun w => (s.worker w).invocation == some i) +
    (if (s.invocation i).sent then 1 else 0)

theorem Stage.exists_worker {g : Stage} {w : Nat} (howner : g.owner = some w) (i : Nat) :
    ∃ pc, g.worker i = some (w, pc) := by
  cases g with
  | completed finisher status => cases finisher <;> simp_all [owner, worker]
  | _ => simp_all [owner, worker]

/-- An invocation is in the hands of its owner and of no other worker. -/
theorem Tracks.invocation_iff {s : OperationExecutor} {g : Nat → Stage} (h : Tracks s g)
    (w i : Nat) : (s.worker w).invocation = some i ↔ (g i).owner = some w := by
  constructor
  · intro hi
    exact Stage.owner_of_worker (h.working w i hi)
  · intro howner
    obtain ⟨pc, hpc⟩ := Stage.exists_worker howner i
    rw [((h.tracked i).owned w pc hpc).1]
    exact Stage.worker_invocation hpc

theorem Tracks.owner_lt {s : OperationExecutor} {g : Nat → Stage} (h : Tracks s g) {w i : Nat}
    (howner : (g i).owner = some w) : w < s.width := by
  obtain ⟨pc, hpc⟩ := Stage.exists_worker howner i
  exact ((h.tracked i).owned w pc hpc).2

theorem Tracks.countP_worker {s : OperationExecutor} {g : Nat → Stage} (h : Tracks s g) (i : Nat) :
    (List.range s.width).countP (fun w => (s.worker w).invocation == some i) =
      if (g i).owner.isSome then 1 else 0 := by
  have hcongr : (List.range s.width).countP (fun w => (s.worker w).invocation == some i) =
      (List.range s.width).countP (fun w => (g i).owner == some w) :=
    List.countP_congr fun w _ => by simp [h.invocation_iff w i]
  rw [hcongr]
  cases howner : (g i).owner with
  | none => simp
  | some w =>
      have hone : (List.range s.width).count w = 1 :=
        List.count_eq_one_of_mem List.nodup_range (List.mem_range.mpr (h.owner_lt howner))
      rw [List.count] at hone
      rw [Option.isSome_some, if_pos rfl, ← hone]
      refine List.countP_congr fun v _ => ?_
      rw [beq_iff_eq, beq_iff_eq, Option.some.injEq]
      exact eq_comm

/-- An unfinished admitted invocation is in exactly one place. -/
theorem Tracks.places_eq_one {s : OperationExecutor} {g : Nat → Stage} (h : Tracks s g) {i : Nat}
    (hadmitted : (g i).admitted) (hopen : (g i).complete = false) : s.places i = 1 := by
  have hat := h.tracked i
  have hnodup : s.queue.Nodup := h.queue_sublist.nodup h.pending_nodup
  have hqueue : s.queue.count i = if g i = .queued then 1 else 0 := by
    by_cases hmem : i ∈ s.queue
    · rw [if_pos (hat.mem_queue.mp hmem), List.count_eq_one_of_mem hnodup hmem]
    · rw [if_neg (fun hg => hmem (hat.mem_queue.mpr hg)), List.count_eq_zero.mpr hmem]
  rw [places, hqueue, h.countP_worker, hat.flags.1]
  cases hg : g i <;> simp_all [Stage.owner, Stage.sent, Stage.admitted, Stage.complete]

theorem Tracks.pending_count {s : OperationExecutor} {g : Nat → Stage} (h : Tracks s g) {i : Nat}
    (hadmitted : (g i).admitted) (hopen : (g i).complete = false) : s.pending.count i = 1 :=
  List.count_eq_one_of_mem h.pending_nodup
    ((h.tracked i).mem_pending.mpr (Stage.retained_of_admitted hadmitted hopen))

/-- What a run that ends in `s` guarantees for invocation `i`. -/
structure ExactlyOnce (actions : List Action) (s : OperationExecutor) (i : Nat) : Prop where
  dispatched : actions.countP (Action.dispatches i) ≤ 1
  finished : actions.countP (Action.finishes i) ≤ 1
  placed : (s.invocation i).complete = false → s.pending.count i = 1 ∧ s.places i = 1
  failed : (∃ action ∈ actions, action.failsSend i) → (s.invocation i).complete →
    (s.invocation i).status = 500

theorem exactlyOnce_of_run {width : Nat} {send : Nat → Bool} {actions : List Action}
    {s : OperationExecutor} (hrun : Machine.run step (start width send) actions = some s) {i : Nat}
    (hadmits : ∃ action ∈ actions, action.admits i) : ExactlyOnce actions s i := by
  obtain ⟨g, htracks, hevents⟩ := run_tracks hrun
  have hpath := hevents i
  rw [eventsOf_label] at hpath
  have hflags := (htracks.tracked i).flags
  have hadmitted : (g i).admitted := by
    obtain ⟨event, hmem, hevent⟩ := (admits_onEvents.exists_iff i actions).mp hadmits
    obtain rfl : event = .admitted := by simpa using hevent
    exact Stage.admitted_of_run hpath hmem
  refine ⟨?_, ?_, ?_, ?_⟩
  · have hle := Machine.run_countP_le Stage.next_dispatchRank hpath
    rw [dispatches_onEvents.countP_eq]
    have := (g i).dispatchRank_le_one
    omega
  · have hle := Machine.run_countP_le Stage.next_finishRank hpath
    rw [finishes_onEvents.countP_eq]
    have := (g i).finishRank_le_one
    omega
  · intro hopen
    rw [hflags.2.1] at hopen
    exact ⟨htracks.pending_count hadmitted hopen, htracks.places_eq_one hadmitted hopen⟩
  · intro hfails hcomplete
    obtain ⟨event, hmem, hevent⟩ := (failsSend_onEvents.exists_iff i actions).mp hfails
    obtain rfl : event = .sendEnded true := by simpa using hevent
    rw [hflags.2.1] at hcomplete
    rw [hflags.2.2]
    exact Stage.status_of_failed (Stage.failed_of_run hpath hmem) hcomplete

/-- `collectIfDone` is entered only after the send evaluation has ended and
before the invocation is complete. -/
theorem collect_of_run {width : Nat} {send : Nat → Bool} {before : List Action}
    {mid next : OperationExecutor} {i : Nat} {outcome : CollectOutcome}
    (hrun : Machine.run step (start width send) before = some mid)
    (hstep : mid.step (.reaper (.collect i outcome)) = some next) :
    (∃ action ∈ before, action.endsSend i) ∧ (mid.invocation i).complete = false := by
  obtain ⟨g, htracks, hevents⟩ := run_tracks hrun
  have hpath := hevents i
  rw [eventsOf_label] at hpath
  obtain ⟨g', hedge, -⟩ := step_simulates mid g _ next htracks hstep
  obtain ⟨target, htarget, -⟩ := Option.map_eq_some_iff.mp hedge
  obtain ⟨threw, hg⟩ := Stage.awaiting_of_next_collect htarget
  constructor
  · rw [endsSend_onEvents.exists_iff]
    rcases Stage.sendEnded_mem_of_run hpath (by rw [hg]; rfl) with hstart | ⟨failed, hmem⟩
    · simp [Stage.sendEnded] at hstart
    · exact ⟨_, hmem, by cases failed <;> rfl⟩
  · rw [(htracks.tracked i).flags.2.1, hg]
    rfl

/-- Completion and the final status are permanent. -/
theorem complete_stable {width : Nat} {send : Nat → Bool} {s final : OperationExecutor}
    (hreach : Machine.Reachable step (start width send) s) {more : List Action}
    (hmore : Machine.run step s more = some final) {i : Nat} (hcomplete : (s.invocation i).complete) :
    (final.invocation i).complete ∧ (final.invocation i).status = (s.invocation i).status := by
  obtain ⟨actions, hrun⟩ := hreach
  obtain ⟨g, htracks, -⟩ := run_tracks hrun
  obtain ⟨g', habstract, hfinal⟩ := step_simulates.run htracks hmore
  have hpath := Machine.run_eventsOf habstract i
  have hflags := (htracks.tracked i).flags
  have hflags' := (hfinal.tracked i).flags
  rw [hflags.2.1] at hcomplete
  rw [hflags.2.2, hflags'.2.1, hflags'.2.2]
  exact Stage.run_complete hcomplete hpath

/-- Everything but the program points of the handlers. -/
def SameWork (s next : OperationExecutor) : Prop :=
  next.queue = s.queue ∧ next.pending = s.pending ∧ next.shutdown = s.shutdown ∧
    next.invocation = s.invocation ∧ next.worker = s.worker ∧ next.reaper = s.reaper

/-- In every interleaving: `queue_` stays inside `pending_`; every admitted
invocation is executed exactly once in the sense of `ExactlyOnce`; it is only
collected between the end of its send evaluation and its completion; a final
status never changes; and a handler that gives up disturbs none of this. -/
theorem executor_exactly_once (width : Nat) (send : Nat → Bool) (actions : List Action)
    (s : OperationExecutor) (hrun : Machine.run step (start width send) actions = some s) :
    s.queue.Sublist s.pending ∧
    (∀ i, (∃ action ∈ actions, action.admits i) → ExactlyOnce actions s i) ∧
    (∀ i outcome before after mid, actions = before ++ .reaper (.collect i outcome) :: after →
      Machine.run step (start width send) before = some mid →
      (∃ action ∈ before, action.endsSend i) ∧ (mid.invocation i).complete = false) ∧
    (∀ i more final, Machine.run step s more = some final → (s.invocation i).complete →
      (final.invocation i).complete ∧
        (final.invocation i).status = (s.invocation i).status) ∧
    (∀ i next, s.step (.handler i .giveUp) = some next → SameWork s next) := by
  refine ⟨?_, fun i hadmits => exactlyOnce_of_run hrun hadmits, ?_, ?_, ?_⟩
  · obtain ⟨g, htracks, -⟩ := run_tracks hrun
    exact htracks.queue_sublist
  · intro i outcome before after mid hsplit hbefore
    rw [hsplit] at hrun
    obtain ⟨mid', next, hbefore', hstep, -⟩ := Machine.run_split hrun
    obtain rfl : mid = mid' := Option.some.inj (hbefore.symm.trans hbefore')
    exact collect_of_run hbefore hstep
  · intro i more final hmore hcomplete
    exact complete_stable ⟨actions, hrun⟩ hmore hcomplete
  · intro i next hstep
    cases handlerStep_cases hstep
    exact ⟨rfl, rfl, rfl, rfl, rfl, rfl⟩

/-- Two workers, one direct and one failing send invocation whose handler gives up. -/
def mixedRun : List Action :=
  [.handler 0 (.admission 2 none .admitted), .handler 1 (.admission 2 none .admitted),
    .worker 0 (.pop 0), .worker 1 (.pop 1), .worker 0 (.call 0), .worker 1 (.evaluate 1),
    .worker 1 (.evaluated 1 true), .worker 1 (.recordFailure 1), .worker 1 (.markSent 1),
    .handler 1 .giveUp, .reaper (.pick 0), .reaper (.check 0), .reaper (.pick 1),
    .reaper (.check 1), .reaper (.collect 1 (.returned .sendSuccess)), .reaper (.readStatus 1),
    .reaper (.complete 1 500), .reaper (.erase 1), .worker 0 (.called 0 (.returned true)),
    .worker 0 (.complete 0 200), .worker 0 (.erase 0), .handler 0 (.respond 200)]

theorem executor_exactly_once_mixedRun :
    ∃ s, Machine.run step (start 2 (· == 1)) mixedRun = some s ∧
      s.queue.Sublist s.pending ∧ ExactlyOnce mixedRun s 0 ∧ ExactlyOnce mixedRun s 1 := by
  obtain ⟨s, hrun⟩ := Option.isSome_iff_exists.mp
    (show (Machine.run step (start 2 (· == 1)) mixedRun).isSome by decide)
  obtain ⟨hqueue, honce, -⟩ := executor_exactly_once 2 (· == 1) mixedRun s hrun
  exact ⟨s, hrun, hqueue, honce 0 (by decide), honce 1 (by decide)⟩

end RttHttp.Executor
