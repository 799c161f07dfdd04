import RttHttp.Executor.Simulation

/-! # When capacity is released

`finish` makes completion visible in one critical section and gives the
`pending_` entry back in a second one under another mutex. A handler polls the
first flag on its own, so it can answer, and a client can come back, while the
entry is still counted. This module states what capacity release is meant to
give, and which interleavings do give it.
-/

namespace RttHttp.Executor

open OperationExecutor

/-- The invocation a worker has completed and not yet erased. -/
def Worker.erasing? : Worker → Option Nat
  | .erasing i => some i
  | _ => none

def Reaper.erasing? : Reaper → Option Nat
  | .erasing _ i => some i
  | _ => none

/-- The invocations whose `finish` is between its two critical sections. -/
def OperationExecutor.midFinish (s : OperationExecutor) : List Nat :=
  (List.range s.width).filterMap (fun w => (s.worker w).erasing?) ++ s.reaper.erasing?.toList

/-- A handler leaves its wait loop, or finds no room when it asks for admission, at a
moment when no `finish` that concerns it is between its two critical sections. -/
def OutsideFinish (s : OperationExecutor) : Action → Prop
  | .handler i (.respond _) => i ∉ s.midFinish
  | .handler _ (.admission cap _ _) => s.shutdown = true ∨ s.pending.length < cap ∨ s.midFinish = []
  | _ => True

instance (s : OperationExecutor) : ∀ action, Decidable (OutsideFinish s action)
  | .handler i (.respond _) => inferInstanceAs (Decidable (i ∉ s.midFinish))
  | .handler _ (.admission cap _ _) =>
      inferInstanceAs (Decidable (s.shutdown = true ∨ s.pending.length < cap ∨ s.midFinish = []))
  | .handler _ .giveUp | .worker _ _ | .reaper _ | .closer _ => inferInstanceAs (Decidable True)

/-- The pending invocations that are really incomplete. -/
def OperationExecutor.incomplete (s : OperationExecutor) : Nat :=
  s.pending.countP fun i => !(s.invocation i).complete

/-- Every handler that has called for admission has had its final answer, as for
a single client that waits for each completed response before its next request. -/
def OperationExecutor.Answered (s : OperationExecutor) : Prop :=
  ∀ i, s.handler i ≠ .waiting ∧ s.handler i ≠ .gaveUp

/-- Capacity is released no later than completion becomes visible: an answered
invocation is not pending; a refusal for capacity finds that many incomplete
invocations; and a client whose calls are all answered is never refused. -/
structure ReleasesInTime (width : Nat) (send : Nat → Bool) (actions : List Action) : Prop where
  released : ∀ before after s i status, actions = before ++ after →
    Machine.run step (start width send) before = some s → s.handler i = .responded status →
    i ∉ s.pending
  refused : ∀ before after s i cap fault,
    actions = before ++ .handler i (.admission cap fault .refused) :: after →
    Machine.run step (start width send) before = some s → s.shutdown = false → cap ≤ s.incomplete
  sequential : ∀ before after s i cap fault,
    actions = before ++ .handler i (.admission cap fault .refused) :: after →
    Machine.run step (start width send) before = some s → s.shutdown = false → 1 ≤ cap →
    ¬ s.Answered

/-- A completed invocation that is still pending is between the two sections. -/
theorem Tracks.mem_midFinish {s : OperationExecutor} {g : Nat → Stage} (h : Tracks s g)
    {i : Nat} (hpending : i ∈ s.pending) (hcomplete : (s.invocation i).complete) :
    i ∈ s.midFinish := by
  have hat := h.tracked i
  have hretained := hat.mem_pending.mp hpending
  rw [hat.flags.2.1] at hcomplete
  cases hg : g i with
  | completed finisher status =>
      cases finisher with
      | none =>
          obtain ⟨index, hreaper⟩ := hat.reaped status hg
          refine List.mem_append_right _ ?_
          simp [hreaper, Reaper.erasing?]
      | some w =>
          obtain ⟨hworker, hwidth⟩ := hat.owned w _ (by rw [hg]; rfl)
          refine List.mem_append_left _ (List.mem_filterMap.mpr ⟨w, List.mem_range.mpr hwidth, ?_⟩)
          rw [hworker]
          rfl
  | _ => simp_all [Stage.retained, Stage.complete]

/-- An answered invocation has left `pending_`. -/
def AnsweredReleased (s : OperationExecutor) : Prop :=
  (∃ g, Tracks s g) ∧ ∀ i status, s.handler i = .responded status → i ∉ s.pending

/-- Only admission adds to `pending_`, and only a prepared invocation. -/
theorem mem_pending_of_step {s next : OperationExecutor} {action : Action}
    (hstep : s.step action = some next) {i : Nat} (hmem : i ∈ next.pending) :
    i ∈ s.pending ∨ s.handler i = .prepared := by
  cases action with
  | worker w action =>
      cases (workerStep_cases hstep).2 <;> first
        | exact Or.inl hmem
        | exact Or.inl (List.mem_of_mem_filter hmem)
  | reaper action =>
      cases reaperStep_cases hstep <;> first
        | exact Or.inl hmem
        | exact Or.inl (List.mem_of_mem_filter hmem)
  | handler j action =>
      cases handlerStep_cases hstep with
      | admission hpc =>
          simp only [setHandler, List.mem_append, List.mem_singleton] at hmem
          rcases hmem with hmem | rfl
          · exact Or.inl hmem
          · exact Or.inr hpc
      | _ => exact Or.inl hmem
  | closer action =>
      cases closerStep_cases hstep <;> exact Or.inl hmem

theorem answeredReleased_step (s : OperationExecutor) (action : Action) (next : OperationExecutor)
    (h : AnsweredReleased s) (hallowed : OutsideFinish s action)
    (hstep : s.step action = some next) : AnsweredReleased next := by
  obtain ⟨⟨g, htracks⟩, hreleased⟩ := h
  refine ⟨htracks.exists_step hstep, ?_⟩
  intro i status hresponded hmem
  rcases mem_pending_of_step hstep hmem with hpending | hprepared
  · rcases handler_of_step hstep i with hsame | ⟨own, rfl⟩
    · exact hreleased i status (hsame ▸ hresponded) hpending
    · cases handlerStep_cases hstep with
      | respond hpc hcomplete =>
          exact hallowed (htracks.mem_midFinish hpending hcomplete)
      | _ => simp [setHandler] at hresponded
  · rcases handler_of_step hstep i with hsame | ⟨own, rfl⟩
    · rw [hsame, hprepared] at hresponded
      cases hresponded
    · cases handlerStep_cases hstep with
      | respond hpc => simp [hpc] at hprepared
      | _ => simp [setHandler] at hresponded

theorem answeredReleased_start (width : Nat) (send : Nat → Bool) :
    AnsweredReleased (start width send) :=
  ⟨⟨_, tracks_start width send⟩, fun _ _ hresponded => by simp [start] at hresponded⟩

/-- Outside the two sections of `finish`, every pending invocation is incomplete. -/
theorem Tracks.incomplete_eq {s : OperationExecutor} {g : Nat → Stage} (h : Tracks s g)
    (hquiet : s.midFinish = []) : s.incomplete = s.pending.length := by
  rw [incomplete, List.countP_eq_length]
  intro i hi
  by_contra hcomplete
  simp only [Bool.not_eq_eq_eq_not, Bool.not_true, Bool.not_eq_false] at hcomplete
  have hmem := h.mem_midFinish hi hcomplete
  rw [hquiet] at hmem
  exact List.not_mem_nil hmem

/-- A pending incomplete invocation still has its handler waiting or gone. -/
theorem Tracks.not_answered {s : OperationExecutor} {g : Nat → Stage} (h : Tracks s g)
    (hincomplete : 0 < s.incomplete) : ¬ s.Answered := by
  intro hanswered
  obtain ⟨i, hpending, hopen⟩ := List.countP_pos_iff.mp hincomplete
  have hat := h.tracked i
  have hadmitted := Stage.admitted_of_retained (hat.mem_pending.mp hpending)
  rw [hat.flags.2.1, Bool.not_eq_true', ] at hopen
  have hhandling := hat.handling
  cases hpc : s.handler i with
  | waiting => exact (hanswered i).1 hpc
  | gaveUp => exact (hanswered i).2 hpc
  | responded status =>
      rw [hpc] at hhandling
      exact absurd hhandling.1 (by simp [hopen])
  | _ =>
      rw [hpc, Handler.Agrees] at hhandling
      rw [hhandling] at hadmitted
      simp [Stage.admitted] at hadmitted

/-- In every run in which no handler leaves its wait loop, or finds no room, between the
two critical sections of a `finish` that concerns it, capacity is released no later than
completion becomes visible. -/
theorem releasesInTime_of_outsideFinish (width : Nat) (send : Nat → Bool) (actions : List Action)
    (final : OperationExecutor) (hrun : Machine.run step (start width send) actions = some final)
    (hallowed : Machine.Along step OutsideFinish (start width send) actions) :
    ReleasesInTime width send actions := by
  have hreached : ∀ before after s, actions = before ++ after →
      Machine.run step (start width send) before = some s → AnsweredReleased s := by
    intro before after s hsplit hbefore
    rw [hsplit] at hallowed
    exact Machine.run_invariant_of answeredReleased_step (answeredReleased_start width send)
      hallowed.of_append hbefore
  have hrefused : ∀ before after s i cap fault,
      actions = before ++ .handler i (.admission cap fault .refused) :: after →
      Machine.run step (start width send) before = some s → s.shutdown = false →
      cap ≤ s.incomplete := by
    intro before after s i cap fault hsplit hbefore hopen
    obtain ⟨⟨g, htracks⟩, -⟩ := hreached before _ s hsplit hbefore
    rw [hsplit] at hrun hallowed
    obtain ⟨mid, next, hmid, hstep, -⟩ := Machine.run_split hrun
    obtain rfl : s = mid := Option.some.inj (hbefore.symm.trans hmid)
    have hfull : cap ≤ s.pending.length := by
      cases handlerStep_cases hstep with
      | refuse hpc hrefuse => simpa [hopen] using hrefuse
    have houtside : s.shutdown = true ∨ s.pending.length < cap ∨ s.midFinish = [] :=
      (hallowed.split hbefore).2
    rcases houtside with hshut | hroom | hquiet
    · rw [hopen] at hshut
      cases hshut
    · exact absurd hfull (Nat.not_le.mpr hroom)
    · rwa [htracks.incomplete_eq hquiet]
  refine ⟨?_, hrefused, ?_⟩
  · intro before after s i status hsplit hbefore hresponded
    exact (hreached before after s hsplit hbefore).2 i status hresponded
  · intro before after s i cap fault hsplit hbefore hopen hcap
    obtain ⟨⟨g, htracks⟩, -⟩ := hreached before _ s hsplit hbefore
    have hincomplete := hrefused before after s i cap fault hsplit hbefore hopen
    exact htracks.not_answered (by omega)

/-- One slot, one client: the completed response goes out between the two
sections of `finish`, and the client's next request is refused. -/
def earlyAnswer : List Action :=
  [.handler 0 (.admission 1 none .admitted), .worker 0 (.pop 0), .worker 0 (.call 0),
    .worker 0 (.called 0 (.returned true)), .worker 0 (.complete 0 200), .handler 0 (.respond 200),
    .handler 1 (.admission 1 none .refused)]

theorem earlyAnswer_not_releasesInTime :
    (Machine.run step (start 1 fun _ => false) earlyAnswer).isSome ∧
      ¬ ReleasesInTime 1 (fun _ => false) earlyAnswer := by
  refine ⟨by decide, fun h => ?_⟩
  obtain ⟨s, hrun⟩ := Option.isSome_iff_exists.mp
    (show (Machine.run step (start 1 fun _ => false) (earlyAnswer.take 6)).isSome by decide)
  have hobserved : (Machine.run step (start 1 fun _ => false) (earlyAnswer.take 6)).any
      (fun s => decide (s.handler 0 = .responded 200) && decide (0 ∈ s.pending)) := by decide
  rw [hrun] at hobserved
  simp only [Option.any_some, Bool.and_eq_true, decide_eq_true_eq] at hobserved
  exact h.released (earlyAnswer.take 6) (earlyAnswer.drop 6) s 0 200 (List.take_append_drop 6 _).symm
    hrun hobserved.1 hobserved.2

/-- The same requests with the release before the answer. -/
def lateAnswer : List Action :=
  [.handler 0 (.admission 1 none .admitted), .worker 0 (.pop 0), .worker 0 (.call 0),
    .worker 0 (.called 0 (.returned true)), .worker 0 (.complete 0 200), .worker 0 (.erase 0),
    .handler 0 (.respond 200), .handler 1 (.admission 1 none .admitted)]

theorem releasesInTime_lateAnswer : ReleasesInTime 1 (fun _ => false) lateAnswer := by
  obtain ⟨s, hrun⟩ := Option.isSome_iff_exists.mp
    (show (Machine.run step (start 1 fun _ => false) lateAnswer).isSome by decide)
  exact releasesInTime_of_outsideFinish 1 (fun _ => false) lateAnswer s hrun (by decide)

end RttHttp.Executor
