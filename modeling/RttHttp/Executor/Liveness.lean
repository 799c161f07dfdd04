import RttHttp.Executor.Progress

/-! # Every admitted operation is finished

An operation waits for a worker, then for RTT and then for the reaper. New operations
come behind it in both containers, so nothing that is admitted later can keep it waiting.
An executor that is shut down therefore comes to its end as soon as it admits nothing
more.
-/

namespace RttHttp.Executor

open OperationExecutor
open Machine (Path Enabled)

namespace OperationExecutor

/-- The assumptions about the surroundings of an executor: its threads are scheduled;
every operation that was sent has an answer at some time; and admissions are in time and
below a capacity. Waits on `wake_` are no actions of the model, so justice of a worker
includes that `notify_all` reaches it when it is idle, and that RTT returns from the calls
it makes. -/
structure Fair (bound : Nat) (path : Path step) : Prop where
  workers : ∀ w, path.Just (IsWorker w)
  reaper : path.Just IsReaper
  answers : ∀ i, ∃ n, ∀ m, n ≤ m →
    path.action m ≠ some (.reaper (.collect i (.returned .sendNotReady)))
  inTime : ∀ n action, path.action n = some action → (path.state n).InTime action
  capacity : ∀ n i cap, path.action n = some (.handler i (.admission cap none .admitted)) →
    cap ≤ bound

section Path

variable {width bound : Nat} {send : Nat → Bool} {path : Path step} {n i : Nat}

theorem Fair.serving (hfair : Fair bound path) (hstart : path.state 0 = start width send)
    (n : Nat) : (path.state n).Serving := by
  induction n with
  | zero =>
      rw [hstart]
      exact serving_start width send
  | succ n ih =>
      rcases path.rest_or_step n with ⟨-, hrest⟩ | ⟨action, haction, hnext⟩
      · rw [hrest]
        exact ih
      · exact ih.step (hfair.inTime n action haction) hnext

theorem width_of_path (hstart : path.state 0 = start width send) (n : Nat) :
    (path.state n).width = width := by
  have hkept : ∀ s action next, s.width = width → step s action = some next → next.width = width :=
    fun _ _ _ hs hstep => (width_of_step hstep).trans hs
  exact path.invariant hkept (by rw [hstart]; rfl) (Nat.zero_le n)

theorem Fair.pending_le (hfair : Fair bound path) (hstart : path.state 0 = start width send)
    (n : Nat) : (path.state n).pending.length ≤ bound := by
  induction n with
  | zero =>
      rw [hstart]
      exact Nat.zero_le bound
  | succ n ih =>
      rcases path.rest_or_step n with ⟨-, hrest⟩ | ⟨action, haction, hnext⟩
      · rw [hrest]
        exact ih
      · rcases pending_of_step hnext with hsub | ⟨j, cap, rfl, hcap, happend⟩
        · exact hsub.length_le.trans ih
        · rw [happend, List.length_append]
          exact (Nat.succ_le_of_lt hcap).trans (hfair.capacity n j cap haction)

/-- A queued invocation is taken out by some worker. -/
theorem Fair.dequeued (hfair : Fair bound path) (hstart : path.state 0 = start width send)
    (hwidth : 0 < width) (hi : i ∈ (path.state n).queue) :
    ∃ m, n ≤ m ∧ i ∉ (path.state m).queue := by
  apply (hfair.workers 0).reaches_of_rank (fun s => i ∈ s.queue) (fun s => i ∉ s.queue)
    (fun s => s.ahead i) hi
  · intro m _ hqueued
    have hdispatches := (hfair.serving hstart m).dispatches
    have hnonempty : (path.state m).queue ≠ [] := List.ne_nil_of_mem hqueued
    refine .inr (worker_enabled (width_of_path hstart m ▸ hwidth) ?_ fun _ => .inl hnonempty)
    intro hexited
    exact hnonempty (hdispatches.exited 0 hexited).2
  · intro m _ hqueued action _ hnext
    obtain ⟨g, htracks⟩ := (hfair.serving hstart m).tracked
    exact ahead_of_step (htracks.pending_nodup.sublist htracks.queue_sublist) hqueued hnext

/-- What a worker has taken is sent or released. -/
theorem Fair.dispatched {w : Nat} (hfair : Fair bound path)
    (hstart : path.state 0 = start width send) (hw : w < width)
    (hinvocation : ((path.state n).worker w).invocation = some i) :
    ∃ m, n ≤ m ∧ (((path.state m).invocation i).sent = true ∨ i ∉ (path.state m).pending) := by
  apply (hfair.workers w).reaches_of_rank (fun s => (s.worker w).invocation = some i)
    (fun s => (s.invocation i).sent = true ∨ i ∉ s.pending) (fun s => (s.worker w).left) hinvocation
  · intro m _ hheld
    refine .inr (worker_enabled (width_of_path hstart m ▸ hw) ?_ ?_) <;>
      (intro hpc; simp [hpc, Worker.invocation] at hheld)
  · intro m _ hheld action _ hnext
    rcases invocation_of_step hheld hnext with hsent | hgone | hkept
    · exact .inl (.inl hsent)
    · exact .inl (.inr hgone)
    · exact .inr hkept

/-- What has been sent is collected. -/
theorem Fair.collected (hfair : Fair bound path) (hstart : path.state 0 = start width send)
    (hsent : ((path.state n).invocation i).sent = true) :
    ∃ m, n ≤ m ∧ i ∉ (path.state m).pending := by
  obtain ⟨answered, hanswers⟩ := hfair.answers i
  by_cases hi : i ∈ (path.state (max n answered)).pending
  · -- From here on RTT's answer is there whenever the reaper asks for it.
    have hsent' : ((path.state (max n answered)).invocation i).sent = true :=
      path.invariant (fun _ _ _ => sent_of_step) hsent (le_max_left n answered)
    have hreach := hfair.reaper.reaches_of_rank
      (fun s => i ∈ s.pending ∧ (s.invocation i).sent = true) (fun s => i ∉ s.pending)
      (toGo bound i) ⟨hi, hsent'⟩ ?_ ?_
    · obtain ⟨m, hm, hgone⟩ := hreach
      exact ⟨m, (le_max_left n answered).trans hm, hgone⟩
    · rintro m - ⟨hpending, hmarked⟩
      refine .inr (reaper_enabled fun hexited => ?_)
      have hserving := hfair.serving hstart m
      have hdirect := hserving.direct (hserving.reaping hexited) i hpending
      rw [hserving.dispatches.sent i hmarked] at hdirect
      cases hdirect
    · rintro m hm ⟨hpending, hmarked⟩ action haction hnext
      have hanswer : action ≠ .reaper (.collect i (.returned .sendNotReady)) := by
        rintro rfl
        exact hanswers m ((le_max_right n answered).trans hm) haction
      rcases toGo_of_step (hfair.serving hstart m) hpending hmarked (hfair.pending_le hstart m)
        hanswer hnext with hgone | ⟨hkept, hrank⟩
      · exact .inl hgone
      · exact .inr ⟨⟨hkept, sent_of_step hmarked hnext⟩, hrank⟩
  · exact ⟨_, le_max_left n answered, hi⟩

/-- Nothing stays pending for ever. -/
theorem Fair.released (hfair : Fair bound path) (hstart : path.state 0 = start width send)
    (hwidth : 0 < width) (n i : Nat) : ∃ m, n ≤ m ∧ i ∉ (path.state m).pending := by
  -- From a moment at which it is not queued any more.
  have hlater : ∀ m, i ∉ (path.state m).queue → ∃ k, m ≤ k ∧ i ∉ (path.state k).pending := by
    intro m hqueue
    by_cases hi : i ∈ (path.state m).pending
    · rcases (hfair.serving hstart m).placed hi with hqueued | ⟨w, hw, hinvocation⟩ | hsent
      · exact absurd hqueued hqueue
      · rw [width_of_path hstart] at hw
        obtain ⟨k, hk, hsent | hgone⟩ := hfair.dispatched hstart hw hinvocation
        · obtain ⟨j, hj, hgone⟩ := hfair.collected hstart hsent
          exact ⟨j, hk.trans hj, hgone⟩
        · exact ⟨k, hk, hgone⟩
      · exact hfair.collected hstart hsent
    · exact ⟨m, le_rfl, hi⟩
  by_cases hqueued : i ∈ (path.state n).queue
  · obtain ⟨m, hm, hqueue⟩ := hfair.dequeued hstart hwidth hqueued
    obtain ⟨k, hk, hgone⟩ := hlater m hqueue
    exact ⟨k, hm.trans hk, hgone⟩
  · exact hlater n hqueued

/-- What is pending once nothing more is admitted was pending before. -/
theorem pending_sublist {m k : Nat} (hquiet : ∀ l, m ≤ l → ∀ i cap,
      path.action l ≠ some (.handler i (.admission cap none .admitted))) (hle : m ≤ k) :
    (path.state k).pending.Sublist (path.state m).pending := by
  induction k, hle using Nat.le_induction with
  | base => exact List.Sublist.refl _
  | succ k hk ih =>
      rcases path.rest_or_step k with ⟨-, hrest⟩ | ⟨action, haction, hnext⟩
      · rw [hrest]
        exact ih
      · rcases pending_of_step hnext with hsub | ⟨i, cap, rfl, -, -⟩
        · exact hsub.trans ih
        · exact absurd haction (hquiet k hk i cap)

/-- `drain()` finds nothing pending at some time. -/
theorem Fair.drained (hfair : Fair bound path) (hstart : path.state 0 = start width send)
    (hwidth : 0 < width) (hquiet : ∀ l, n ≤ l → ∀ i cap,
      path.action l ≠ some (.handler i (.admission cap none .admitted))) :
    ∃ m, n ≤ m ∧ ∀ k, m ≤ k → (path.state k).pending = [] := by
  have hempty : ∃ m, n ≤ m ∧ (path.state m).pending = [] := by
    refine Path.exists_of_descent (fun _ => True) (fun m => (path.state m).pending.length)
      trivial fun m hm _ => ?_
    cases hpending : (path.state m).pending with
    | nil => exact ⟨m, le_rfl, .inl hpending⟩
    | cons i rest =>
        obtain ⟨k, hk, hgone⟩ := hfair.released hstart hwidth m i
        have hsub := pending_sublist (fun l hl => hquiet l (hm.trans hl)) hk
        refine ⟨k, hk, .inr ⟨trivial, ?_⟩⟩
        rw [← hpending]
        refine Nat.lt_of_le_of_ne hsub.length_le fun heq => hgone ?_
        rw [hsub.eq_of_length heq, hpending]
        exact List.mem_cons_self
  obtain ⟨m, hm, hempty⟩ := hempty
  refine ⟨m, hm, fun k hk => ?_⟩
  have hsub := pending_sublist (fun l hl => hquiet l (hm.trans hl)) hk
  rw [hempty] at hsub
  exact List.sublist_nil.mp hsub

end Path

/-! ## Shutting down -/

section Path

variable {width bound : Nat} {send : Nat → Bool} {path : Path step} {n : Nat}

/-- A worker of a closed executor leaves. -/
theorem Fair.worker_exits {w : Nat} (hfair : Fair bound path)
    (hstart : path.state 0 = start width send) (hw : w < width)
    (hmarked : (path.state n).shutdown = true)
    (hempty : ∀ k, n ≤ k → (path.state k).pending = []) :
    ∃ m, n ≤ m ∧ ∀ k, m ≤ k → (path.state k).worker w = .exited := by
  have hreach : ∃ m, n ≤ m ∧ (path.state m).worker w = .exited := by
    apply (hfair.workers w).reaches_of_rank (fun s => s.shutdown = true)
      (fun s => s.worker w = .exited) (fun _ => 0) hmarked
    · intro m hm hshutdown
      by_cases hexited : (path.state m).worker w = .exited
      · exact .inl hexited
      · exact .inr (worker_enabled (width_of_path hstart m ▸ hw) hexited fun _ => .inr hshutdown)
    · intro m hm hshutdown action _ hnext
      by_cases hmine : IsWorker w action
      · obtain ⟨own, rfl⟩ := hmine
        exact .inl (exited_of_workerStep (hfair.serving hstart m) (hempty m hm) hnext)
      · exact .inr ⟨shutdown_of_step hnext hshutdown, .inr ⟨rfl, hmine⟩⟩
  obtain ⟨m, hm, hexited⟩ := hreach
  exact ⟨m, hm, fun k hk =>
    path.invariant (fun _ _ _ hs hstep => (exited_of_step hstep).1 w hs) hexited hk⟩

theorem Fair.reaper_exits (hfair : Fair bound path) (hmarked : (path.state n).shutdown = true)
    (hempty : ∀ k, n ≤ k → (path.state k).pending = []) :
    ∃ m, n ≤ m ∧ ∀ k, m ≤ k → (path.state k).reaper = .exited := by
  have hreach : ∃ m, n ≤ m ∧ (path.state m).reaper = .exited := by
    apply hfair.reaper.reaches_of_rank (fun s => s.shutdown = true)
      (fun s => s.reaper = .exited) (fun s => s.reaper.last) hmarked
    · intro m hm _
      by_cases hexited : (path.state m).reaper = .exited
      · exact .inl hexited
      · exact .inr (reaper_enabled hexited)
    · intro m hm hshutdown action _ hnext
      refine .inr ⟨shutdown_of_step hnext hshutdown, ?_⟩
      by_cases hmine : IsReaper action
      · obtain ⟨own, rfl⟩ := hmine
        exact .inl (last_of_reaperStep (hempty m hm) hshutdown hnext)
      · exact .inr ⟨by rw [reaper_of_step hnext hmine], hmine⟩
  obtain ⟨m, hm, hexited⟩ := hreach
  exact ⟨m, hm, fun k hk =>
    path.invariant (fun _ _ _ hs hstep => (exited_of_step hstep).2 hs) hexited hk⟩

/-- All threads of a closed executor leave. -/
theorem Fair.threads_exit (hfair : Fair bound path) (hstart : path.state 0 = start width send)
    (hmarked : (path.state n).shutdown = true)
    (hempty : ∀ k, n ≤ k → (path.state k).pending = []) :
    ∃ m, n ≤ m ∧ ∀ k, m ≤ k →
      (∀ w < width, (path.state k).worker w = .exited) ∧ (path.state k).reaper = .exited := by
  have hworkers : ∀ v ≤ width, ∃ m, n ≤ m ∧ ∀ k, m ≤ k → ∀ w < v,
      (path.state k).worker w = .exited := by
    intro v
    induction v with
    | zero => exact fun _ => ⟨n, le_rfl, fun _ _ w hw => absurd hw (Nat.not_lt_zero w)⟩
    | succ v ih =>
        intro hv
        obtain ⟨m, hm, hbelow⟩ := ih (Nat.le_of_succ_le hv)
        obtain ⟨l, hl, hlast⟩ := hfair.worker_exits hstart hv hmarked hempty
        refine ⟨max m l, hm.trans (le_max_left m l), fun k hk w hw => ?_⟩
        rcases Nat.lt_succ_iff_lt_or_eq.mp hw with hlt | rfl
        · exact hbelow k ((le_max_left m l).trans hk) w hlt
        · exact hlast k ((le_max_right m l).trans hk)
  obtain ⟨m, hm, hworkers⟩ := hworkers width le_rfl
  obtain ⟨l, hl, hreaper⟩ := hfair.reaper_exits hmarked hempty
  exact ⟨max m l, hm.trans (le_max_left m l), fun k hk =>
    ⟨hworkers k ((le_max_left m l).trans hk), hreaper k ((le_max_right m l).trans hk)⟩⟩

/-- A thread that waits for the others to leave waits until it has closed the executor. -/
theorem joining_of_path {m : Nat} (hjoining : (path.state n).closer = .joining) (hle : n ≤ m) :
    (path.state m).closer = .joining ∨ ∃ k, n ≤ k ∧ (path.state k).closer = .closed := by
  induction m, hle using Nat.le_induction with
  | base => exact .inl hjoining
  | succ m hm ih =>
      rcases ih with hstill | hclosed
      · rcases path.rest_or_step m with ⟨-, hrest⟩ | ⟨action, -, hnext⟩
        · exact .inl (by rw [hrest]; exact hstill)
        · exact (closed_of_joining hstill hnext).imp_right
            fun hclosed => ⟨m + 1, hm.trans (Nat.le_succ m), hclosed⟩
      · exact .inr hclosed

/-- A `shutdown()` that has begun returns, once nothing more is admitted. -/
theorem Fair.closed (hfair : Fair bound path) (hcloser : path.Just IsCloser)
    (hstart : path.state 0 = start width send) (hwidth : 0 < width)
    (hbegun : (path.state n).closer ≠ .opened) (hquiet : ∀ l, n ≤ l → ∀ i cap,
      path.action l ≠ some (.handler i (.admission cap none .admitted))) :
    ∃ m, n ≤ m ∧ (path.state m).closer = .closed := by
  by_cases hnow : (path.state n).closer = .closed
  · exact ⟨n, le_rfl, hnow⟩
  obtain ⟨m, hm, hempty⟩ := hfair.drained hstart hwidth hquiet
  by_contra hnever
  have hopen : ∀ k, n ≤ k → (path.state k).closer ≠ .closed :=
    fun k hk hclosed => hnever ⟨k, hk, hclosed⟩
  have hinside : ∀ k, n ≤ k → (path.state k).closer ≠ .opened := by
    intro k hk
    exact path.invariant (fun _ _ _ => begun_of_step) hbegun hk
  -- The executor is closed once nothing is pending.
  have hjoining : ∃ k, m ≤ k ∧ (path.state k).closer = .joining := by
    apply hcloser.reaches_of_rank (fun _ => True) (fun s => s.closer = .joining)
      (fun s => s.closer.last) trivial
    · intro k hk _
      by_cases hpc : (path.state k).closer = .joining
      · exact .inl hpc
      · exact .inr (closer_enabled (fun _ => hempty k hk) (fun heq => absurd heq hpc)
          (hinside k (hm.trans hk)) (hopen k (hm.trans hk)))
    · intro k hk _ action _ hnext
      refine .inr ⟨trivial, ?_⟩
      by_cases hmine : IsCloser action
      · exact .inl (last_of_closerStep hmine hnext)
      · have hsame := closer_of_other hmine (hinside k (hm.trans hk)) (hopen k (hm.trans hk)) hnext
        exact .inr ⟨by rw [hsame], hmine⟩
  obtain ⟨k, hk, hjoining⟩ := hjoining
  have hmarked := (hfair.serving hstart k).closing.marked (.inl hjoining)
  obtain ⟨l, hl, hleft⟩ := hfair.threads_exit hstart hmarked fun j hj => hempty j (hk.trans hj)
  have hstill : ∀ j, l ≤ j → (path.state j).closer = .joining := by
    intro j hj
    refine (joining_of_path hjoining (hl.trans hj)).resolve_right ?_
    rintro ⟨i, hi, hclosed⟩
    exact hopen i (hm.trans (hk.trans hi)) hclosed
  -- Now the thread inside `shutdown()` has everything it waits for.
  obtain ⟨j, hj, action, haction, hmine⟩ := hcloser l fun j hj => by
    refine closer_enabled (fun hpc => ?_) (fun _ => ?_) ?_ ?_
    · rw [hstill j hj] at hpc
      cases hpc
    · rw [width_of_path hstart]
      exact hleft j hj
    · rw [hstill j hj]
      simp
    · rw [hstill j hj]
      simp
  have hlower := last_of_closerStep hmine (path.step_of_action haction)
  rw [hstill j hj, hstill (j + 1) (hj.trans (Nat.le_succ j))] at hlower
  exact Nat.lt_irrefl _ hlower

end Path

/-- What has been admitted and released does not become pending again. -/
theorem released_of_step {s next : OperationExecutor} {action : Action} {i : Nat}
    (hadmitted : s.Admitted i) (hgone : i ∉ s.pending) (hstep : s.step action = some next) :
    next.Admitted i ∧ i ∉ next.pending := by
  refine ⟨hadmitted.step hstep, fun hnext => ?_⟩
  rcases pending_of_step hstep with hsub | ⟨j, cap, rfl, -, happend⟩
  · exact hgone (hsub.subset hnext)
  · rw [happend] at hnext
    have hself : i = j := List.mem_singleton.mp ((List.mem_append.mp hnext).resolve_left hgone)
    subst hself
    cases handlerStep_cases hstep with
    | admission hpc => simp [Admitted, hpc] at hadmitted

/-- In every fair schedule of an executor with threads, whatever else is admitted in the
meantime, each admitted operation is complete and released at some time and stays so; and
a `shutdown()` that has begun returns if nothing more is admitted. -/
theorem operations_finished (width bound : Nat) (send : Nat → Bool) (path : Path step)
    (hstart : path.state 0 = start width send) (hwidth : 0 < width) (hfair : Fair bound path) :
    (∀ n i, (path.state n).Admitted i → ∃ m, n ≤ m ∧ ∀ k, m ≤ k →
      ((path.state k).invocation i).complete = true ∧ i ∉ (path.state k).pending) ∧
    (path.Just IsCloser → ∀ n, (path.state n).closer ≠ .opened →
      (∀ m, n ≤ m → ∀ i cap,
        path.action m ≠ some (.handler i (.admission cap none .admitted))) →
      ∃ m, n ≤ m ∧ (path.state m).closer = .closed) := by
  refine ⟨fun n i hadmitted => ?_, fun hcloser n hbegun hquiet => ?_⟩
  · obtain ⟨m, hm, hgone⟩ := hfair.released hstart hwidth n i
    refine ⟨m, hm, fun k hk => ?_⟩
    have hkept : ∀ (s : OperationExecutor) action next, s.Admitted i →
        step s action = some next → next.Admitted i := fun _ _ _ hs hstep => hs.step hstep
    have hreleased : ∀ (s : OperationExecutor) action next, s.Admitted i ∧ i ∉ s.pending →
        step s action = some next → next.Admitted i ∧ i ∉ next.pending :=
      fun _ _ _ hs hstep => released_of_step hs.1 hs.2 hstep
    obtain ⟨hstill, hfree⟩ :=
      path.invariant hreleased ⟨path.invariant hkept hadmitted hm, hgone⟩ hk
    obtain ⟨g, htracks⟩ := (hfair.serving hstart k).tracked
    exact ⟨htracks.complete_of_admitted hstill hfree, hfree⟩
  · exact hfair.closed hcloser hstart hwidth hbegun hquiet

section Rest

variable {s : OperationExecutor} {action : Action}

theorem worker_rests {w : Nat} (hexited : ∀ w < s.width, s.worker w = .exited)
    (hmine : IsWorker w action) : s.step action = none := by
  obtain ⟨own, rfl⟩ := hmine
  rcases Nat.lt_or_ge w s.width with hw | hw
  · simp [step, workerStep, hexited w hw]
  · simp [step, workerStep, hw]

theorem reaper_rests (hexited : s.reaper = .exited) (hmine : IsReaper action) :
    s.step action = none := by
  obtain ⟨own, rfl⟩ := hmine
  simp [step, reaperStep, hexited]

theorem closer_rests (hclosed : s.closer = .closed) (hmine : IsCloser action) :
    s.step action = none := by
  obtain ⟨own, rfl, hclosing⟩ := hmine
  cases own <;> simp_all [step, closerStep]

end Rest

/-- A direct call and a sent one, which RTT has not answered when the reaper first asks,
and a shutdown that waits for both. -/
def answeredLate : List Action :=
  [.handler 0 (.admission 2 none .admitted), .handler 1 (.admission 2 none .admitted),
    .closer .begin, .worker 0 (.pop 0), .worker 0 (.call 0), .worker 0 (.called 0 (.returned true)),
    .worker 0 (.complete 0 200), .worker 0 (.erase 0), .worker 0 (.pop 1), .worker 0 (.evaluate 1),
    .worker 0 (.evaluated 1 false), .worker 0 (.markSent 1), .reaper (.pick 1), .reaper (.check 1),
    .reaper (.collect 1 (.returned .sendNotReady)), .reaper .endScan, .reaper .wait,
    .reaper (.pick 1), .reaper (.check 1), .reaper (.collect 1 (.returned .sendSuccess)),
    .reaper (.readStatus 1), .reaper (.complete 1 200), .reaper (.erase 1), .closer .drained,
    .closer .close, .worker 0 .exit, .reaper .endScan, .reaper .exit, .closer .joined]

/-- Admissions below two. -/
def BelowTwo : Action → Bool
  | .handler _ (.admission cap none .admitted) => cap ≤ 2
  | _ => true

theorem operations_finished_answeredLate :
    ∃ path : Path step, path.state 0 = start 1 (· == 1) ∧ (path.state 2).Admitted 1 ∧
      ((path.state 2).invocation 1).complete = false ∧
      ∃ m, 2 ≤ m ∧ ∀ k, m ≤ k →
        ((path.state k).invocation 1).complete = true ∧ 1 ∉ (path.state k).pending := by
  obtain ⟨s, hrun⟩ := Option.isSome_iff_exists.mp
    (show (Machine.run step (start 1 (· == 1)) answeredLate).isSome by decide)
  have hobserved : (Machine.run step (start 1 (· == 1)) answeredLate).any
      (fun s => decide (s.width = 1) && decide (s.worker 0 = .exited) &&
        decide (s.reaper = .exited)) := by decide
  rw [hrun] at hobserved
  simp only [Option.any_some, Bool.and_eq_true, decide_eq_true_eq] at hobserved
  obtain ⟨⟨hwidth, hworker⟩, hreaper⟩ := hobserved
  have hcaps : Machine.Along step (fun _ action => BelowTwo action) (start 1 (· == 1))
      answeredLate := by decide
  have hfair : Fair 2 (Path.resting hrun) := by
    refine ⟨fun w => ?_, ?_, fun i => ⟨answeredLate.length, ?_⟩, ?_, ?_⟩
    · have hexited : ∀ w < s.width, s.worker w = .exited := by
        intro w hw
        obtain rfl : w = 0 := by omega
        exact hworker
      exact Path.just_resting fun _ => worker_rests hexited
    · exact Path.just_resting fun _ => reaper_rests hreaper
    · intro m hm haction
      change answeredLate[m]? = _ at haction
      rw [List.getElem?_eq_none hm] at haction
      cases haction
    · intro n action haction
      exact Path.along_resting (show Machine.Along step InTime _ answeredLate by decide) haction
    · intro n i cap haction
      have hcap := Path.along_resting hcaps haction
      simpa [BelowTwo] using hcap
  have hadmitted : ((Path.resting hrun).state 2).Admitted 1 := trivial
  exact ⟨Path.resting hrun, rfl, hadmitted, rfl,
    (operations_finished 1 2 (· == 1) (Path.resting hrun) rfl (by decide) hfair).1 2 1 hadmitted⟩

end OperationExecutor

end RttHttp.Executor
