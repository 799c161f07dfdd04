import RttHttp.Executor.Order
import RttHttp.Machine.Fair
import Mathlib.Data.Prod.Lex
import Mathlib.Tactic.Linarith

/-! # The threads of an executor make progress

What a state of an executor promises about its next steps: a worker that is not idle can
go on, and so can an idle one beside a queue that is not empty; each step of a worker
brings it nearer to the queue again. The reaper can go on until it has left, and it leaves
only when nothing is pending that it would have to collect.
-/

namespace RttHttp.Executor

open OperationExecutor
open Machine (Enabled)

/-- How many steps a worker takes before it looks into the queue again. -/
def Worker.left : Worker → Nat
  | .idle | .exited => 0
  | .erasing _ | .sending _ => 1
  | .finishing _ _ | .caught _ => 2
  | .calling _ | .evaluating _ => 3
  | .holding _ => 4

theorem Worker.left_le (worker : Worker) : worker.left ≤ 4 := by
  cases worker <;> simp [left]

namespace OperationExecutor

variable {s next : OperationExecutor} {action : Action}

/-- What holds in every state of an executor whose admissions are in time. -/
structure Serving (s : OperationExecutor) : Prop where
  tracked : ∃ g, Tracks s g
  dispatches : Dispatches s
  closing : Closing s
  direct : s.shutdown = true → ∀ i ∈ s.pending, (s.invocation i).send = false
  reaping : s.reaper = .exited → s.shutdown = true

theorem serving_start (width : Nat) (send : Nat → Bool) : Serving (start width send) where
  tracked := ⟨_, tracks_start width send⟩
  dispatches := dispatches_start width send
  closing := closing_start width send
  direct := by simp [start]
  reaping := by simp [start]

theorem Serving.step (h : s.Serving) (hallowed : s.InTime action)
    (hstep : s.step action = some next) : next.Serving := by
  obtain ⟨g, htracks⟩ := h.tracked
  refine ⟨htracks.exists_step hstep, h.dispatches.step hstep,
    h.closing.step htracks h.dispatches hallowed hstep, ?_, ?_⟩
  · intro hshutdown i hi
    rw [send_of_step hstep]
    rcases pending_of_step hstep with hsublist | ⟨j, cap, rfl, -, -⟩
    · have hold := hsublist.subset hi
      by_cases hbefore : s.shutdown = true
      · exact h.direct hbefore i hold
      · -- Only `close` sets the flag, after `drain()`.
        cases action with
        | worker w action => cases (workerStep_cases hstep).2 <;> exact absurd hshutdown hbefore
        | reaper action => cases reaperStep_cases hstep <;> exact absurd hshutdown hbefore
        | handler j action => cases handlerStep_cases hstep <;> exact absurd hshutdown hbefore
        | closer action =>
            cases closerStep_cases hstep with
            | close hpc => exact (h.closing.direct (.inl hpc) i hold).1
            | _ => exact absurd hshutdown hbefore
    · cases handlerStep_cases hstep with
      | admission _ hopen =>
          rw [show s.shutdown = true from hshutdown] at hopen
          cases hopen
  · intro hexited
    by_cases hbefore : s.reaper = .exited
    · exact shutdown_of_step hstep (h.reaping hbefore)
    · cases action with
      | worker w action => cases (workerStep_cases hstep).2 <;> exact absurd hexited hbefore
      | reaper action =>
          cases reaperStep_cases hstep with
          | exit _ hshutdown => exact hshutdown
          | _ => cases hexited
      | handler i action => cases handlerStep_cases hstep <;> exact absurd hexited hbefore
      | closer action => cases closerStep_cases hstep <;> exact absurd hexited hbefore

/-- A step of the worker `w`. -/
def IsWorker (w : Nat) (action : Action) : Prop := ∃ own, action = .worker w own

/-- A step of the reaper. -/
def IsReaper (action : Action) : Prop := ∃ own, action = .reaper own

/-- A step of a thread that is inside `shutdown()`. -/
def IsCloser (action : Action) : Prop := ∃ own, action = .closer own ∧ own ≠ .begin

/-- A worker that has not left can go on, unless it waits for something to be queued. -/
theorem worker_enabled {w : Nat} (hw : w < s.width) (hexited : s.worker w ≠ .exited)
    (hidle : s.worker w = .idle → s.queue ≠ [] ∨ s.shutdown = true) : Enabled step (IsWorker w) s := by
  have hsuffices : ∀ own, (s.workerStep w own).isSome → Enabled step (IsWorker w) s :=
    fun own hsome => ⟨.worker w own, ⟨own, rfl⟩, hsome⟩
  have hnot : ¬s.width ≤ w := Nat.not_le.mpr hw
  cases hpc : s.worker w with
  | idle =>
      cases hqueue : s.queue with
      | nil =>
          have hshutdown := (hidle hpc).resolve_left (by simp [hqueue])
          exact hsuffices .exit (by simp [workerStep, hnot, hpc, hqueue, hshutdown])
      | cons i rest => exact hsuffices (.pop i) (by simp [workerStep, hnot, hpc, hqueue])
  | holding i =>
      cases hsend : (s.invocation i).send with
      | false => exact hsuffices (.call i) (by simp [workerStep, hnot, hpc, hsend])
      | true => exact hsuffices (.evaluate i) (by simp [workerStep, hnot, hpc, hsend])
  | calling i => exact hsuffices (.called i .threw) (by simp [workerStep, hnot, hpc])
  | evaluating i => exact hsuffices (.evaluated i true) (by simp [workerStep, hnot, hpc])
  | caught i => exact hsuffices (.recordFailure i) (by simp [workerStep, hnot, hpc])
  | sending i => exact hsuffices (.markSent i) (by simp [workerStep, hnot, hpc])
  | finishing i status => exact hsuffices (.complete i status) (by simp [workerStep, hnot, hpc])
  | erasing i => exact hsuffices (.erase i) (by simp [workerStep, hnot, hpc])
  | exited => exact absurd hpc hexited

/-- The reaper can go on until it has left. -/
theorem reaper_enabled (hexited : s.reaper ≠ .exited) : Enabled step IsReaper s := by
  have hsuffices : ∀ own, (s.reaperStep own).isSome → Enabled step IsReaper s :=
    fun own hsome => ⟨.reaper own, ⟨own, rfl⟩, hsome⟩
  cases hpc : s.reaper with
  | scan index =>
      cases hpick : s.pending[index]? with
      | none =>
          have hend := List.getElem?_eq_none_iff.mp hpick
          exact hsuffices .endScan (by simp [reaperStep, hpc, hend])
      | some i => exact hsuffices (.pick i) (by simp [reaperStep, hpc, hpick])
  | picked index i =>
      refine hsuffices (.check i) ?_
      simp only [reaperStep, hpc, if_true]
      split <;> rfl
  | ready index i => exact hsuffices (.collect i .threw) (by simp [reaperStep, hpc])
  | collected index i status => exact hsuffices (.readStatus i) (by simp [reaperStep, hpc])
  | finishing index i status => exact hsuffices (.complete i status) (by simp [reaperStep, hpc])
  | erasing index i => exact hsuffices (.erase i) (by simp [reaperStep, hpc])
  | pausing =>
      cases hshutdown : s.shutdown with
      | false => exact hsuffices .wait (by simp [reaperStep, hpc, hshutdown])
      | true => exact hsuffices .exit (by simp [reaperStep, hpc, hshutdown])
  | exited => exact absurd hpc hexited

/-! ## Workers -/

/-- A worker moves only by its own step. -/
theorem worker_of_step {w : Nat} (hstep : s.step action = some next) (hother : ¬IsWorker w action) :
    next.worker w = s.worker w := by
  cases action with
  | worker v action =>
      have hne : w ≠ v := fun heq => hother ⟨action, by rw [heq]⟩
      cases (workerStep_cases hstep).2 <;>
        first | rfl | exact Function.update_of_ne hne _ _
  | reaper action => cases reaperStep_cases hstep <;> rfl
  | handler i action => cases handlerStep_cases hstep <;> rfl
  | closer action => cases closerStep_cases hstep <;> rfl

/-- Between two looks into the queue every step of a worker brings it nearer to the next. -/
theorem left_of_workerStep {w : Nat} {own : WorkerAction} (hstep : WorkerStep s w own next) :
    (∃ i, own = .pop i) ∨ own = .exit ∨ (next.worker w).left < (s.worker w).left := by
  cases hstep with
  | @pop i _ hpc hqueue => exact .inl ⟨i, rfl⟩
  | exit hpc hshutdown hqueue => exact .inr (.inl rfl)
  | call hpc hsend => exact .inr (.inr (by simp [hpc, Worker.left]))
  | called hpc => exact .inr (.inr (by simp [hpc, Worker.left]))
  | resetThrew hpc hsend => exact .inr (.inr (by simp [hpc, Worker.left]))
  | evaluate hpc hsend => exact .inr (.inr (by simp [hpc, Worker.left]))
  | @evaluated i threw hpc => exact .inr (.inr (by cases threw <;> simp [hpc, Worker.left]))
  | recordFailure hpc => exact .inr (.inr (by simp [hpc, Worker.left]))
  | markSent hpc => exact .inr (.inr (by simp [hpc, Worker.left]))
  | complete hpc => exact .inr (.inr (by simp [hpc, Worker.left, finishComplete]))
  | erase hpc => exact .inr (.inr (by simp [hpc, Worker.left, finishErase]))

/-- How far the invocation `i` is from the front of the queue, in steps of one worker. -/
def ahead (s : OperationExecutor) (i : Nat) : Nat :=
  5 * s.queue.idxOf i + (s.worker 0).left

/-- A queued invocation is taken out, or it comes nearer to the front with each step of the
first worker and keeps its place otherwise. -/
theorem ahead_of_step {i : Nat} (hnodup : s.queue.Nodup) (hi : i ∈ s.queue)
    (hstep : s.step action = some next) :
    i ∉ next.queue ∨ i ∈ next.queue ∧
      (next.ahead i < s.ahead i ∨ next.ahead i = s.ahead i ∧ ¬IsWorker 0 action) := by
  have hkeeps : next.queue = s.queue → next.worker 0 = s.worker 0 → ¬IsWorker 0 action →
      i ∈ next.queue ∧
        (next.ahead i < s.ahead i ∨ next.ahead i = s.ahead i ∧ ¬IsWorker 0 action) := by
    intro hqueue hworker hother
    refine ⟨hqueue ▸ hi, .inr ⟨?_, hother⟩⟩
    rw [ahead, ahead, hqueue, hworker]
  cases action with
  | worker w own =>
      have hcases := (workerStep_cases hstep).2
      rcases left_of_workerStep hcases with ⟨j, rfl⟩ | rfl | hleft
      · cases hcases with
        | @pop j rest hpc hqueue =>
            rw [hqueue] at hnodup hi
            by_cases hij : i = j
            · subst hij
              exact .inl (List.nodup_cons.mp hnodup).1
            · have hrest : i ∈ rest := (List.mem_cons.mp hi).resolve_left hij
              refine .inr ⟨hrest, .inl ?_⟩
              -- One place nearer outweighs the steps of the worker that has popped.
              have hbound := Worker.left_le ((s.setWorker w (.holding j)).worker 0)
              simp only [ahead, setWorker, hqueue, List.idxOf_cons_ne _ (Ne.symm hij)] at hbound ⊢
              omega
      · cases hcases with
        | exit hpc hshutdown hqueue =>
            rw [hqueue] at hi
            cases hi
      · have hqueue : next.queue = s.queue := by
          cases hcases with
          | pop hpc hpop => simp [hpc, Worker.left] at hleft
          | _ => rfl
        by_cases hw : w = 0
        · subst hw
          refine .inr ⟨hqueue ▸ hi, .inl ?_⟩
          rw [ahead, ahead, hqueue]
          omega
        · have hother : ¬IsWorker 0 (.worker w own) := by
            rintro ⟨own', heq⟩
            cases heq
            exact hw rfl
          exact .inr (hkeeps hqueue (worker_of_step hstep hother) hother)
  | reaper own =>
      have hother : ¬IsWorker 0 (.reaper own) := by
        rintro ⟨own', heq⟩
        cases heq
      refine .inr (hkeeps ?_ (worker_of_step hstep hother) hother)
      cases reaperStep_cases hstep <;> rfl
  | handler j own =>
      have hother : ¬IsWorker 0 (.handler j own) := by
        rintro ⟨own', heq⟩
        cases heq
      cases handlerStep_cases hstep with
      | admission hpc hopen hcap =>
          refine .inr ⟨List.mem_append_left _ hi, .inr ⟨?_, hother⟩⟩
          simp [ahead, List.idxOf_append_of_mem hi]
      | _ => exact .inr (hkeeps rfl rfl hother)
  | closer own =>
      have hother : ¬IsWorker 0 (.closer own) := by
        rintro ⟨own', heq⟩
        cases heq
      refine .inr (hkeeps ?_ (worker_of_step hstep hother) hother)
      cases closerStep_cases hstep <;> rfl

/-- A worker goes on with its invocation until it has marked it as sent or released it. -/
theorem invocation_of_step {w i : Nat} (hinvocation : (s.worker w).invocation = some i)
    (hstep : s.step action = some next) :
    (next.invocation i).sent = true ∨ i ∉ next.pending ∨
      (next.worker w).invocation = some i ∧ ((next.worker w).left < (s.worker w).left ∨
        (next.worker w).left = (s.worker w).left ∧ ¬IsWorker w action) := by
  by_cases hmine : IsWorker w action
  · obtain ⟨own, rfl⟩ := hmine
    have hcases := (workerStep_cases hstep).2
    have hleft : (∃ j, own = .pop j) ∨ own = .exit ∨ (next.worker w).left < (s.worker w).left :=
      left_of_workerStep hcases
    cases hcases with
    | pop hpc => simp [hpc, Worker.invocation] at hinvocation
    | exit hpc => simp [hpc, Worker.invocation] at hinvocation
    | @markSent j hpc =>
        rw [hpc] at hinvocation
        cases hinvocation
        exact .inl (by simp)
    | @erase j hpc =>
        rw [hpc] at hinvocation
        cases hinvocation
        exact .inr (.inl (by simp [finishErase]))
    | @evaluated j threw hpc =>
        refine .inr (.inr ⟨?_, .inl (by simpa using hleft)⟩)
        rw [hpc] at hinvocation
        cases threw <;> simpa [Worker.invocation] using hinvocation
    | call hpc | called hpc | resetThrew hpc | evaluate hpc | recordFailure hpc | complete hpc =>
        refine .inr (.inr ⟨?_, .inl (by simpa using hleft)⟩)
        rw [hpc] at hinvocation
        simpa [Worker.invocation, finishComplete] using hinvocation
  · rw [worker_of_step hstep hmine]
    exact .inr (.inr ⟨hinvocation, .inr ⟨rfl, hmine⟩⟩)

end OperationExecutor

/-! ## The reaper -/

/-- How far a scan at `index` is from the place `p`, when `pending_` has at most `bound`
entries. A scan that has passed the place goes to the end and begins again. -/
def travel (bound p index : Nat) : Nat :=
  if index ≤ p then 8 * (p - index) + 6 else 8 * (bound - index) + 8 * p + 16

/-- How far the reaper is from releasing the invocation `i` at the place `p`. -/
def Reaper.away (bound p i : Nat) : Reaper → Nat
  | .scan index => travel bound p index
  | .picked index j => if j = i then 5 else travel bound p index + 7
  | .ready index j => if j = i then 4 else travel bound p index + 6
  | .collected index j _ => if j = i then 3 else travel bound p index + 5
  | .finishing index j _ => if j = i then 2 else travel bound p index + 4
  | .erasing index j => if j = i then 1 else travel bound p index + 3
  | .pausing => 8 * p + 10
  | .exited => 0

/-- A scan at another place than `p` is nearer to it at the next place. -/
theorem travel_succ {bound p index : Nat} (hne : index ≠ p) (hbound : p < index → index < bound) :
    travel bound p (index + 1) + 8 ≤ travel bound p index := by
  unfold travel
  split <;> split <;> omega

theorem six_le_travel (bound p index : Nat) : 6 ≤ travel bound p index := by
  unfold travel
  split <;> omega

/-- What is left of a list keeps its order. -/
theorem idxOf_le_of_sublist {i : Nat} {first second : List Nat} (hsub : first.Sublist second)
    (hnodup : second.Nodup) (hi : i ∈ first) : first.idxOf i ≤ second.idxOf i := by
  induction hsub with
  | slnil => cases hi
  | @cons first second j hsub ih =>
      obtain ⟨hj, hnodup⟩ := List.nodup_cons.mp hnodup
      have hne : j ≠ i := fun heq => hj (heq ▸ hsub.subset hi)
      rw [List.idxOf_cons_ne _ hne]
      exact (ih hnodup hi).trans (Nat.le_succ _)
  | @cons_cons first second j hsub ih =>
      by_cases hne : j = i
      · rw [hne, List.idxOf_cons_self]
        exact Nat.zero_le _
      · rw [List.idxOf_cons_ne _ hne, List.idxOf_cons_ne _ hne]
        exact Nat.succ_le_succ
          (ih (List.nodup_cons.mp hnodup).2 ((List.mem_cons.mp hi).resolve_left (Ne.symm hne)))

namespace OperationExecutor

variable {s next : OperationExecutor} {action : Action}

/-- The place of the invocation `i` in `pending_`, and how far the reaper is from it. -/
def toGo (bound i : Nat) (s : OperationExecutor) : Nat ×ₗ Nat :=
  toLex (s.pending.idxOf i, s.reaper.away bound (s.pending.idxOf i) i)

theorem reaper_of_step (hstep : s.step action = some next) (hother : ¬IsReaper action) :
    next.reaper = s.reaper := by
  cases action with
  | worker w action => cases (workerStep_cases hstep).2 <;> rfl
  | reaper action => exact absurd ⟨action, rfl⟩ hother
  | handler i action => cases handlerStep_cases hstep <;> rfl
  | closer action => cases closerStep_cases hstep <;> rfl

/-- New admissions come behind, so a pending invocation never moves back. -/
theorem idxOf_pending_of_step {i : Nat} (hnodup : s.pending.Nodup) (hi : i ∈ s.pending)
    (hstep : s.step action = some next) (hnext : i ∈ next.pending) :
    next.pending.idxOf i ≤ s.pending.idxOf i := by
  rcases pending_of_step hstep with hsub | ⟨j, cap, -, -, happend⟩
  · exact idxOf_le_of_sublist hsub hnodup hnext
  · rw [happend, List.idxOf_append_of_mem hi]

/-- The reaper's check of an invocation that has been sent and is not complete. -/
theorem ready_of_check {index i : Nat} (hpc : s.reaper = .picked index i)
    (hsent : (s.invocation i).sent = true) (hopen : (s.invocation i).complete = false)
    (hstep : s.step (.reaper (.check i)) = some next) : next.reaper = .ready index i := by
  simp only [step, reaperStep, hpc, if_true, hsent, hopen, Bool.not_false, Bool.and_self,
    Option.some.injEq] at hstep
  rw [← hstep]

/-- A pending invocation that has been sent is complete only while the reaper releases it. -/
theorem Serving.open_of_sent {i : Nat} (h : s.Serving) (hi : i ∈ s.pending)
    (hsent : (s.invocation i).sent = true) (hreaper : ∀ index, s.reaper ≠ .erasing index i) :
    (s.invocation i).complete = false := by
  obtain ⟨g, htracks⟩ := h.tracked
  have hat := htracks.tracked i
  rw [hat.flags.2.1]
  have hretained := hat.mem_pending.mp hi
  have hstage := hat.flags.1
  rw [hsent] at hstage
  cases hg : g i with
  | completed finisher status =>
      cases finisher with
      | none =>
          obtain ⟨index, hindex⟩ := hat.reaped status hg
          exact absurd hindex (hreaper index)
      | some w =>
          rw [hg] at hstage
          cases hstage
  | released finisher status =>
      rw [hg] at hretained
      cases hretained
  | _ => rfl

/-- The reaper's own step towards an invocation whose place does not change. -/
theorem away_of_reaperStep {bound i : Nat} {own : ReaperAction} (h : s.Serving)
    (hi : i ∈ s.pending) (hsent : (s.invocation i).sent = true)
    (hbound : s.pending.length ≤ bound) (hanswer : own ≠ .collect i (.returned .sendNotReady))
    (hstep : s.step (.reaper own) = some next) (hnext : i ∈ next.pending) :
    next.reaper.away bound (s.pending.idxOf i) i <
      s.reaper.away bound (s.pending.idxOf i) i := by
  have hplace : s.pending.idxOf i < s.pending.length := List.idxOf_lt_length_iff.mpr hi
  have hsix := six_le_travel bound (s.pending.idxOf i)
  cases reaperStep_cases hstep with
  | @pick index j hpc hpick =>
      have hindex : index < s.pending.length := (List.getElem?_eq_some_iff.mp hpick).1
      simp only [hpc, Reaper.away]
      split
      next => exact Nat.lt_of_lt_of_le (Nat.lt_succ_self 5) (hsix index)
      next hne =>
        have hother : index ≠ s.pending.idxOf i := by
          intro heq
          rw [heq, List.getElem?_idxOf hi] at hpick
          exact hne (Option.some.inj hpick).symm
        have hnearer := travel_succ hother fun _ => Nat.lt_of_lt_of_le hindex hbound
        omega
  | endScan hpc hend =>
      have hpassed := Nat.lt_of_lt_of_le hplace hend
      simp only [hpc, Reaper.away, travel, if_neg (Nat.not_le.mpr hpassed)]
      omega
  | @skip index j hpc =>
      by_cases hji : j = i
      · -- It is sent and not complete, so it is not skipped.
        subst hji
        have hopen := h.open_of_sent hi hsent fun index' herasing => by
          rw [hpc] at herasing
          cases herasing
        have hready := ready_of_check hpc hsent hopen hstep
        cases hready
      · simp only [hpc, Reaper.away, if_neg hji]
        omega
  | @check index j hpc =>
      simp only [hpc, Reaper.away]
      split <;> omega
  | @notReady index j hpc =>
      have hji : j ≠ i := fun heq => hanswer (by rw [heq])
      simp only [hpc, Reaper.away, if_neg hji]
      omega
  | collect hpc =>
      simp only [hpc, Reaper.away]
      split <;> omega
  | collectThrew hpc =>
      simp only [hpc, Reaper.away]
      split <;> omega
  | readStatus hpc =>
      simp only [hpc, Reaper.away]
      split <;> omega
  | complete hpc =>
      simp only [hpc, Reaper.away]
      split <;> omega
  | @erase index j hpc =>
      have hji : j ≠ i := by
        rintro rfl
        simp [finishErase] at hnext
      simp only [hpc, Reaper.away, if_neg hji]
      omega
  | wait hpc hshutdown =>
      simp only [hpc, Reaper.away, travel, if_pos (Nat.zero_le _)]
      omega
  | exit hpc hshutdown =>
      have hdirect := h.direct hshutdown i hi
      rw [h.dispatches.sent i hsent] at hdirect
      cases hdirect

/-- A pending invocation that has been sent is released, or it moves forward, or the reaper
comes nearer to it with each of its steps. -/
theorem toGo_of_step {bound i : Nat} (h : s.Serving) (hi : i ∈ s.pending)
    (hsent : (s.invocation i).sent = true) (hbound : s.pending.length ≤ bound)
    (hanswer : action ≠ .reaper (.collect i (.returned .sendNotReady)))
    (hstep : s.step action = some next) :
    i ∉ next.pending ∨ i ∈ next.pending ∧ (next.toGo bound i < s.toGo bound i ∨
      next.toGo bound i = s.toGo bound i ∧ ¬IsReaper action) := by
  by_cases hnext : i ∈ next.pending
  · refine .inr ⟨hnext, ?_⟩
    obtain ⟨g, htracks⟩ := h.tracked
    rcases (idxOf_pending_of_step htracks.pending_nodup hi hstep hnext).lt_or_eq with hlt | heq
    · exact .inl (Prod.Lex.toLex_lt_toLex.mpr (.inl hlt))
    · by_cases hmine : IsReaper action
      · obtain ⟨own, rfl⟩ := hmine
        have hanswered : own ≠ .collect i (.returned .sendNotReady) := by
          rintro rfl
          exact hanswer rfl
        refine .inl (Prod.Lex.toLex_lt_toLex.mpr (.inr ⟨heq, ?_⟩))
        change next.reaper.away bound (next.pending.idxOf i) i < _
        rw [heq]
        exact away_of_reaperStep h hi hsent hbound hanswered hstep hnext
      · refine .inr ⟨?_, hmine⟩
        rw [toGo, toGo, heq, reaper_of_step hstep hmine]
  · exact .inl hnext

/-- A pending invocation is queued, in the hands of a worker, or sent. -/
theorem Serving.placed {s : OperationExecutor} {i : Nat} (h : s.Serving) (hi : i ∈ s.pending) :
    i ∈ s.queue ∨ (∃ w < s.width, (s.worker w).invocation = some i) ∨
      (s.invocation i).sent = true := by
  obtain ⟨g, htracks⟩ := h.tracked
  have hat := htracks.tracked i
  have hworks : ∀ w pc, (g i).worker i = some (w, pc) →
      ∃ w < s.width, (s.worker w).invocation = some i := by
    intro w pc hpc
    obtain ⟨hworker, hw⟩ := hat.owned w pc hpc
    exact ⟨w, hw, hworker ▸ Stage.worker_invocation hpc⟩
  have hretained := hat.mem_pending.mp hi
  have hsent := hat.flags.1
  cases hg : g i with
  | queued => exact .inl (hat.mem_queue.mpr hg)
  | awaiting threw => exact .inr (.inr (by rw [hsent, hg]; rfl))
  | completed finisher status =>
      cases finisher with
      | none => exact .inr (.inr (by rw [hsent, hg]; rfl))
      | some w => exact .inr (.inl (hworks w _ (by rw [hg]; rfl)))
  | prepared | declined | released => simp [hg, Stage.retained] at hretained
  | held w => exact .inr (.inl (hworks w _ (by rw [hg]; rfl)))
  | calling w => exact .inr (.inl (hworks w _ (by rw [hg]; rfl)))
  | called w status => exact .inr (.inl (hworks w _ (by rw [hg]; rfl)))
  | evaluating w => exact .inr (.inl (hworks w _ (by rw [hg]; rfl)))
  | failing w => exact .inr (.inl (hworks w _ (by rw [hg]; rfl)))
  | sending w threw => exact .inr (.inl (hworks w _ (by rw [hg]; rfl)))

/-- The flag that an invocation has been sent stays. -/
theorem sent_of_step {s next : OperationExecutor} {action : Action} {i : Nat}
    (hsent : (s.invocation i).sent = true) (hstep : s.step action = some next) :
    (next.invocation i).sent = true := by
  have hset : ∀ (j : Nat) (value : Invocation), ((s.invocation j).sent = true → value.sent = true) →
      (Function.update s.invocation j value i).sent = true := by
    intro j value hvalue
    by_cases hij : i = j
    · subst hij
      rw [Function.update_self]
      exact hvalue hsent
    · rw [Function.update_of_ne hij]
      exact hsent
  cases action with
  | worker w action =>
      cases (workerStep_cases hstep).2 <;>
        first | exact hsent | exact hset _ _ id | exact hset _ _ fun _ => rfl
  | reaper action => cases reaperStep_cases hstep <;> first | exact hsent | exact hset _ _ id
  | handler j action => cases handlerStep_cases hstep <;> exact hsent
  | closer action => cases closerStep_cases hstep <;> exact hsent

end OperationExecutor

/-! ## Leaving -/

/-- How many steps the reaper takes before it leaves a closed executor. -/
def Reaper.last : Reaper → Nat
  | .exited => 0
  | .pausing => 1
  | .scan _ => 2
  | .erasing _ _ => 3
  | .finishing _ _ _ => 4
  | .collected _ _ _ => 5
  | .ready _ _ => 6
  | .picked _ _ => 7

/-- How many steps `shutdown()` has before it. -/
def Closer.last : Closer → Nat
  | .closed => 0
  | .joining => 1
  | .drained => 2
  | .draining | .opened => 3

namespace OperationExecutor

variable {s next : OperationExecutor} {action : Action}

/-- With nothing pending every worker is on its way out or back at the queue. -/
theorem Serving.worker_of_empty (h : s.Serving) (hempty : s.pending = []) (w : Nat) :
    s.worker w = .idle ∨ s.worker w = .exited := by
  obtain ⟨g, htracks⟩ := h.tracked
  have hfree : ∀ i, (s.worker w).invocation ≠ some i := by
    intro i hinvocation
    have howner := Stage.owner_of_worker (htracks.working w i hinvocation)
    have hmem := (htracks.tracked i).mem_pending.mpr (Stage.retained_of_owner howner)
    rw [hempty] at hmem
    cases hmem
  cases hpc : s.worker w with
  | idle => exact .inl rfl
  | exited => exact .inr rfl
  | holding i => exact absurd (by rw [hpc]; rfl) (hfree i)
  | calling i => exact absurd (by rw [hpc]; rfl) (hfree i)
  | evaluating i => exact absurd (by rw [hpc]; rfl) (hfree i)
  | caught i => exact absurd (by rw [hpc]; rfl) (hfree i)
  | sending i => exact absurd (by rw [hpc]; rfl) (hfree i)
  | finishing i status => exact absurd (by rw [hpc]; rfl) (hfree i)
  | erasing i => exact absurd (by rw [hpc]; rfl) (hfree i)

theorem Serving.queue_of_empty (h : s.Serving) (hempty : s.pending = []) : s.queue = [] := by
  obtain ⟨g, htracks⟩ := h.tracked
  have hsub := htracks.queue_sublist
  rw [hempty] at hsub
  exact List.sublist_nil.mp hsub

/-- A worker of a closed executor with nothing pending can only leave. -/
theorem exited_of_workerStep {w : Nat} {own : WorkerAction} (h : s.Serving)
    (hempty : s.pending = []) (hstep : s.step (.worker w own) = some next) :
    next.worker w = .exited := by
  have hidle := h.worker_of_empty hempty w
  cases (workerStep_cases hstep).2 with
  | pop hpc hqueue =>
      rw [h.queue_of_empty hempty] at hqueue
      cases hqueue
  | exit hpc => simp
  | call hpc | called hpc | resetThrew hpc | evaluate hpc | evaluated hpc => simp [hpc] at hidle
  | recordFailure hpc | markSent hpc | complete hpc | erase hpc => simp [hpc] at hidle

theorem last_of_reaperStep {own : ReaperAction} (hempty : s.pending = [])
    (hshutdown : s.shutdown = true) (hstep : s.step (.reaper own) = some next) :
    next.reaper.last < s.reaper.last := by
  cases reaperStep_cases hstep with
  | pick hpc hpick =>
      rw [hempty] at hpick
      cases hpick
  | wait hpc hopen =>
      rw [hshutdown] at hopen
      cases hopen
  | endScan hpc | skip hpc | check hpc | notReady hpc | collect hpc | collectThrew hpc =>
      simp [hpc, Reaper.last]
  | readStatus hpc | complete hpc | erase hpc | exit hpc => simp [hpc, Reaper.last]

theorem last_of_closerStep (hmine : IsCloser action) (hstep : s.step action = some next) :
    next.closer.last < s.closer.last := by
  obtain ⟨own, rfl, hown⟩ := hmine
  cases closerStep_cases hstep with
  | begin => exact absurd rfl hown
  | drained hpc => simp [hpc, Closer.last]
  | close hpc => simp [hpc, Closer.last]
  | joined hpc => simp [hpc, Closer.last]

/-- A thread inside `shutdown()` can go on once it has nothing to wait for. -/
theorem closer_enabled (hempty : s.closer = .draining → s.pending = [])
    (hjoined : s.closer = .joining → (∀ w < s.width, s.worker w = .exited) ∧ s.reaper = .exited)
    (hopened : s.closer ≠ .opened) (hclosed : s.closer ≠ .closed) : Enabled step IsCloser s := by
  have hsuffices : ∀ own, own ≠ .begin → (s.closerStep own).isSome → Enabled step IsCloser s :=
    fun own hown hsome => ⟨.closer own, ⟨own, rfl, hown⟩, hsome⟩
  cases hpc : s.closer with
  | opened => exact absurd hpc hopened
  | closed => exact absurd hpc hclosed
  | draining => exact hsuffices .drained (by simp) (by simp [closerStep, hpc, hempty hpc])
  | drained => exact hsuffices .close (by simp) (by simp [closerStep, hpc])
  | joining =>
      obtain ⟨hworkers, hreaper⟩ := hjoined hpc
      refine hsuffices .joined (by simp) ?_
      simpa [closerStep, hpc, hreaper] using hworkers

/-- A thread inside `shutdown()` moves only by its own steps. -/
theorem closer_of_other (hother : ¬IsCloser action) (hopened : s.closer ≠ .opened)
    (hclosed : s.closer ≠ .closed) (hstep : s.step action = some next) : next.closer = s.closer := by
  rcases closer_of_step hstep with hsame | ⟨own, rfl⟩
  · exact hsame
  · cases closerStep_cases hstep with
    | begin hpc => exact absurd hpc (not_or.mpr ⟨hopened, hclosed⟩)
    | drained => exact absurd ⟨_, rfl, by simp⟩ hother
    | close => exact absurd ⟨_, rfl, by simp⟩ hother
    | joined => exact absurd ⟨_, rfl, by simp⟩ hother

/-- A `shutdown()` that has begun has begun for ever. -/
theorem begun_of_step (hbegun : s.closer ≠ .opened) (hstep : s.step action = some next) :
    next.closer ≠ .opened := by
  rcases closer_of_step hstep with hsame | ⟨own, rfl⟩
  · rw [hsame]
    exact hbegun
  · cases closerStep_cases hstep <;> simp

/-- A thread that waits for the others to leave goes on when they have left. -/
theorem closed_of_joining (hjoining : s.closer = .joining) (hstep : s.step action = some next) :
    next.closer = .joining ∨ next.closer = .closed := by
  rcases closer_of_step hstep with hsame | ⟨own, rfl⟩
  · exact .inl (hsame.trans hjoining)
  · cases closerStep_cases hstep with
    | begin hpc | drained hpc | close hpc => simp [hjoining] at hpc
    | joined => exact .inr rfl

end OperationExecutor

end RttHttp.Executor
