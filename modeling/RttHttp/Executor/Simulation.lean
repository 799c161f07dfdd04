import RttHttp.Executor.Machine
import RttHttp.Executor.Stage
import Mathlib.Data.List.Nodup

/-! # The executor follows the invocation automaton

The relation `Tracks` reads an executor state as a family of stages, one for
each invocation: the two containers, the flags and the program points of all
threads are then determined. Every action moves at most one invocation, along
an edge of the automaton.
-/

namespace RttHttp.Executor

/-- The edge of the invocation automaton that an action takes, if any. -/
def Action.label : Action → Option (Nat × Event)
  | .worker w (.pop i) => some (i, .popped w)
  | .worker _ (.call i) => some (i, .call)
  | .worker _ (.called i outcome) => some (i, .callEnded outcome.status)
  | .worker _ (.resetThrew i) => some (i, .sendEnded true)
  | .worker _ (.evaluate i) => some (i, .evaluate)
  | .worker _ (.evaluated i threw) => some (i, .sendEnded threw)
  | .worker _ (.recordFailure i) => some (i, .failureRecorded)
  | .worker _ (.markSent i) => some (i, .markedSent)
  | .worker _ (.complete i status) => some (i, .completed status)
  | .worker _ (.erase i) => some (i, .erased)
  | .reaper (.collect i _) => some (i, .collect)
  | .reaper (.complete i status) => some (i, .completed status)
  | .reaper (.erase i) => some (i, .erased)
  | .handler i (.admission _ _ .admitted) => some (i, .admitted)
  | .handler i (.admission _ _ _) => some (i, .declined)
  | _ => none

/-- The worker program point that an owned stage of invocation `i` fixes. -/
def Stage.worker (i : Nat) : Stage → Option (Nat × Worker)
  | .held w => some (w, .holding i)
  | .calling w => some (w, .calling i)
  | .called w status => some (w, .finishing i status)
  | .evaluating w => some (w, .evaluating i)
  | .failing w => some (w, .caught i)
  | .sending w _ => some (w, .sending i)
  | .completed (some w) _ => some (w, .erasing i)
  | _ => none

/-- The invocation a worker works on. -/
def Worker.invocation : Worker → Option Nat
  | .holding i | .calling i | .evaluating i | .caught i | .sending i | .finishing i _
  | .erasing i => some i
  | .idle | .exited => none

/-- The stages that fix a program point of a worker, with the point each fixes. -/
theorem Stage.worker_cases {g : Stage} {i w : Nat} {pc : Worker}
    (hworker : g.worker i = some (w, pc)) :
    (g = .held w ∧ pc = .holding i) ∨ (g = .calling w ∧ pc = .calling i) ∨
    (∃ status, g = .called w status ∧ pc = .finishing i status) ∨
    (g = .evaluating w ∧ pc = .evaluating i) ∨ (g = .failing w ∧ pc = .caught i) ∨
    (∃ threw, g = .sending w threw ∧ pc = .sending i) ∨
    (∃ status, g = .completed (some w) status ∧ pc = .erasing i) := by
  cases g with
  | completed owner status => cases owner <;> simp_all [Stage.worker]
  | _ => simp_all [Stage.worker]

theorem Stage.worker_invocation {g : Stage} {i w : Nat} {pc : Worker}
    (hworker : g.worker i = some (w, pc)) : pc.invocation = some i := by
  obtain ⟨-, rfl⟩ | ⟨-, rfl⟩ | ⟨status, -, rfl⟩ | ⟨-, rfl⟩ | ⟨-, rfl⟩ | ⟨threw, -, rfl⟩ |
    ⟨status, -, rfl⟩ := Stage.worker_cases hworker <;> rfl

theorem Stage.owner_of_worker {g : Stage} {i w : Nat} {pc : Worker}
    (hworker : g.worker i = some (w, pc)) : g.owner = some w := by
  obtain ⟨rfl, -⟩ | ⟨rfl, -⟩ | ⟨status, rfl, -⟩ | ⟨rfl, -⟩ | ⟨rfl, -⟩ | ⟨threw, rfl, -⟩ |
    ⟨status, rfl, -⟩ := Stage.worker_cases hworker <;> rfl

theorem Stage.retained_of_owner {g : Stage} {w : Nat} (howner : g.owner = some w) :
    g.retained := by
  cases g <;> simp_all [owner, retained]

theorem Stage.admitted_of_owner {g : Stage} {w : Nat} (howner : g.owner = some w) :
    g.admitted := by
  cases g <;> simp_all [owner, admitted]

section ProgramPoints

variable {g : Stage} {i w status : Nat}

theorem Stage.eq_held (hworker : g.worker i = some (w, .holding i)) : g = .held w := by
  simpa using Stage.worker_cases hworker

theorem Stage.eq_calling (hworker : g.worker i = some (w, .calling i)) : g = .calling w := by
  simpa using Stage.worker_cases hworker

theorem Stage.eq_called (hworker : g.worker i = some (w, .finishing i status)) :
    g = .called w status := by
  simpa using Stage.worker_cases hworker

theorem Stage.eq_evaluating (hworker : g.worker i = some (w, .evaluating i)) :
    g = .evaluating w := by
  simpa using Stage.worker_cases hworker

theorem Stage.eq_failing (hworker : g.worker i = some (w, .caught i)) : g = .failing w := by
  simpa using Stage.worker_cases hworker

theorem Stage.eq_sending (hworker : g.worker i = some (w, .sending i)) :
    ∃ threw, g = .sending w threw := by
  simpa using Stage.worker_cases hworker

theorem Stage.eq_completed (hworker : g.worker i = some (w, .erasing i)) :
    ∃ status, g = .completed (some w) status := by
  simpa using Stage.worker_cases hworker

end ProgramPoints

/-- The flags an invocation carries at a stage. -/
def Stage.Flags (g : Stage) (value : Invocation) : Prop :=
  value.sent = g.sent ∧ value.complete = g.complete ∧ value.status = g.status

/-- What the reaper's program point says about the invocation it looks at. -/
def Reaper.Agrees (g : Nat → Stage) : Reaper → Prop
  | .picked _ i => (g i).admitted
  | .ready _ i | .collected _ i _ => ∃ threw, g i = .awaiting threw
  | .finishing _ i status => ∃ threw, g i = .awaiting threw ∧ (threw = true → status = 500)
  | .erasing _ i => ∃ status, g i = .completed none status
  | _ => True

/-- What a handler's program point says about its own invocation. -/
def Handler.Agrees (g : Stage) : Handler → Prop
  | .prepared => g = .prepared
  | .refused | .failed => g = .declined
  | .waiting | .gaveUp => g.admitted
  | .responded status => g.complete ∧ g.status = status

/-- The reaper's view survives a move of an invocation that a worker owns. -/
theorem Reaper.Agrees.update {reaper : Reaper} {g : Nat → Stage} (h : reaper.Agrees g)
    {i w : Nat} {target : Stage} (howner : (g i).owner = some w) (htarget : target.admitted) :
    reaper.Agrees (Function.update g i target) := by
  cases reaper <;> simp only [Reaper.Agrees, Function.update_apply] at h ⊢ <;>
    split <;> grind [Stage.owner]

/-- A handler cannot tell two unfinished stages after admission apart. -/
theorem Handler.Agrees.mono {handler : Handler} {g target : Stage} (h : handler.Agrees g)
    (hadmitted : g.admitted) (hopen : g.complete = false) (htarget : target.admitted) :
    handler.Agrees target := by
  cases handler with
  | prepared =>
      rw [Handler.Agrees] at h
      simp [h, Stage.admitted] at hadmitted
  | refused =>
      rw [Handler.Agrees] at h
      simp [h, Stage.admitted] at hadmitted
  | failed =>
      rw [Handler.Agrees] at h
      simp [h, Stage.admitted] at hadmitted
  | waiting => exact htarget
  | gaveUp => exact htarget
  | responded status =>
      rw [Handler.Agrees, hopen] at h
      simp at h

/-- The part of the relation that concerns one invocation. -/
structure TracksAt (s : OperationExecutor) (i : Nat) (g : Stage) : Prop where
  mem_queue : i ∈ s.queue ↔ g = .queued
  mem_pending : i ∈ s.pending ↔ g.retained
  flags : g.Flags (s.invocation i)
  owned : ∀ w pc, g.worker i = some (w, pc) → s.worker w = pc ∧ w < s.width
  reaped : ∀ status, g = .completed none status → ∃ index, s.reaper = .erasing index i
  handling : (s.handler i).Agrees g

/-- An executor state read as a family of stages. -/
structure Tracks (s : OperationExecutor) (g : Nat → Stage) : Prop where
  pending_nodup : s.pending.Nodup
  queue_sublist : s.queue.Sublist s.pending
  tracked : ∀ i, TracksAt s i (g i)
  working : ∀ w i, (s.worker w).invocation = some i → (g i).worker i = some (w, s.worker w)
  reaping : s.reaper.Agrees g

theorem tracks_start (width : Nat) (send : Nat → Bool) :
    Tracks (OperationExecutor.start width send) (fun _ => .prepared) := by
  refine ⟨by simp [OperationExecutor.start], by simp [OperationExecutor.start], ?_, ?_, trivial⟩
  · intro i
    constructor <;> simp [OperationExecutor.start, Stage.retained, Stage.Flags, Stage.sent,
      Stage.complete, Stage.status, Stage.worker, Handler.Agrees]
  · intro w i hinvocation
    simp [OperationExecutor.start, Worker.invocation] at hinvocation

namespace Tracks

variable {s : OperationExecutor} {g : Nat → Stage}

/-- A worker's invocation moves to a stage that the same worker owns, or leaves
the worker; the containers do not change. -/
theorem workerMove (h : Tracks s g) {w i : Nat} {pc : Worker} {value : Invocation} {target : Stage}
    (hpc : (s.worker w).invocation = some i)
    (hqueued : target ≠ .queued) (hretained : target.retained) (hflags : target.Flags value)
    (hworker : ∀ v next, target.worker i = some (v, next) → v = w ∧ next = pc)
    (hworking : ∀ j, pc.invocation = some j → j = i ∧ target.worker i = some (w, pc))
    (hreaped : ∀ status, target ≠ .completed none status)
    (hadmitted : target.admitted) (hopen : (g i).complete = false) :
    Tracks { s with
        invocation := Function.update s.invocation i value
        worker := Function.update s.worker w pc } (Function.update g i target) := by
  have hown := h.working w i hpc
  have howner := Stage.owner_of_worker hown
  have hat := h.tracked i
  refine ⟨h.pending_nodup, h.queue_sublist, ?_, ?_, h.reaping.update howner hadmitted⟩
  · intro j
    by_cases hj : j = i
    · subst hj
      rw [Function.update_self]
      have hnotqueued : g j ≠ .queued := by
        intro heq
        simp [heq, Stage.owner] at howner
      refine ⟨?_, ?_, by simpa using hflags, ?_, ?_, ?_⟩
      · simpa [hqueued, hnotqueued] using hat.mem_queue
      · simpa [hretained, Stage.retained_of_owner howner] using hat.mem_pending
      · intro v next hnext
        obtain ⟨rfl, rfl⟩ := hworker v next hnext
        exact ⟨by simp, (hat.owned v _ hown).2⟩
      · intro status hstatus
        exact absurd hstatus (hreaped status)
      · exact hat.handling.mono (Stage.admitted_of_owner howner) hopen hadmitted
    · rw [Function.update_of_ne hj]
      have hatj := h.tracked j
      refine ⟨hatj.mem_queue, hatj.mem_pending, ?_, ?_, hatj.reaped, hatj.handling⟩
      · simpa [Function.update_of_ne hj] using hatj.flags
      · intro v next hnext
        have hv := hatj.owned v next hnext
        have hne : v ≠ w := by
          rintro rfl
          rw [hv.1, Stage.worker_invocation hnext] at hpc
          exact hj (Option.some.inj hpc)
        simpa [Function.update_of_ne hne] using hv
  · intro v j hj
    by_cases hv : v = w
    · subst hv
      simp only [Function.update_self] at hj ⊢
      obtain ⟨rfl, htarget⟩ := hworking j hj
      simpa using htarget
    · simp only [Function.update_of_ne hv] at hj ⊢
      have hvj := h.working v j hj
      have hne : j ≠ i := by
        rintro rfl
        rw [hvj] at hown
        exact hv (congrArg Prod.fst (Option.some.inj hown))
      rw [Function.update_of_ne hne]
      exact hvj

/-- The same move without a change of flags. -/
theorem workerAdvance (h : Tracks s g) {w i : Nat} {pc : Worker} {target : Stage}
    (hpc : (s.worker w).invocation = some i) (hworker : target.worker i = some (w, pc))
    (hopen : target.complete = false) (hg : (g i).complete = false)
    (hsent : target.sent = (g i).sent) (hstatus : target.status = (g i).status) :
    Tracks (s.setWorker w pc) (Function.update g i target) := by
  have howner := Stage.owner_of_worker hworker
  have hflags := (h.tracked i).flags
  have hkept : target.Flags (s.invocation i) :=
    ⟨hsent ▸ hflags.1, by rw [hflags.2.1, hg, hopen], hstatus ▸ hflags.2.2⟩
  have hsame : ∀ v next, target.worker i = some (v, next) → v = w ∧ next = pc := by
    intro v next hnext
    rw [hworker] at hnext
    cases hnext
    exact ⟨rfl, rfl⟩
  have hmove := h.workerMove hpc
    (by rintro rfl; simp [Stage.owner] at howner) (Stage.retained_of_owner howner) hkept hsame
    (by intro j hj; rw [Stage.worker_invocation hworker] at hj; exact ⟨(Option.some.inj hj).symm, hworker⟩)
    (by rintro status rfl; simp [Stage.owner] at howner)
    (Stage.admitted_of_owner howner) hg
  simpa using hmove

/-- Only the thread pointers that carry no invocation differ. -/
theorem frame (h : Tracks s g) {next : OperationExecutor} (hwidth : next.width = s.width)
    (hqueue : next.queue = s.queue) (hpending : next.pending = s.pending)
    (hinvocation : next.invocation = s.invocation)
    (hworker : ∀ w, next.worker w = s.worker w ∨
      (s.worker w).invocation = none ∧ (next.worker w).invocation = none)
    (hreaper : next.reaper.Agrees g)
    (herasing : ∀ index i, s.reaper = .erasing index i → ∃ index', next.reaper = .erasing index' i)
    (hhandler : ∀ i, (next.handler i).Agrees (g i)) : Tracks next g := by
  refine ⟨hpending ▸ h.pending_nodup, by rw [hqueue, hpending]; exact h.queue_sublist, ?_, ?_,
    hreaper⟩
  · intro i
    have hat := h.tracked i
    refine ⟨by rw [hqueue]; exact hat.mem_queue, by rw [hpending]; exact hat.mem_pending,
      by rw [hinvocation]; exact hat.flags, ?_, ?_, hhandler i⟩
    · intro w pc hpc
      obtain ⟨hw, hlt⟩ := hat.owned w pc hpc
      rcases hworker w with heq | ⟨hnone, -⟩
      · rw [heq, hwidth]
        exact ⟨hw, hlt⟩
      · rw [hw, Stage.worker_invocation hpc] at hnone
        cases hnone
    · intro status hstatus
      obtain ⟨index, hindex⟩ := hat.reaped status hstatus
      exact herasing index i hindex
  · intro w i hi
    rcases hworker w with heq | ⟨-, hnone⟩
    · rw [heq] at hi ⊢
      exact h.working w i hi
    · rw [hnone] at hi
      cases hi

/-- The popped invocation leaves the queue for the worker; it stays pending. -/
theorem pop (h : Tracks s g) {w i : Nat} {rest : List Nat} (hw : w < s.width)
    (hpc : s.worker w = .idle) (hqueue : s.queue = i :: rest) :
    g i = .queued ∧ Tracks ({ s with queue := rest }.setWorker w (.holding i))
      (Function.update g i (.held w)) := by
  have hat := h.tracked i
  have hg : g i = .queued := hat.mem_queue.mp (by simp [hqueue])
  have hnodup : (i :: rest).Nodup := hqueue ▸ h.queue_sublist.nodup h.pending_nodup
  have hpending : i ∈ s.pending := hat.mem_pending.mpr (by rw [hg]; rfl)
  refine ⟨hg, h.pending_nodup, ?_, ?_, ?_, ?_⟩
  · have hsub := h.queue_sublist
    rw [hqueue] at hsub
    exact (List.sublist_cons_self i rest).trans hsub
  · intro j
    by_cases hj : j = i
    · subst hj
      rw [Function.update_self]
      refine ⟨by simpa using (List.nodup_cons.mp hnodup).1, ?_, ?_, ?_, by simp, ?_⟩
      · simpa [Stage.retained] using hpending
      · simpa [Stage.Flags, hg, Stage.sent, Stage.complete, Stage.status,
          OperationExecutor.setWorker] using hat.flags
      · intro v pc hv
        simp only [Stage.worker, Option.some.injEq, Prod.mk.injEq] at hv
        obtain ⟨rfl, rfl⟩ := hv
        exact ⟨by simp [OperationExecutor.setWorker], hw⟩
      · exact hat.handling.mono (by rw [hg]; rfl) (by rw [hg]; rfl) rfl
    · rw [Function.update_of_ne hj]
      have hatj := h.tracked j
      refine ⟨?_, hatj.mem_pending, hatj.flags, ?_, hatj.reaped, hatj.handling⟩
      · have hmem := hatj.mem_queue
        rw [hqueue, List.mem_cons] at hmem
        simpa [hj] using hmem
      · intro v pc hv
        obtain ⟨hv', hlt⟩ := hatj.owned v pc hv
        have hne : v ≠ w := by
          rintro rfl
          rw [hpc] at hv'
          subst hv'
          exact absurd (Stage.worker_invocation hv) (by simp [Worker.invocation])
        exact ⟨by simpa [OperationExecutor.setWorker, Function.update_of_ne hne] using hv', hlt⟩
  · intro v j hj
    by_cases hv : v = w
    · subst hv
      simp only [OperationExecutor.setWorker, Function.update_self, Worker.invocation,
        Option.some.injEq] at hj
      subst hj
      simp [OperationExecutor.setWorker, Stage.worker]
    · simp only [OperationExecutor.setWorker, Function.update_of_ne hv] at hj ⊢
      have hvj := h.working v j hj
      have hne : j ≠ i := by
        rintro rfl
        simp [hg, Stage.worker] at hvj
      rw [Function.update_of_ne hne]
      exact hvj
  · have hreaping := h.reaping
    show s.reaper.Agrees _
    cases hreaper : s.reaper <;> rw [hreaper] at hreaping <;>
      simp only [Reaper.Agrees, Function.update_apply] at hreaping ⊢ <;> grind [Stage.admitted]

/-- What a completed invocation leaves behind when `finish` erases it. -/
theorem erase_tracked (h : Tracks s g) {i status : Nat} {finisher : Option Nat}
    (hg : g i = .completed finisher status) {next : OperationExecutor}
    (hnext : next.queue = s.queue ∧ next.pending = s.pending.filter (· ≠ i) ∧
      next.invocation = s.invocation ∧ next.handler = s.handler ∧ next.width = s.width)
    (hworker : ∀ j, j ≠ i → ∀ w pc, (g j).worker j = some (w, pc) → next.worker w = s.worker w)
    (hreaper : ∀ j, j ≠ i → ∀ index, s.reaper = .erasing index j → next.reaper = s.reaper) (j : Nat) :
    TracksAt next j (Function.update g i (.released finisher status) j) := by
  obtain ⟨hqueue, hpending, hinvocation, hhandler, hwidth⟩ := hnext
  by_cases hj : j = i
  · subst hj
    rw [Function.update_self]
    have hat := h.tracked j
    refine ⟨?_, ?_, ?_, by simp [Stage.worker], by simp, ?_⟩
    · simpa [hqueue, hg] using hat.mem_queue
    · simp [hpending, Stage.retained]
    · rw [hinvocation]
      have hflags := hat.flags
      rw [hg] at hflags
      cases finisher <;> simpa [Stage.Flags, Stage.sent, Stage.complete, Stage.status] using hflags
    · rw [hhandler]
      have hhandling := hat.handling
      rw [hg] at hhandling
      cases hpc : s.handler j <;> rw [hpc] at hhandling <;>
        simp_all [Handler.Agrees, Stage.admitted, Stage.complete, Stage.status]
  · rw [Function.update_of_ne hj]
    have hat := h.tracked j
    refine ⟨by rw [hqueue]; exact hat.mem_queue, ?_, by rw [hinvocation]; exact hat.flags, ?_, ?_,
      by rw [hhandler]; exact hat.handling⟩
    · simpa [hpending, hj] using hat.mem_pending
    · intro w pc hpc
      rw [hworker j hj w pc hpc, hwidth]
      exact hat.owned w pc hpc
    · intro final hfinal
      obtain ⟨index, hindex⟩ := hat.reaped final hfinal
      exact ⟨index, by rw [hreaper j hj index hindex]; exact hindex⟩

theorem erase_sublist (h : Tracks s g) {i : Nat} (hg : g i ≠ .queued) :
    s.queue.Sublist (s.pending.filter (· ≠ i)) := by
  have hnotmem : i ∉ s.queue := fun hmem => hg ((h.tracked i).mem_queue.mp hmem)
  have hfilter : s.queue.filter (· ≠ i) = s.queue := by
    rw [List.filter_eq_self]
    intro j hj
    simp only [ne_eq, decide_eq_true_eq]
    rintro rfl
    exact hnotmem hj
  rw [← hfilter]
  exact h.queue_sublist.filter _

theorem workerErase (h : Tracks s g) {w i : Nat} (hpc : s.worker w = .erasing i) :
    ∃ status, g i = .completed (some w) status ∧
      Tracks ((s.finishErase i).setWorker w .idle)
        (Function.update g i (.released (some w) status)) := by
  have hown := h.working w i (by rw [hpc]; rfl)
  obtain ⟨status, hg⟩ := Stage.eq_completed (hpc ▸ hown)
  refine ⟨status, hg, h.pending_nodup.filter _, h.erase_sublist (by simp [hg]), ?_, ?_, ?_⟩
  · refine h.erase_tracked hg ⟨rfl, rfl, rfl, rfl, rfl⟩ ?_ (fun _ _ _ _ => rfl)
    intro j hj v pc hv
    have hne : v ≠ w := by
      rintro rfl
      have hv' := ((h.tracked j).owned v pc hv).1
      rw [hpc] at hv'
      have hinv := Stage.worker_invocation hv
      rw [← hv'] at hinv
      exact hj (Option.some.inj hinv).symm
    simp [OperationExecutor.finishErase, Function.update_of_ne hne]
  · intro v j hj
    by_cases hv : v = w
    · subst hv
      simp [Worker.invocation] at hj
    · simp only [OperationExecutor.setWorker, OperationExecutor.finishErase,
        Function.update_of_ne hv] at hj ⊢
      have hvj := h.working v j hj
      have hne : j ≠ i := by
        rintro rfl
        rw [hvj] at hown
        exact hv (congrArg Prod.fst (Option.some.inj hown))
      rw [Function.update_of_ne hne]
      exact hvj
  · exact h.reaping.update (w := w) (by rw [hg]; rfl) rfl

theorem reaperComplete (h : Tracks s g) {index i status : Nat}
    (hpc : s.reaper = .finishing index i status) :
    ∃ threw, g i = .awaiting threw ∧ (threw = true → status = 500) ∧
      Tracks { s.finishComplete i status with reaper := .erasing index i }
        (Function.update g i (.completed none status)) := by
  have hreaping := h.reaping
  rw [hpc] at hreaping
  obtain ⟨threw, hg, hthrew⟩ := hreaping
  refine ⟨threw, hg, hthrew, h.pending_nodup, h.queue_sublist, ?_, ?_, ?_⟩
  · intro j
    by_cases hj : j = i
    · subst hj
      rw [Function.update_self]
      have hat := h.tracked j
      refine ⟨?_, ?_, ?_, by simp [Stage.worker], ?_, ?_⟩
      · simpa [hg, OperationExecutor.finishComplete] using hat.mem_queue
      · simpa [hg, Stage.retained, OperationExecutor.finishComplete] using hat.mem_pending
      · have hflags := hat.flags
        rw [hg] at hflags
        simpa [Stage.Flags, Stage.sent, Stage.complete, Stage.status,
          OperationExecutor.finishComplete] using hflags.1
      · intro _ _
        exact ⟨index, rfl⟩
      · exact hat.handling.mono (by rw [hg]; rfl) (by rw [hg]; rfl) rfl
    · rw [Function.update_of_ne hj]
      have hat := h.tracked j
      refine ⟨hat.mem_queue, hat.mem_pending, ?_, hat.owned, ?_, hat.handling⟩
      · simpa [OperationExecutor.finishComplete, Function.update_of_ne hj] using hat.flags
      · intro final hfinal
        obtain ⟨index', hindex⟩ := hat.reaped final hfinal
        rw [hpc] at hindex
        cases hindex
  · intro v j hj
    have hvj := h.working v j hj
    have hne : j ≠ i := by
      rintro rfl
      simp [hg, Stage.worker] at hvj
    rw [Function.update_of_ne hne]
    exact hvj
  · exact ⟨status, Function.update_self ..⟩

theorem reaperErase (h : Tracks s g) {index i : Nat} (hpc : s.reaper = .erasing index i) :
    ∃ status, g i = .completed none status ∧
      Tracks { s.finishErase i with reaper := .scan index }
        (Function.update g i (.released none status)) := by
  have hreaping := h.reaping
  rw [hpc] at hreaping
  obtain ⟨status, hg⟩ := hreaping
  refine ⟨status, hg, h.pending_nodup.filter _, h.erase_sublist (by simp [hg]), ?_, ?_, trivial⟩
  · refine h.erase_tracked hg ⟨rfl, rfl, rfl, rfl, rfl⟩ (fun _ _ _ _ _ => rfl) ?_
    intro j hj index' hindex
    rw [hpc] at hindex
    cases hindex
    exact absurd rfl hj
  · intro v j hj
    have hvj := h.working v j hj
    have hne : j ≠ i := by
      rintro rfl
      simp [hg, Stage.worker] at hvj
    rw [Function.update_of_ne hne]
    exact hvj

/-- A prepared invocation is in no container and in no thread's hands, so it
may move to `queued` or `declined` without disturbing the others. -/
theorem admission (h : Tracks s g) {i : Nat} (hpc : s.handler i = .prepared) :
    g i = .prepared ∧
      Tracks ({ s with pending := s.pending ++ [i], queue := s.queue ++ [i] }.setHandler i .waiting)
        (Function.update g i .queued) := by
  have hat := h.tracked i
  have hg : g i = .prepared := by
    have hhandling := hat.handling
    rwa [hpc] at hhandling
  have hnotmem : i ∉ s.pending := fun hmem => by simpa [hg, Stage.retained] using hat.mem_pending.mp hmem
  refine ⟨hg, ?_, h.queue_sublist.append (List.Sublist.refl [i]), ?_, ?_, ?_⟩
  · exact List.nodup_append.mpr ⟨h.pending_nodup, List.nodup_singleton i, by
      intro j hj k hk
      rw [List.mem_singleton.mp hk]
      rintro rfl
      exact hnotmem hj⟩
  · intro j
    by_cases hj : j = i
    · subst hj
      rw [Function.update_self]
      refine ⟨by simp, by simp [Stage.retained], ?_, by simp [Stage.worker], by simp, ?_⟩
      · simpa [Stage.Flags, hg, Stage.sent, Stage.complete, Stage.status] using hat.flags
      · simp [Handler.Agrees, Stage.admitted]
    · rw [Function.update_of_ne hj]
      have hatj := h.tracked j
      refine ⟨by simpa [hj] using hatj.mem_queue, by simpa [hj] using hatj.mem_pending, hatj.flags,
        hatj.owned, hatj.reaped, by simpa [hj] using hatj.handling⟩
  · intro v j hj
    have hvj := h.working v j hj
    have hne : j ≠ i := by
      rintro rfl
      simp [hg, Stage.worker] at hvj
    rw [Function.update_of_ne hne]
    exact hvj
  · have hreaping := h.reaping
    show s.reaper.Agrees _
    cases hreaper : s.reaper <;> rw [hreaper] at hreaping <;>
      simp only [Reaper.Agrees, Function.update_apply] at hreaping ⊢ <;> grind [Stage.admitted]

theorem decline (h : Tracks s g) {i : Nat} {handler : Handler} (hpc : s.handler i = .prepared)
    (hhandler : handler = .refused ∨ handler = .failed) :
    g i = .prepared ∧ Tracks (s.setHandler i handler) (Function.update g i .declined) := by
  have hat := h.tracked i
  have hg : g i = .prepared := by
    have hhandling := hat.handling
    rwa [hpc] at hhandling
  refine ⟨hg, h.pending_nodup, h.queue_sublist, ?_, ?_, ?_⟩
  · intro j
    by_cases hj : j = i
    · subst hj
      rw [Function.update_self]
      refine ⟨by simpa [hg] using hat.mem_queue, by simpa [hg, Stage.retained] using hat.mem_pending,
        ?_, by simp [Stage.worker], by simp, ?_⟩
      · simpa [Stage.Flags, hg, Stage.sent, Stage.complete, Stage.status] using hat.flags
      · rcases hhandler with rfl | rfl <;> simp [Handler.Agrees]
    · rw [Function.update_of_ne hj]
      have hatj := h.tracked j
      exact ⟨hatj.mem_queue, hatj.mem_pending, hatj.flags, hatj.owned, hatj.reaped,
        by simpa [hj] using hatj.handling⟩
  · intro v j hj
    have hvj := h.working v j hj
    have hne : j ≠ i := by
      rintro rfl
      simp [hg, Stage.worker] at hvj
    rw [Function.update_of_ne hne]
    exact hvj
  · have hreaping := h.reaping
    show s.reaper.Agrees _
    cases hreaper : s.reaper <;> rw [hreaper] at hreaping <;>
      simp only [Reaper.Agrees, Function.update_apply] at hreaping ⊢ <;> grind [Stage.admitted]

end Tracks

open OperationExecutor

/-- One step read as an edge of the automaton of the labelled invocation. -/
def Follows (g : Nat → Stage) (next : OperationExecutor) : Option (Nat × Event) → Prop
  | none => Tracks next g
  | some event => ∃ g', Machine.familyStep Stage.next g event = some g' ∧ Tracks next g'

theorem follows_update {g : Nat → Stage} {next : OperationExecutor} {i : Nat} {event : Event}
    (target : Stage) (hedge : (g i).next event = some target)
    (htracks : Tracks next (Function.update g i target)) : Follows g next (some (i, event)) :=
  ⟨_, by simp [Machine.familyStep, hedge], htracks⟩

theorem worker_follows {s next : OperationExecutor} {g : Nat → Stage} (h : Tracks s g)
    {w : Nat} {action : WorkerAction} (hstep : s.workerStep w action = some next) :
    Follows g next (Action.worker w action).label := by
  obtain ⟨hw, hcases⟩ := workerStep_cases hstep
  -- A worker at a program point fixes the stage of the invocation it names.
  have hstage : ∀ i pc, s.worker w = pc → pc.invocation = some i → (g i).worker i = some (w, pc) := by
    rintro i pc rfl hi
    exact h.working w i hi
  cases hcases with
  | pop hpc hqueue =>
      obtain ⟨hg, htracks⟩ := h.pop hw hpc hqueue
      exact follows_update _ (by rw [hg]; rfl) htracks
  | exit hpc =>
      refine h.frame rfl rfl rfl rfl ?_ h.reaping (fun index i hi => ⟨index, hi⟩)
        (fun i => (h.tracked i).handling)
      intro v
      by_cases hv : v = w
      · subst hv
        exact Or.inr ⟨by rw [hpc]; rfl, by simp [Worker.invocation]⟩
      · exact Or.inl (by simp [Function.update_of_ne hv])
  | @call i hpc =>
      have hg := Stage.eq_held (hstage i _ hpc rfl)
      refine follows_update _ (by rw [hg]; rfl) ?_
      exact h.workerAdvance (by rw [hpc]; rfl) rfl rfl (by rw [hg]; rfl) (by rw [hg]; rfl)
        (by rw [hg]; rfl)
  | @called i outcome hpc =>
      have hg := Stage.eq_calling (hstage i _ hpc rfl)
      refine follows_update _ (by rw [hg]; rfl) ?_
      exact h.workerAdvance (by rw [hpc]; rfl) rfl rfl (by rw [hg]; rfl) (by rw [hg]; rfl)
        (by rw [hg]; rfl)
  | @resetThrew i hpc =>
      have hg := Stage.eq_held (hstage i _ hpc rfl)
      refine follows_update _ (by rw [hg]; rfl) ?_
      exact h.workerAdvance (by rw [hpc]; rfl) rfl rfl (by rw [hg]; rfl) (by rw [hg]; rfl)
        (by rw [hg]; rfl)
  | @evaluate i hpc =>
      have hg := Stage.eq_held (hstage i _ hpc rfl)
      refine follows_update _ (by rw [hg]; rfl) ?_
      exact h.workerAdvance (by rw [hpc]; rfl) rfl rfl (by rw [hg]; rfl) (by rw [hg]; rfl)
        (by rw [hg]; rfl)
  | @evaluated i threw hpc =>
      have hg := Stage.eq_evaluating (hstage i _ hpc rfl)
      refine follows_update (if threw then .failing w else .sending w false)
        (by rw [hg]; rfl) ?_
      cases threw <;>
        exact h.workerAdvance (by rw [hpc]; rfl) rfl rfl (by rw [hg]; rfl) (by rw [hg]; rfl)
          (by rw [hg]; rfl)
  | @recordFailure i hpc =>
      have hg := Stage.eq_failing (hstage i _ hpc rfl)
      have hflags := (h.tracked i).flags
      rw [hg] at hflags
      refine follows_update (.sending w true) (by rw [hg]; rfl) ?_
      exact h.workerMove (by rw [hpc]; rfl) (by simp) rfl ⟨hflags.1, hflags.2.1, rfl⟩
        (by simp +contextual [Stage.worker]) (by simp [Worker.invocation, Stage.worker]) (by simp) rfl
        (by rw [hg]; rfl)
  | @markSent i hpc =>
      obtain ⟨threw, hg⟩ := Stage.eq_sending (hstage i _ hpc rfl)
      have hflags := (h.tracked i).flags
      rw [hg] at hflags
      refine follows_update (.awaiting threw) (by rw [hg]; rfl) ?_
      exact h.workerMove (by rw [hpc]; rfl) (by simp) rfl ⟨rfl, hflags.2.1, hflags.2.2⟩
        (by simp [Stage.worker]) (by simp [Worker.invocation]) (by simp) rfl (by rw [hg]; rfl)
  | @complete i status hpc =>
      have hg := Stage.eq_called (hstage i _ hpc rfl)
      have hflags := (h.tracked i).flags
      rw [hg] at hflags
      refine follows_update (.completed (some w) status) (by rw [hg]; simp [Stage.next]) ?_
      exact h.workerMove (by rw [hpc]; rfl) (by simp) rfl ⟨hflags.1, rfl, rfl⟩
        (by simp +contextual [Stage.worker]) (by simp [Worker.invocation, Stage.worker]) (by simp) rfl
        (by rw [hg]; rfl)
  | @erase i hpc =>
      obtain ⟨status, hg, htracks⟩ := h.workerErase hpc
      exact follows_update _ (by rw [hg]; rfl) htracks

theorem reaper_follows {s next : OperationExecutor} {g : Nat → Stage} (h : Tracks s g)
    {action : ReaperAction} (hstep : s.reaperStep action = some next) :
    Follows g next (Action.reaper action).label := by
  have hreaping := h.reaping
  -- Every step but the two of `finish` only moves the reaper's own program point.
  have hmove : ∀ reaper : Reaper, reaper.Agrees g → (∀ index i, s.reaper ≠ .erasing index i) →
      Tracks { s with reaper := reaper } g := by
    intro reaper hreaper hnot
    exact h.frame rfl rfl rfl rfl (fun _ => Or.inl rfl) hreaper
      (fun index i hi => absurd hi (hnot index i)) (fun i => (h.tracked i).handling)
  have hcollect : ∀ i threw, g i = .awaiting threw → ∀ reached, Tracks reached g →
      Follows g reached (some (i, .collect)) := by
    intro i threw hg reached htracks
    refine follows_update (.awaiting threw) (by rw [hg]; rfl) ?_
    rwa [← hg, Function.update_eq_self]
  cases reaperStep_cases hstep with
  | @pick index i hpc hpick =>
      refine hmove _ ?_ (by simp [hpc])
      have hmem : i ∈ s.pending := List.mem_of_getElem? hpick
      exact Stage.admitted_of_retained ((h.tracked i).mem_pending.mp hmem)
  | endScan hpc => exact hmove _ trivial (by simp [hpc])
  | skip hpc => exact hmove _ trivial (by simp [hpc])
  | @check index i hpc hsent hopen =>
      refine hmove _ ?_ (by simp [hpc])
      have hflags := (h.tracked i).flags
      exact Stage.awaiting_of_sent (hflags.1 ▸ hsent) (hflags.2.1 ▸ hopen)
  | @notReady index i hpc =>
      rw [hpc] at hreaping
      obtain ⟨threw, hg⟩ := hreaping
      exact hcollect i threw hg _ (hmove _ trivial (by simp [hpc]))
  | @collect index i status hpc =>
      rw [hpc] at hreaping
      obtain ⟨threw, hg⟩ := hreaping
      exact hcollect i threw hg _ (hmove _ ⟨threw, hg⟩ (by simp [hpc]))
  | @collectThrew index i hpc =>
      rw [hpc] at hreaping
      obtain ⟨threw, hg⟩ := hreaping
      exact hcollect i threw hg _ (hmove _ ⟨threw, hg, fun _ => rfl⟩ (by simp [hpc]))
  | @readStatus index i status hpc =>
      rw [hpc] at hreaping
      obtain ⟨threw, hg⟩ := hreaping
      refine hmove _ ⟨threw, hg, ?_⟩ (by simp [hpc])
      rintro rfl
      have hstatus := (h.tracked i).flags.2.2
      rw [hg] at hstatus
      rw [hstatus]
      rfl
  | @complete index i status hpc =>
      obtain ⟨threw, hg, hthrew, htracks⟩ := h.reaperComplete hpc
      refine follows_update _ ?_ htracks
      rw [hg]
      exact if_pos hthrew
  | @erase index i hpc =>
      obtain ⟨status, hg, htracks⟩ := h.reaperErase hpc
      exact follows_update _ (by rw [hg]; rfl) htracks
  | wait hpc => exact hmove _ trivial (by simp [hpc])
  | exit hpc => exact hmove _ trivial (by simp [hpc])

theorem handler_follows {s next : OperationExecutor} {g : Nat → Stage} (h : Tracks s g)
    {i : Nat} {action : HandlerAction} (hstep : s.handlerStep i action = some next) :
    Follows g next (Action.handler i action).label := by
  -- Waiting handlers only move their own program point.
  have hmove : ∀ handler : Handler, handler.Agrees (g i) → Tracks (s.setHandler i handler) g := by
    intro handler hhandler
    refine h.frame rfl rfl rfl rfl (fun _ => Or.inl rfl) h.reaping (fun index j hj => ⟨index, hj⟩) ?_
    intro j
    by_cases hj : j = i
    · subst hj
      simpa using hhandler
    · simpa [hj] using (h.tracked j).handling
  cases handlerStep_cases hstep with
  | admission hpc =>
      obtain ⟨hg, htracks⟩ := h.admission hpc
      exact follows_update _ (by rw [hg]; rfl) htracks
  | refuse hpc =>
      obtain ⟨hg, htracks⟩ := h.decline hpc (Or.inl rfl)
      exact follows_update _ (by rw [hg]; rfl) htracks
  | admitThrew hpc =>
      obtain ⟨hg, htracks⟩ := h.decline hpc (Or.inr rfl)
      exact follows_update _ (by rw [hg]; rfl) htracks
  | respond hpc hcomplete hstatus =>
      have hflags := (h.tracked i).flags
      exact hmove _ ⟨hflags.2.1 ▸ hcomplete, hflags.2.2 ▸ hstatus⟩
  | giveUp hpc =>
      have hhandling := (h.tracked i).handling
      rw [hpc] at hhandling
      exact hmove _ hhandling

theorem closer_follows {s next : OperationExecutor} {g : Nat → Stage} (h : Tracks s g)
    {action : CloserAction} (hstep : s.closerStep action = some next) : Tracks next g := by
  have hmove : ∀ shutdown closer,
      Tracks { s with shutdown := shutdown, closer := closer } g := fun _ _ =>
    h.frame rfl rfl rfl rfl (fun _ => Or.inl rfl) h.reaping (fun index i hi => ⟨index, hi⟩)
      (fun i => (h.tracked i).handling)
  cases closerStep_cases hstep <;> exact hmove _ _

/-- The executor refines the family of invocation automata. -/
theorem step_simulates :
    Machine.Simulates OperationExecutor.step (Machine.familyStep Stage.next) Action.label Tracks := by
  intro s g action next h hstep
  have hfollows : Follows g next action.label := by
    cases action with
    | worker w action => exact worker_follows h hstep
    | reaper action => exact reaper_follows h hstep
    | handler i action => exact handler_follows h hstep
    | closer action => exact closer_follows h hstep
  cases hlabel : action.label with
  | none => rwa [hlabel] at hfollows
  | some event => rwa [hlabel] at hfollows

/-- An admitted invocation that is not pending any more is complete. -/
theorem Tracks.complete_of_admitted {s : OperationExecutor} {g : Nat → Stage} (h : Tracks s g)
    {i : Nat} (hadmitted : s.Admitted i) (hgone : i ∉ s.pending) :
    (s.invocation i).complete = true := by
  have hat := h.tracked i
  have hhandling := hat.handling
  have hstage : (g i).admitted := by
    unfold OperationExecutor.Admitted at hadmitted
    cases hpc : s.handler i <;> rw [hpc] at hadmitted hhandling <;>
      simp only [Handler.Agrees] at hhandling hadmitted
    · exact hhandling
    · exact hhandling
    · exact Stage.admitted_of_complete hhandling.1
  rw [hat.flags.2.1]
  by_contra hopen
  exact hgone (hat.mem_pending.mpr
    (Stage.retained_of_admitted hstage (by simpa using hopen)))

theorem Tracks.exists_step {s next : OperationExecutor} {g : Nat → Stage} {action : Action}
    (h : Tracks s g) (hstep : s.step action = some next) : ∃ g', Tracks next g' := by
  have hmatch := step_simulates s g action next h hstep
  cases hlabel : action.label with
  | none =>
      rw [hlabel] at hmatch
      exact ⟨g, hmatch⟩
  | some event =>
      rw [hlabel] at hmatch
      obtain ⟨g', -, htracks⟩ := hmatch
      exact ⟨g', htracks⟩

/-- Every run is tracked, and each invocation ran along its own events. -/
theorem run_tracks {width : Nat} {send : Nat → Bool} {actions : List Action}
    {s : OperationExecutor} (hrun : Machine.run OperationExecutor.step (start width send) actions = some s) :
    ∃ g, Tracks s g ∧ ∀ i, Machine.run Stage.next .prepared
      (Machine.eventsOf i (actions.filterMap Action.label)) = some (g i) := by
  obtain ⟨g, habstract, htracks⟩ := step_simulates.run (tracks_start width send) hrun
  exact ⟨g, htracks, fun i => Machine.run_eventsOf habstract i⟩

end RttHttp.Executor
