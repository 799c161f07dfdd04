import RttHttp.Server.Connections
import RttHttp.Server.Drain
import RttHttp.Executor.Liveness

/-! # What a call of the server waits for

Calls of `Server` wait for `Impl::control`, for the network thread, for its state or for
an executor that shuts down, and for nothing else: at every other point the next section
can be entered. What the server keeps for this is collected in `Poised`.
-/

namespace RttHttp.Server

open Executor (OperationExecutor)
open Machine (Enabled)
open Executor.OperationExecutor (width_of_step begun_of_step closer_of_step closerStep_cases)

/-- How many sections `start` has before it returns, at most. -/
def Starting.left : Starting → Nat
  | .control => 16
  | .guard => 15
  | .join => 14
  | .validate => 13
  | .install => 12
  | .model => 11
  | .replace => 10
  | .retire _ => 9
  | .drain _ => 8
  | .executor => 7
  | .bind => 6
  | .thread => 5
  | .wait => 4
  | .failed _ => 3
  | .returning _ => 2

/-- The same of `finishShutdown` after its call of `stop`. -/
def Finishing.left : Finishing → Nat
  | .control => 7
  | .move => 6
  | .retire _ => 5
  | .drain _ => 4
  | .model => 3
  | .returning => 2

/-- The same of `stop`, which may be followed by the rest of `finishShutdown`. -/
def Stopping.left : Stopping → Nat
  | .request => 12
  | .control => 11
  | .again => 10
  | .join => 9
  | .joined => 8

/-- How many sections a call has before it returns, at most. -/
def Caller.left : Caller → Nat
  | .idle | .started _ | .escaped | .finished => 0
  | .requesting => 1
  | .start _ point => point.left
  | .stop _ point => point.left
  | .finish point => point.left
  | .beginning _ => 13

/-- The caller is about to shut the executor `ref` down. -/
def Caller.Retires (ref : Nat) : Caller → Prop
  | .start _ (.retire old) | .finish (.retire old) => old = ref
  | _ => False

/-- The caller is inside `shutdown()` of the executor `ref`. -/
def Caller.Drains (ref : Nat) : Caller → Prop
  | .start _ (.drain old) | .finish (.drain old) => old = ref
  | _ => False

/-- Points of `start` at which it has accepted its options and installs them. -/
def Starting.validated : Starting → Bool
  | .install | .model | .replace | .retire _ | .drain _ | .executor => true
  | _ => false

/-- Points of a network thread at which `Impl::listener` points to its listener. -/
def Run.published : Run → Bool
  | .watch | .listen | .unlistened => true
  | _ => false

/-- How many sections a network thread has before it ends, at most. -/
def Run.left : Run → Nat
  | .setup => 7
  | .bound => 6
  | .watch => 5
  | .listen => 4
  | .unlistened | .caught _ => 3
  | .cleanup => 2
  | .reset => 1
  | .ended => 0

theorem Run.listen_of_left {run : Run} (hleft : run.left = 4) : run = .listen := by
  cases run <;> simp_all [left]

theorem Run.ended_of_left {run : Run} (hleft : run.left = 0) : run = .ended := by
  cases run <;> simp_all [left]

/-- A section of the caller `c`. -/
def IsCaller (c : Nat) (action : Action) : Prop := ∃ fault, action = .caller c fault

/-- A section of the network thread `k`. -/
def IsRun (k : Nat) (action : Action) : Prop := ∃ own, action = .run k own

namespace Impl

variable {openssl : Bool} {send : Nat → Bool} {s next : Impl} {action : Action}

/-- Each section of a call leaves fewer before it. -/
theorem left_of_caller {c : Nat} {fault : Option Failure}
    (hstep : Step openssl send s (.caller c fault) next) :
    (next.callers c).left < (s.callers c).left := by
  cases hstep with
  | start hpc hpoint =>
      cases hpoint with
      | failure hpoint =>
          rcases hpoint with rfl | rfl | rfl | rfl <;> simp [hpc, Caller.left, Starting.left]
      | _ => simp [hpc, Caller.left, Starting.left]
  | requesting hpc => simp [hpc, Caller.left]
  | @stop _ final _ _ hpc hpoint =>
      cases hpoint with
      | joined => cases final <;> simp [hpc, Caller.left, Stopping.left, Finishing.left]
      | _ => simp [hpc, Caller.left, Stopping.left]
  | @beginning _ final hpc => cases final <;> simp [hpc, Caller.left, Stopping.left]
  | finish hpc hpoint => cases hpoint <;> simp [hpc, Caller.left, Finishing.left]

/-- What becomes of the list of executors: one of them takes a step, or `start` appends a
new one. -/
theorem executors_of_step (hstep : Step openssl send s action next) :
    next.executors = s.executors ∨
    (∃ ref old new own, s.executors[ref]? = some old ∧ old.step own = some new ∧
      next.executors = s.executors.set ref new ∧
      (own ≠ .closer .begin ∨ ∃ c, (s.callers c).Retires ref ∧ (next.callers c).Drains ref)) ∨
    ∃ c o, s.callers c = .start o .executor ∧
      next.executors = s.executors ++ [.start o.workerThreads.toNat send] := by
  cases hstep with
  | @start c o point _ _ hpc hpoint =>
      cases hpoint with
      | @retire ref old new hget hbegin =>
          refine .inr (.inl ⟨ref, old, new, _, hget, hbegin, rfl, .inr ⟨c, ?_, ?_⟩⟩)
          · simp [hpc, Caller.Retires]
          · simp [Caller.Drains]
      | executor => exact .inr (.inr ⟨c, o, hpc, rfl⟩)
      | _ => exact .inl rfl
  | stop hpc hpoint => cases hpoint <;> exact .inl rfl
  | @finish c point _ hpc hpoint =>
      cases hpoint with
      | @retire ref old new hget hbegin =>
          refine .inr (.inl ⟨ref, old, new, _, hget, hbegin, rfl, .inr ⟨c, ?_, ?_⟩⟩)
          · simp [hpc, Caller.Retires]
          · simp [Caller.Drains]
      | _ => exact .inl rfl
  | run hrun => cases hrun <;> exact .inl rfl
  | admission _ _ _ _ hget hadmission =>
      exact .inr (.inl ⟨_, _, _, _, hget, hadmission, rfl, .inl (by simp)⟩)
  | executor hinternal hget hstep =>
      refine .inr (.inl ⟨_, _, _, _, hget, hstep, rfl, .inl ?_⟩)
      rintro rfl
      cases hinternal
  | _ => exact .inl rfl

/-- The same of one executor. -/
theorem executor_of_step {ref : Nat} {old : OperationExecutor}
    (hstep : Step openssl send s action next) (hget : s.executors[ref]? = some old) :
    ∃ new, next.executors[ref]? = some new ∧ (new = old ∨ ∃ own, old.step own = some new ∧
      (own ≠ .closer .begin ∨ ∃ c, (s.callers c).Retires ref ∧ (next.callers c).Drains ref)) := by
  rcases executors_of_step hstep with hsame | ⟨other, old', new, own, hget', hown, hset, hbegin⟩ |
    ⟨c, o, -, happend⟩
  · exact ⟨old, hsame ▸ hget, .inl rfl⟩
  · rw [hset, List.getElem?_set]
    by_cases hother : other = ref
    · subst hother
      obtain rfl : old' = old := Option.some.inj (hget'.symm.trans hget)
      have hlength := (List.getElem?_eq_some_iff.mp hget).1
      exact ⟨new, by rw [if_pos rfl, if_pos hlength], .inr ⟨own, hown, hbegin⟩⟩
    · exact ⟨old, by rw [if_neg hother]; exact hget, .inl rfl⟩
  · have hlength := (List.getElem?_eq_some_iff.mp hget).1
    refine ⟨old, ?_, .inl rfl⟩
    rw [happend, List.getElem?_append_left hlength]
    exact hget

theorem holdsControl_of_retires {ref : Nat} {caller : Caller} (hretires : caller.Retires ref) :
    caller.holdsControl = true := by
  cases caller with
  | start o point => cases point <;> first | rfl | cases hretires
  | finish point => cases point <;> first | rfl | cases hretires
  | _ => cases hretires

theorem not_drains_of_retires {ref : Nat} {caller : Caller} (hretires : caller.Retires ref)
    (hdrains : caller.Drains ref) : False := by
  cases caller with
  | start o point => cases point <;> first | cases hretires; done | cases hdrains
  | finish point => cases point <;> first | cases hretires; done | cases hdrains
  | _ => cases hretires

/-! ## What the server keeps for its callers -/

/-- An executor that a caller has moved out has not been shut down, and is being shut down
from then on. -/
structure MovedOut (s : Impl) : Prop where
  stocked : ∀ ref, s.executor = some ref → ∃ executor, s.executors[ref]? = some executor
  retiring : ∀ c ref, (s.callers c).Retires ref →
    ∃ executor, s.executors[ref]? = some executor ∧ executor.closer = .opened
  draining : ∀ c ref, (s.callers c).Drains ref →
    ∃ executor, s.executors[ref]? = some executor ∧ executor.closer ≠ .opened

theorem movedOut_initial : MovedOut initial where
  stocked ref hcurrent := by cases hcurrent
  retiring c ref hretires := hretires.elim
  draining c ref hdrains := hdrains.elim

theorem MovedOut.stocked_step (h : s.MovedOut) (hstep : Step openssl send s action next) (ref : Nat)
    (hcurrent : next.executor = some ref) : ∃ executor, next.executors[ref]? = some executor := by
  have hkept : s.executor = some ref → ∃ executor, next.executors[ref]? = some executor := by
    intro hold
    obtain ⟨executor, hget⟩ := h.stocked ref hold
    obtain ⟨new, hnew, -⟩ := executor_of_step hstep hget
    exact ⟨new, hnew⟩
  cases hstep with
  | start hpc hpoint =>
      cases hpoint with
      | executor =>
          cases hcurrent
          exact ⟨_, List.getElem?_concat_length⟩
      | replace => cases hcurrent
      | _ => exact hkept hcurrent
  | stop hpc hpoint => cases hpoint <;> exact hkept hcurrent
  | finish hpc hpoint =>
      cases hpoint with
      | move => cases hcurrent
      | _ => exact hkept hcurrent
  | run hrun => cases hrun <;> exact hkept hcurrent
  | _ => exact hkept hcurrent

/-- An executor that is not shut down yet stays so until somebody enters `shutdown()`. -/
theorem opened_of_step {old new : OperationExecutor} {own : Executor.Action}
    (hopened : old.closer = .opened) (hown : own ≠ .closer .begin)
    (hstep : old.step own = some new) : new.closer = .opened := by
  rcases closer_of_step hstep with hsame | ⟨own, rfl⟩
  · exact hsame.trans hopened
  · cases closerStep_cases hstep with
    | begin => exact absurd rfl hown
    | drained hpc | close hpc | joined hpc => simp [hopened] at hpc

theorem MovedOut.retiring_step (h : s.MovedOut) (hl : s.Lifecycle) (hs : s.Stock)
    (hstep : Step openssl send s action next) (c ref : Nat)
    (hretires : (next.callers c).Retires ref) :
    ∃ executor, next.executors[ref]? = some executor ∧ executor.closer = .opened := by
  rcases callers_of_step hstep c with hsame | ⟨operation, rfl⟩ | ⟨fault, rfl⟩
  · have hbefore : (s.callers c).Retires ref := hsame ▸ hretires
    obtain ⟨old, hget, hopened⟩ := h.retiring c ref hbefore
    obtain ⟨new, hnew, rfl | ⟨own, hown, hbegin | ⟨other, hother, hdrains⟩⟩⟩ :=
      executor_of_step hstep hget
    · exact ⟨new, hnew, hopened⟩
    · exact ⟨new, hnew, opened_of_step hopened hbegin hown⟩
    · -- Only the caller itself holds the lock.
      have hunique := hl.holder_unique (holdsControl_of_retires hbefore)
        (holdsControl_of_retires hother)
      subst hunique
      exact (not_drains_of_retires hretires hdrains).elim
  · cases hstep
    cases operation <;> simp [Operation.entry, Caller.Retires] at hretires
  · cases hstep with
    | start hpc hpoint =>
        cases hpoint with
        | replace hexecutor hget hwidth =>
            simp only [setCaller, Function.update_self, Caller.Retires] at hretires
            subst hretires
            exact ⟨_, hget, ((hs.entry _ _ hget).current hexecutor).1⟩
        | _ => simp [Caller.Retires] at hretires
    | finish hpc hpoint =>
        cases hpoint with
        | move hexecutor =>
            simp only [setCaller, Function.update_self, Caller.Retires] at hretires
            subst hretires
            obtain ⟨executor, hget⟩ := h.stocked _ hexecutor
            exact ⟨executor, hget, ((hs.entry _ _ hget).current hexecutor).1⟩
        | _ => simp [Caller.Retires] at hretires
    | @stop _ final _ _ hpc hpoint =>
        cases hpoint <;> cases final <;> simp [Caller.Retires] at hretires
    | requesting => simp [Caller.Retires] at hretires
    | @beginning _ final => cases final <;> simp [Caller.Retires] at hretires

theorem MovedOut.draining_step (h : s.MovedOut) (hstep : Step openssl send s action next)
    (c ref : Nat) (hdrains : (next.callers c).Drains ref) :
    ∃ executor, next.executors[ref]? = some executor ∧ executor.closer ≠ .opened := by
  rcases callers_of_step hstep c with hsame | ⟨operation, rfl⟩ | ⟨fault, rfl⟩
  · obtain ⟨old, hget, hbegun⟩ := h.draining c ref (hsame ▸ hdrains)
    obtain ⟨new, hnew, rfl | ⟨own, hown, -⟩⟩ := executor_of_step hstep hget
    · exact ⟨new, hnew, hbegun⟩
    · exact ⟨new, hnew, begun_of_step hbegun hown⟩
  · cases hstep
    cases operation <;> simp [Operation.entry, Caller.Drains] at hdrains
  · have hentered : ∀ (executors : List OperationExecutor) {old new : OperationExecutor},
        executors[ref]? = some old → old.step (.closer .begin) = some new →
        ∃ executor, (executors.set ref new)[ref]? = some executor ∧ executor.closer ≠ .opened := by
      intro executors old new hget hbegin
      have hlength := (List.getElem?_eq_some_iff.mp hget).1
      refine ⟨new, List.getElem?_set_self hlength, ?_⟩
      cases closerStep_cases hbegin with
      | begin => simp
    cases hstep with
    | start hpc hpoint =>
        cases hpoint with
        | retire hget hbegin =>
            simp only [setCaller, Function.update_self, Caller.Drains] at hdrains
            subst hdrains
            exact hentered _ hget hbegin
        | _ => simp [Caller.Drains] at hdrains
    | finish hpc hpoint =>
        cases hpoint with
        | retire hget hbegin =>
            simp only [setCaller, Function.update_self, Caller.Drains] at hdrains
            subst hdrains
            exact hentered _ hget hbegin
        | _ => simp [Caller.Drains] at hdrains
    | @stop _ final _ _ hpc hpoint =>
        cases hpoint <;> cases final <;> simp [Caller.Drains] at hdrains
    | requesting => simp [Caller.Drains] at hdrains
    | @beginning _ final => cases final <;> simp [Caller.Drains] at hdrains

/-- `start` goes on only with options that pass the check. -/
def Validated (openssl : Bool) (s : Impl) : Prop :=
  ∀ c o point, s.callers c = .start o point → point.validated = true →
    validateOptions openssl o = .ok ()

theorem Validated.step (h : s.Validated openssl) (hstep : Step openssl send s action next) :
    next.Validated openssl := by
  intro c o point hpc hvalidated
  rcases start_of_step hstep hpc with hsame | rfl | ⟨earlier, fault, hbefore, -, hpoint⟩
  · exact h c o point hsame hvalidated
  · cases hvalidated
  · cases hpoint with
    | validate hvalid => exact hvalid
    | returning => simp at hpc
    | control | guardError | guardRunning | guard | join | invalid | conflict | bind | stopped
    | thread | running | interrupted | failed | failure =>
        simp only [setCaller, setRun, Function.update_self, Caller.start.injEq] at hpc
        rw [← hpc.2] at hvalidated
        cases hvalidated
    | _ => exact h c o _ hbefore rfl

/-- Every executor has threads. -/
def Manned (s : Impl) : Prop := ∀ executor ∈ s.executors, 0 < executor.width

theorem Manned.step (h : s.Manned) (hvalidated : s.Validated openssl)
    (hstep : Step openssl send s action next) : next.Manned := by
  intro executor hmem
  rcases executors_of_step hstep with hsame | ⟨ref, old, new, own, hget, hown, hset, -⟩ |
    ⟨c, o, hpc, happend⟩
  · exact h executor (hsame ▸ hmem)
  · rw [hset] at hmem
    rcases List.mem_or_eq_of_mem_set hmem with hold | rfl
    · exact h executor hold
    · rw [width_of_step hown]
      exact h old (List.mem_of_getElem? hget)
  · rw [happend] at hmem
    rcases List.mem_append.mp hmem with hold | hnew
    · exact h executor hold
    · rw [List.mem_singleton.mp hnew]
      exact (pos_of_validateOptions (hvalidated c o .executor hpc rfl)).2

/-- A caller of `stop` that holds the lock has asked for the stop. -/
def Halting (s : Impl) : Prop :=
  ∀ c final, s.callers c = .stop final .join → s.state = .stopping ∨ s.state = .stopped

theorem halting_requestStop (s : Impl) :
    s.requestStopLocked.state = .stopping ∨ s.requestStopLocked.state = .stopped := by
  unfold requestStopLocked
  cases s.state <;> simp

/-- A stop that has been asked for is not taken back but by the holder of the lock. -/
theorem halting_of_step (hstep : Step openssl send s action next)
    (hstate : s.state = .stopping ∨ s.state = .stopped)
    (hinstall : ∀ c o, s.callers c ≠ .start o .install) :
    next.state = .stopping ∨ next.state = .stopped := by
  have hrequest : ∀ t : Impl, t.requestStopLocked.state = .stopping ∨
      t.requestStopLocked.state = .stopped := halting_requestStop
  cases hstep with
  | start hpc hpoint =>
      cases hpoint with
      | install => exact absurd hpc (hinstall _ _)
      | stopped => exact .inr rfl
      | failed => exact .inr rfl
      | _ => exact hstate
  | requesting => exact hrequest s
  | stop hpc hpoint =>
      cases hpoint with
      | request | again => exact hrequest s
      | _ => exact hstate
  | beginning => exact hrequest { s with finalShutdown := true }
  | finish hpc hpoint => cases hpoint <;> exact hstate
  | run hrun =>
      cases hrun with
      | advance | refused => exact hstate
      | startHandler _ hstarting => simp [hstarting] at hstate
      | poolShutdown => exact hrequest s
      | @caught message => exact hrequest { s with error := message }
      | finish => exact .inr rfl
  | _ => exact hstate

theorem Halting.step (h : s.Halting) (hl : s.Lifecycle) (hstep : Step openssl send s action next) :
    next.Halting := by
  intro c final hpc
  rcases callers_of_step hstep c with hsame | ⟨operation, rfl⟩ | ⟨fault, rfl⟩
  · have hbefore := hsame.symm.trans hpc
    refine halting_of_step hstep (h c final hbefore) fun other o hother => ?_
    have hunique := hl.holder_unique (show (s.callers c).holdsControl = true by rw [hbefore]; rfl)
      (show (s.callers other).holdsControl = true by rw [hother]; rfl)
    rw [hunique, hbefore] at hother
    cases hother
  · cases hstep
    cases operation <;> simp [Operation.entry] at hpc
  · cases hstep with
    | start _ hpoint => cases hpoint <;> simp at hpc
    | @stop _ final' _ _ _ hpoint =>
        cases hpoint with
        | again => exact halting_requestStop s
        | joined => cases final' <;> simp at hpc
        | _ => simp at hpc
    | finish _ hpoint => cases hpoint <;> simp at hpc
    | requesting => simp at hpc
    | @beginning _ final' => cases final' <;> simp at hpc

/-- A network thread that has published its listener has not taken it back. -/
def Listening (s : Impl) : Prop := ∀ k, (s.runs k).published = true → s.listener = true

/-- What a section of a network thread does to its point and to the listener. -/
theorem published_of_runStep {k : Nat} {own : RunAction} (hstep : s.runStep k own = some next)
    (hkept : (s.runs k).published = true → s.listener = true) :
    ((next.runs k).published = true → next.listener = true) ∧
      (∀ j, j ≠ k → next.runs j = s.runs j) ∧
      (next.listener = s.listener ∨ s.runs k ≠ .ended) := by
  revert hstep
  fun_cases runStep s k own <;> simp only [Option.some.injEq, reduceCtorEq, false_implies]
  all_goals rintro rfl
  all_goals simp_all [Run.published, requestStopLocked]

theorem Listening.step (h : s.Listening) (hl : s.Lifecycle)
    (hstep : s.step openssl send action = some next) : next.Listening := by
  intro j hpublished
  have hrest : Step openssl send s action next := step_cases hstep
  cases hrest with
  | start hpc hpoint =>
      cases hpoint with
      | thread =>
          by_cases hj : j = s.spawned
          · subst hj
            simp [Run.published] at hpublished
          · exact h j (by simpa [Function.update_of_ne hj] using hpublished)
      | _ => exact h j hpublished
  | stop hpc hpoint => cases hpoint <;> exact h j hpublished
  | finish hpc hpoint => cases hpoint <;> exact h j hpublished
  | @run k own _ hrun =>
      obtain ⟨hself, hothers, hlistener⟩ := published_of_runStep hstep (h k)
      by_cases hj : j = k
      · subst hj
        exact hself hpublished
      · rw [hothers j hj] at hpublished
        rcases hlistener with hsame | hactive
        · rw [hsame]
          exact h j hpublished
        · -- Two network threads would be active.
          have hown : s.runs j ≠ .ended := fun hended => by
            rw [hended] at hpublished
            cases hpublished
          have hnetwork := (hl.active j hown).1
          rw [(hl.active k hactive).1, Option.some.injEq] at hnetwork
          exact absurd hnetwork.symm hj
  | _ => exact h j hpublished

/-- Network threads that have not been spawned have not begun. -/
def Fresh (s : Impl) : Prop := ∀ k, s.spawned ≤ k → s.runs k = .ended

theorem Fresh.step (h : s.Fresh) (hstep : Step openssl send s action next) : next.Fresh := by
  intro j hj
  cases hstep with
  | start hpc hpoint =>
      cases hpoint with
      | thread =>
          have hnew : s.spawned + 1 ≤ j := hj
          have hne : j ≠ s.spawned := by omega
          simpa [Function.update_of_ne hne] using h j (Nat.le_of_succ_le hnew)
      | _ => exact h j hj
  | stop hpc hpoint => cases hpoint <;> exact h j hj
  | finish hpc hpoint => cases hpoint <;> exact h j hj
  | @run k _ _ hrun =>
      have hended : s.spawned ≤ j → s.runs j = .ended := h j
      have hother : ∀ {point : Run}, s.runs k ≠ .ended → s.spawned ≤ j →
          Function.update s.runs k point j = .ended := by
        intro point hactive hle
        have hne : j ≠ k := fun heq => hactive (heq ▸ h j hle)
        rw [Function.update_of_ne hne]
        exact h j hle
      cases hrun with
      | advance hactive => exact hother hactive hj
      | caught hactive => exact hother (by simp [hactive]) hj
      | finish hactive => exact hother (by simp [hactive]) hj
      | startHandler | refused | poolShutdown => exact h j hj
  | _ => exact h j hj

/-- What the server keeps for those who wait. -/
structure Poised (openssl : Bool) (s : Impl) : Prop where
  lifecycle : s.Lifecycle
  stock : s.Stock
  movedOut : s.MovedOut
  validated : s.Validated openssl
  manned : s.Manned
  halting : s.Halting
  listening : s.Listening
  fresh : s.Fresh

theorem poised_initial : Poised openssl initial where
  lifecycle := lifecycle_initial
  stock := stock_initial
  movedOut := movedOut_initial
  validated := nofun
  manned executor hmem := by cases hmem
  halting := nofun
  listening k hpublished := by cases hpublished
  fresh _ _ := rfl

theorem Poised.step (h : s.Poised openssl) (hstep : s.step openssl send action = some next) :
    next.Poised openssl where
  lifecycle := h.lifecycle.of_step hstep
  stock := h.stock.step h.lifecycle (step_cases hstep)
  movedOut :=
    { stocked := h.movedOut.stocked_step (step_cases hstep)
      retiring := h.movedOut.retiring_step h.lifecycle h.stock (step_cases hstep)
      draining := h.movedOut.draining_step (step_cases hstep) }
  validated := h.validated.step (step_cases hstep)
  manned := h.manned.step h.validated (step_cases hstep)
  halting := h.halting.step h.lifecycle (step_cases hstep)
  listening := h.listening.step h.lifecycle hstep
  fresh := h.fresh.step (step_cases hstep)

/-! ## Who can go on -/

/-- What keeps a caller at its point from entering the next section. -/
def Waits (s : Impl) : Caller → Prop
  | .start _ .control | .stop _ .control | .finish .control => s.control ≠ none
  | .start _ .join | .stop _ .join => ∃ k, s.network = some k ∧ s.runs k ≠ .ended
  | .start _ .wait => s.state ≠ .running ∧ s.state ≠ .stopped
  | .start _ (.drain ref) | .finish (.drain ref) => s.retired ref = false
  | _ => False

def Blocked (s : Impl) (c : Nat) : Prop := s.Waits (s.callers c)

/-- While the lock is free, nobody waits but one inside a locked section. -/
theorem holdsControl_of_waits {caller : Caller} (hcontrol : s.control = none)
    (hwaits : s.Waits caller) : caller.holdsControl = true := by
  revert hwaits
  cases caller with
  | start o point => cases point <;> simp [Waits, Caller.holdsControl, hcontrol]
  | stop final point => cases point <;> simp [Waits, Caller.holdsControl, hcontrol]
  | finish point => cases point <;> simp [Waits, Caller.holdsControl, hcontrol]
  | _ => exact False.elim

theorem joinNetwork_isSome (hfree : ¬∃ k, s.network = some k ∧ s.runs k ≠ .ended) :
    s.joinNetwork.isSome := by
  unfold joinNetwork
  cases hnetwork : s.network with
  | none => rfl
  | some k =>
      have hended : s.runs k = .ended := by
        by_contra hactive
        exact hfree ⟨k, hnetwork, hactive⟩
      simp [hended]

/-- A caller of `start` goes on, unless it waits for one of these. -/
theorem startStep_isSome {c : Nat} {o : ServerOptions} {point : Starting} (h : s.Poised openssl)
    (hpc : s.callers c = .start o point) (hfree : ¬s.Blocked c) :
    (s.startStep openssl send c o point none).isSome := by
  simp only [Blocked, hpc, Waits] at hfree
  cases point with
  | control =>
      have hcontrol : s.control = none := by simpa using hfree
      simp [startStep, hcontrol]
  | guard =>
      simp only [startStep]
      split
      · rfl
      · split
        · rfl
        · split <;> rfl
  | join => simpa [startStep] using joinNetwork_isSome hfree
  | validate =>
      simp only [startStep]
      split <;> rfl
  | install =>
      simp only [startStep]
      split <;> rfl
  | model =>
      simp only [startStep]
      split <;> rfl
  | replace =>
      simp only [startStep]
      cases hexecutor : s.executor with
      | none => rfl
      | some ref =>
          obtain ⟨executor, hget⟩ := h.movedOut.stocked ref hexecutor
          simp only [hget]
          split <;> rfl
  | retire ref =>
      obtain ⟨executor, hget, hopened⟩ := h.movedOut.retiring c ref (by rw [hpc]; rfl)
      simp [startStep, executorStep, hget, OperationExecutor.step, OperationExecutor.closerStep,
        hopened]
  | drain ref =>
      have hretired : s.retired ref = true := by simpa using hfree
      simp [startStep, hretired]
  | executor => rfl
  | bind =>
      simp only [startStep]
      split <;> rfl
  | thread => rfl
  | wait =>
      simp only [startStep]
      by_cases hrunning : s.state = .running
      · simp [hrunning]
      · have hstopped : s.state = .stopped := by
          by_contra hstopped
          exact hfree ⟨hrunning, hstopped⟩
        simp [hstopped]
  | failed message => rfl
  | returning result => rfl

/-- A caller inside a call goes on, unless it waits for one of these. -/
theorem caller_enabled {c : Nat} (h : s.Poised openssl) (hinside : (s.callers c).returned = false)
    (hfree : ¬s.Blocked c) : Enabled (step openssl send) (IsCaller c) s := by
  refine ⟨.caller c none, ⟨none, rfl⟩, ?_⟩
  change (s.callerStep openssl send c none).isSome
  cases hpc : s.callers c with
  | idle => simp [hpc, Caller.returned] at hinside
  | started result => simp [hpc, Caller.returned] at hinside
  | escaped => simp [hpc, Caller.returned] at hinside
  | finished => simp [hpc, Caller.returned] at hinside
  | start o point =>
      simp only [callerStep, hpc]
      exact startStep_isSome h hpc hfree
  | requesting => simp [callerStep, hpc]
  | beginning final => simp [callerStep, hpc]
  | stop final point =>
      simp only [callerStep, hpc]
      simp only [Blocked, hpc, Waits] at hfree
      cases point with
      | control =>
          have hcontrol : s.control = none := by simpa using hfree
          simp [stopStep, hcontrol]
      | join => simpa [stopStep] using joinNetwork_isSome hfree
      | request | again | joined => rfl
  | finish point =>
      simp only [callerStep, hpc]
      simp only [Blocked, hpc, Waits] at hfree
      cases point with
      | control =>
          have hcontrol : s.control = none := by simpa using hfree
          simp [finishStep, hcontrol]
      | move =>
          simp only [finishStep]
          split <;> rfl
      | retire ref =>
          obtain ⟨executor, hget, hopened⟩ := h.movedOut.retiring c ref (by rw [hpc]; rfl)
          simp [finishStep, executorStep, hget, OperationExecutor.step,
            OperationExecutor.closerStep, hopened]
      | drain ref =>
          have hretired : s.retired ref = true := by simpa using hfree
          simp [finishStep, hretired]
      | model | returning => rfl

/-- A network thread goes on, and comes nearer to its end but while it listens. -/
theorem left_of_runStep {k : Nat} {own : RunAction} (hstep : s.runStep k own = some next) :
    (next.runs k).left < (s.runs k).left ∨ s.runs k = .listen ∧ next.runs = s.runs := by
  revert hstep
  fun_cases runStep s k own <;> simp only [Option.some.injEq, reduceCtorEq, false_implies]
  all_goals rintro rfl
  case case9 ok hpc => exact .inl (by cases ok <;> simp [hpc, Run.left])
  all_goals simp_all [Run.left, requestStopLocked]

theorem run_enabled {k : Nat} (hactive : s.runs k ≠ .ended) :
    Enabled (step openssl send) (IsRun k) s := by
  have hsuffices : ∀ own, (s.runStep k own).isSome → Enabled (step openssl send) (IsRun k) s :=
    fun own hsome => ⟨.run k own, ⟨own, rfl⟩, hsome⟩
  cases hpc : s.runs k with
  | setup => exact hsuffices .bind (by simp [runStep, hpc])
  | bound => exact hsuffices .publishListener (by simp [runStep, hpc])
  | watch => exact hsuffices .watched (by simp [runStep, hpc])
  | listen => exact hsuffices (.listened true) (by simp [runStep, hpc])
  | unlistened => exact hsuffices .recordFailure (by simp [runStep, hpc])
  | caught message => exact hsuffices .catchFailure (by simp [runStep, hpc])
  | cleanup => exact hsuffices .clean (by simp [runStep, hpc])
  | reset => exact hsuffices .finish (by simp [runStep, hpc])
  | ended => exact absurd hpc hactive

end Impl

end RttHttp.Server
