import RttHttp.Server.Threads
import Mathlib.Algebra.Order.BigOperators.Group.Finset

/-! # Every call of the server returns

If the callers of a server do not move any more, one of them has everything it waits for:
the one that holds `Impl::control`, or any other when nobody does. So they move until all
of them have returned, unless new calls keep coming, and the server is left running or
stopped.
-/

namespace RttHttp.Server

open Executor (OperationExecutor)
open Machine (Path Enabled)

namespace Impl

variable {openssl : Bool} {send : Nat → Bool}

section Step

variable {s next : Impl} {action : Action}

theorem network_of_step (hstep : Step openssl send s action next)
    (hothers : ∀ c fault, action ≠ .caller c fault) : next.network = s.network := by
  cases hstep with
  | start | stop | finish => exact absurd rfl (hothers _ _)
  | requesting | beginning => rfl
  | run hrun => cases hrun <;> rfl
  | _ => rfl

/-- A stopped server stays so until it is started. -/
theorem stopped_of_step (hstep : Step openssl send s action next)
    (hothers : ∀ c fault, action ≠ .caller c fault) (hstopped : s.state = .stopped) :
    next.state = .stopped := by
  cases hstep with
  | start | stop | finish | requesting | beginning => exact absurd rfl (hothers _ _)
  | run hrun =>
      cases hrun with
      | startHandler _ hstarting => simp [hstopped] at hstarting
      | finish => rfl
      | advance | refused => exact hstopped
      | poolShutdown | caught => simp [requestStopLocked, hstopped]
  | _ => exact hstopped

/-- Only `start` spawns a network thread. -/
theorem ended_of_step (hstep : Step openssl send s action next)
    (hothers : ∀ c fault, action ≠ .caller c fault) (hended : ∀ k, s.runs k = .ended) (k : Nat) :
    next.runs k = .ended := by
  cases hstep with
  | start | stop | finish | requesting | beginning => exact absurd rfl (hothers _ _)
  | run hrun =>
      cases hrun with
      | advance hactive => exact absurd (hended _) hactive
      | startHandler hactive => exact absurd ((hended _).symm.trans hactive) (by simp)
      | poolShutdown hactive => exact absurd ((hended _).symm.trans hactive) (by simp)
      | caught hactive => exact absurd ((hended _).symm.trans hactive) (by simp)
      | finish hactive => exact absurd ((hended _).symm.trans hactive) (by simp)
      | refused => exact hended k
  | _ => exact hended k

/-- Only a caller begins another `shutdown()` of an executor. -/
theorem retired_of_step {ref : Nat} (hstep : Step openssl send s action next)
    (hothers : ∀ c fault, action ≠ .caller c fault) (hretired : s.retired ref = true) :
    next.retired ref = true := by
  obtain ⟨old, hget, hclosed⟩ := (retired_iff s ref).mp hretired
  obtain ⟨new, hnew, rfl | ⟨own, hown, hbegin⟩⟩ := executor_of_step hstep hget
  · exact (retired_iff next ref).mpr ⟨new, hnew, hclosed⟩
  · have hnot : own ≠ .closer .begin := by
      rcases hbegin with hother | ⟨c, hretires, hdrains⟩
      · exact hother
      · rcases callers_of_step hstep c with hsame | ⟨operation, rfl⟩ | ⟨fault, heq⟩
        · exact (not_drains_of_retires hretires (hsame ▸ hdrains)).elim
        · cases hstep
          cases operation <;> simp [Operation.entry, Caller.Drains] at hdrains
        · exact absurd heq (hothers c fault)
    refine (retired_iff next ref).mpr ⟨new, hnew, ?_⟩
    rcases Executor.OperationExecutor.closer_of_step hown with hsame | ⟨closer, rfl⟩
    · exact hsame.trans hclosed
    · cases Executor.OperationExecutor.closerStep_cases hown with
      | begin => exact absurd rfl hnot
      | drained hpc | close hpc | joined hpc => simp [hclosed] at hpc

end Step

variable {path : Path (step openssl send)} {n m c : Nat}

/-- From the moment `n` on no caller moves. -/
def Frozen (path : Path (step openssl send)) (n : Nat) : Prop :=
  ∀ m, n ≤ m → (path.state m).callers = (path.state n).callers

theorem Frozen.later (h : Frozen path n) (hm : n ≤ m) : Frozen path m :=
  fun k hk => (h k (hm.trans hk)).trans (h m hm).symm

/-- Every section of a call moves its caller. -/
theorem Frozen.not_caller (h : Frozen path n) (hm : n ≤ m) (c : Nat) (fault : Option Failure) :
    path.action m ≠ some (.caller c fault) := by
  intro haction
  have hleft := left_of_caller (step_cases (path.step_of_action haction))
  rw [h m hm, h (m + 1) (hm.trans (Nat.le_succ m))] at hleft
  exact Nat.lt_irrefl _ hleft

/-- What only callers can end stays as it is. -/
theorem Frozen.keeps (h : Frozen path n) (holds : Impl → Prop)
    (hstep : ∀ s action next, Step openssl send s action next →
      (∀ c fault, action ≠ .caller c fault) → holds s → holds next)
    (hn : holds (path.state n)) (hm : n ≤ m) : holds (path.state m) := by
  induction m, hm using Nat.le_induction with
  | base => exact hn
  | succ m hm ih =>
      rcases path.rest_or_step m with ⟨-, hrest⟩ | ⟨action, haction, hnext⟩
      · rw [hrest]
        exact ih
      · refine hstep _ action _ (step_cases hnext) (fun c fault heq => ?_) ih
        subst heq
        exact h.not_caller hm c fault haction

theorem Frozen.network (h : Frozen path n) (hm : n ≤ m) :
    (path.state m).network = (path.state n).network :=
  h.keeps (fun s => s.network = (path.state n).network)
    (fun _ _ _ hstep hothers hs => (network_of_step hstep hothers).trans hs) rfl hm

theorem Frozen.stopped (h : Frozen path n) (hstopped : (path.state n).state = .stopped)
    (hm : n ≤ m) : (path.state m).state = .stopped :=
  h.keeps (fun s => s.state = .stopped) (fun _ _ _ => stopped_of_step) hstopped hm

/-- A caller that could always go on would have done so. -/
theorem Frozen.blocked (h : Frozen path n) (hfair : Fair path) (hstart : path.state 0 = initial)
    (hinside : ((path.state n).callers c).returned = false) :
    ¬∀ m, n ≤ m → ¬(path.state m).Blocked c := by
  intro hfree
  obtain ⟨m, hm, action, haction, fault, rfl⟩ := hfair.callers c n fun m hm =>
    caller_enabled (poised_of_path hstart m) (by rw [h m hm]; exact hinside) (hfree m hm)
  exact h.not_caller hm c fault haction

/-- With nobody about to open a listener, the server comes to run or to stop, unless it has
been abandoned. -/
theorem Frozen.settles (h : Frozen path n) (hfair : Fair path) (hstart : path.state 0 = initial)
    (hclosed : ∀ c, ((path.state n).callers c).opening = false) :
    ∃ m, n ≤ m ∧ ((∀ l, m ≤ l → (path.state l).state = .running) ∨
      (∀ l, m ≤ l → (path.state l).state = .stopped) ∨
      ∀ l, m ≤ l → (path.state l).Abandoned ∧ Escaped path l) := by
  have hpoised := poised_of_path hstart
  by_cases hstopped : ∃ m, n ≤ m ∧ (path.state m).state = .stopped
  · obtain ⟨m, hm, hstopped⟩ := hstopped
    exact ⟨m, hm, .inr (.inl fun l hl => (h.later hm).stopped hstopped hl)⟩
  by_cases habandoned : ∃ m, n ≤ m ∧ (path.state m).Abandoned
  · obtain ⟨m, hm, habandoned⟩ := habandoned
    exact ⟨m, hm, .inr (.inr fun l hl => abandoned_of_path hstart habandoned hl)⟩
  · -- Somebody answers for a server that is not stopped: its network thread.
    have hactive : ∀ m, n ≤ m → ∃ k, (path.state m).runs k ≠ .ended := by
      intro m hm
      rcases (hpoised m).lifecycle.quiet with (hstate | hactive | ⟨c, hopening⟩) | hleft
      · exact absurd ⟨m, hm, hstate⟩ hstopped
      · exact hactive
      · rw [h m hm, hclosed c] at hopening
        cases hopening
      · exact absurd ⟨m, hm, hleft⟩ habandoned
    obtain ⟨k, hk⟩ := hactive n le_rfl
    have hspawned : k < (path.state n).spawned := by
      by_contra hnone
      exact hk ((hpoised n).fresh k (Nat.not_lt.mp hnone))
    rcases run_settles hfair hstart hspawned with ⟨m, hm, hended⟩ | ⟨m, hm, hserves⟩
    · obtain ⟨j, hj⟩ := hactive m hm
      have hnetwork := ((hpoised n).lifecycle.active k hk).1
      have hself := ((hpoised m).lifecycle.active j hj).1
      rw [h.network hm, hnetwork, Option.some.injEq] at hself
      exact absurd (hself ▸ hended) hj
    · exact ⟨m, hm, .inl fun l hl => (hserves l hl).2⟩

/-- The network thread that somebody joins ends, unless it serves. -/
theorem Frozen.joined (h : Frozen path n) (hfair : Fair path) (hstart : path.state 0 = initial)
    (hhalting : ∀ m, n ≤ m → (path.state m).state ≠ .running) :
    ∃ m, n ≤ m ∧ ∀ l, m ≤ l → ∀ k, (path.state l).network = some k →
      (path.state l).runs k = .ended := by
  have hpoised := poised_of_path hstart
  by_cases hactive : ∃ k, (path.state n).runs k ≠ .ended
  · obtain ⟨k, hk⟩ := hactive
    have hspawned : k < (path.state n).spawned := by
      by_contra hnone
      exact hk ((hpoised n).fresh k (Nat.not_lt.mp hnone))
    have hnetwork := ((hpoised n).lifecycle.active k hk).1
    rcases run_settles hfair hstart hspawned with ⟨m, hm, hended⟩ | ⟨m, hm, hserves⟩
    · refine ⟨m, hm, fun l hl j hj => ?_⟩
      rw [h.network (hm.trans hl), hnetwork, Option.some.injEq] at hj
      have hlater := (left_of_path (left_of_path hspawned hm).1 hl).2
      rw [hended] at hlater
      exact hj ▸ Run.ended_of_left (Nat.le_zero.mp hlater)
    · exact absurd (hserves m le_rfl).2 (hhalting m hm)
  · have hended : ∀ k, (path.state n).runs k = .ended := by
      intro k
      by_contra hk
      exact hactive ⟨k, hk⟩
    exact ⟨n, le_rfl, fun l hl k _ =>
      h.keeps (fun s => ∀ k, s.runs k = .ended) (fun _ _ _ => ended_of_step) hended hl k⟩

/-- The executor that somebody shuts down is closed at some time. -/
theorem Frozen.drained (h : Frozen path n) (hfair : Fair path) (hstart : path.state 0 = initial)
    {ref : Nat} (hdrains : ((path.state n).callers c).Drains ref)
    (hout : ∀ m, n ≤ m → (path.state m).executor = none) :
    ∃ m, n ≤ m ∧ ∀ l, m ≤ l → (path.state l).retired ref = true := by
  obtain ⟨executor, hget, hbegun⟩ := (poised_of_path hstart n).movedOut.draining c ref hdrains
  obtain ⟨m, closed, hm, hclosed⟩ := executor_closes hfair hstart hget hbegun fun m hm => by
    rw [hout m hm]
    simp
  have hretired : (path.state m).retired ref = true := (retired_iff _ ref).mpr ⟨closed, hclosed⟩
  exact ⟨m, hm, fun l hl => (h.later hm).keeps (fun s => s.retired ref = true)
    (fun _ _ _ => retired_of_step) hretired hl⟩

/-- Whoever holds `Impl::control` has what it waits for at some time. -/
theorem Frozen.unblocked (h : Frozen path n) (hfair : Fair path) (hstart : path.state 0 = initial)
    (hholds : ((path.state n).callers c).holdsControl = true) :
    ∃ m, n ≤ m ∧ ∀ l, m ≤ l → ¬(path.state l).Blocked c := by
  have hpoised := poised_of_path hstart
  have hassert : ∀ l, n ≤ l → (path.state l).Assertion ((path.state n).callers c) :=
    fun l hl => congrFun (h l hl) c ▸ (hpoised l).lifecycle.assertion c
  have hblocked : ∀ l, n ≤ l → (path.state l).Blocked c →
      (path.state l).Waits ((path.state n).callers c) := by
    intro l hl hwaits
    rwa [Blocked, congrFun (h l hl) c] at hwaits
  cases hpc : (path.state n).callers c with
  | idle | started | escaped | finished | requesting | beginning =>
      simp [hpc, Caller.holdsControl] at hholds
  | start o point =>
      simp only [hpc, Waits] at hblocked hassert
      cases point with
      | control => simp [hpc, Caller.holdsControl] at hholds
      | join =>
          refine ⟨n, le_rfl, fun l hl hwaits => ?_⟩
          obtain ⟨k, -, hactive⟩ := hblocked l hl hwaits
          exact ((hpoised l).lifecycle.active k hactive).2.1 (hassert l hl)
      | wait =>
          have hclosed : ∀ other, ((path.state n).callers other).opening = false := by
            intro other
            by_contra hopening
            have hunique := (hpoised n).lifecycle.holder_unique hholds
              (Caller.holdsControl_of_opening (by simpa using hopening))
            rw [hunique, hpc] at hopening
            exact hopening rfl
          obtain ⟨m, hm, hsettled⟩ := h.settles hfair hstart hclosed
          refine ⟨m, hm, fun l hl hwaits => ?_⟩
          obtain ⟨hrunning, hstopped⟩ := hblocked l (hm.trans hl) hwaits
          rcases hsettled with hruns | hstops | habandoned
          · exact hrunning (hruns l hl)
          · exact hstopped (hstops l hl)
          · -- No `start` waits in a server that has been abandoned.
            have hcommitted := (habandoned l hl).1.committed c
            rw [congrFun (h l (hm.trans hl)) c, hpc] at hcommitted
            cases hcommitted
      | drain ref =>
          have hdrains : ((path.state n).callers c).Drains ref := by
            rw [hpc]
            rfl
          obtain ⟨m, hm, hretired⟩ :=
            h.drained hfair hstart hdrains fun l hl => (hassert l hl).2.2
          refine ⟨m, hm, fun l hl hwaits => ?_⟩
          exact absurd ((hretired l hl).symm.trans (hblocked l (hm.trans hl) hwaits)) (by simp)
      | _ => exact ⟨n, le_rfl, fun l hl hwaits => hblocked l hl hwaits⟩
  | stop final point =>
      simp only [hpc, Waits] at hblocked
      cases point with
      | control => simp [hpc, Caller.holdsControl] at hholds
      | join =>
          obtain ⟨m, hm, hended⟩ := h.joined hfair hstart fun l hl => by
            have hhalting := (hpoised l).halting c final ((congrFun (h l hl) c).trans hpc)
            rcases hhalting with hstate | hstate <;> simp [hstate]
          refine ⟨m, hm, fun l hl hwaits => ?_⟩
          obtain ⟨k, hnetwork, hactive⟩ := hblocked l (hm.trans hl) hwaits
          exact hactive (hended l hl k hnetwork)
      | _ => exact ⟨n, le_rfl, fun l hl hwaits => hblocked l hl hwaits⟩
  | finish point =>
      simp only [hpc, Waits] at hblocked hassert
      cases point with
      | control => simp [hpc, Caller.holdsControl] at hholds
      | drain ref =>
          have hdrains : ((path.state n).callers c).Drains ref := by
            rw [hpc]
            rfl
          obtain ⟨m, hm, hretired⟩ := h.drained hfair hstart hdrains fun l hl => (hassert l hl).2
          refine ⟨m, hm, fun l hl hwaits => ?_⟩
          exact absurd ((hretired l hl).symm.trans (hblocked l (hm.trans hl) hwaits)) (by simp)
      | _ => exact ⟨n, le_rfl, fun l hl hwaits => hblocked l hl hwaits⟩

/-- If no caller moves any more, all of them have returned. -/
theorem Frozen.returned (h : Frozen path n) (hfair : Fair path) (hstart : path.state 0 = initial)
    (c : Nat) : ((path.state n).callers c).returned = true := by
  by_contra hinside
  have hpoised := poised_of_path hstart
  by_cases hheld : ∃ holder, ((path.state n).callers holder).holdsControl = true
  · obtain ⟨holder, hholds⟩ := hheld
    obtain ⟨m, hm, hfree⟩ := h.unblocked hfair hstart hholds
    refine (h.later hm).blocked hfair hstart ?_ hfree
    rw [h m hm]
    cases hpc : (path.state n).callers holder <;> simp_all [Caller.returned, Caller.holdsControl]
  · -- The lock is free.
    refine h.blocked hfair hstart (by simpa using hinside) fun m hm hwaits => hheld ⟨c, ?_⟩
    have hcontrol : (path.state m).control = none := by
      by_contra hsome
      obtain ⟨holder, hholder⟩ := Option.ne_none_iff_exists'.mp hsome
      have hholds := ((hpoised m).lifecycle.control holder).mp hholder
      rw [h m hm] at hholds
      exact hheld ⟨holder, hholds⟩
    rw [← h m hm]
    exact holdsControl_of_waits hcontrol hwaits

/-! ## The sections that are left -/

/-- How many sections the callers below `bound` have before they return, at most. -/
def total (bound : Nat) (s : Impl) : Nat := ∑ c ∈ Finset.range bound, (s.callers c).left

theorem total_of_step {s next : Impl} {action : Action} {bound : Nat}
    (hstep : Step openssl send s action next) (hquiet : ∀ c operation, action ≠ .call c operation)
    (houtside : ∀ c, bound ≤ c → (s.callers c).left = 0) :
    next.callers = s.callers ∨
      next.total bound < s.total bound ∧ ∀ c, bound ≤ c → (next.callers c).left = 0 := by
  by_cases hmoved : ∃ c fault, action = .caller c fault
  · obtain ⟨c, fault, rfl⟩ := hmoved
    have hlower := left_of_caller hstep
    have hothers : ∀ other, other ≠ c → next.callers other = s.callers other := by
      intro other hother
      rcases callers_of_step hstep other with hsame | ⟨operation, heq⟩ | ⟨fault', heq⟩
      · exact hsame
      · cases heq
      · cases heq
        exact absurd rfl hother
    have hbound : c < bound := by
      by_contra hout
      rw [houtside c (Nat.not_lt.mp hout)] at hlower
      exact Nat.not_lt_zero _ hlower
    refine .inr ⟨Finset.sum_lt_sum (fun other _ => ?_) ⟨c, Finset.mem_range.mpr hbound, hlower⟩, ?_⟩
    · by_cases hother : other = c
      · exact hother ▸ hlower.le
      · rw [hothers other hother]
    · intro other hother
      rw [hothers other (by omega)]
      exact houtside other hother
  · refine .inl (funext fun c => ?_)
    rcases callers_of_step hstep c with hsame | ⟨operation, heq⟩ | ⟨fault, heq⟩
    · exact hsame
    · exact absurd heq (hquiet c operation)
    · exact absurd ⟨c, fault, heq⟩ hmoved

/-- At each moment only so many callers have ever called. -/
theorem callers_bounded (hstart : path.state 0 = initial) (n : Nat) :
    ∃ bound, ∀ c, bound ≤ c → ((path.state n).callers c).left = 0 := by
  induction n with
  | zero => exact ⟨0, fun c _ => by rw [hstart]; rfl⟩
  | succ n ih =>
      obtain ⟨bound, hbound⟩ := ih
      rcases path.rest_or_step n with ⟨-, hrest⟩ | ⟨action, -, hnext⟩
      · exact ⟨bound, by rw [hrest]; exact hbound⟩
      · have hunmoved : ∀ c, bound ≤ c → (∀ operation, action ≠ .call c operation) →
            (∀ fault, action ≠ .caller c fault) →
            ((path.state (n + 1)).callers c).left = 0 := by
          intro c hc hcall hcaller
          rcases callers_of_step (step_cases hnext) c with hsame | ⟨operation, heq⟩ | ⟨fault, heq⟩
          · rw [hsame]
            exact hbound c hc
          · exact absurd heq (hcall operation)
          · exact absurd heq (hcaller fault)
        cases action with
        | call own operation =>
            refine ⟨max bound (own + 1), fun c hc =>
              hunmoved c (le_of_max_le_left hc) (fun other heq => ?_) (by simp)⟩
            cases heq
            exact Nat.lt_irrefl _ (le_of_max_le_right hc)
        | caller own fault =>
            refine ⟨max bound (own + 1), fun c hc =>
              hunmoved c (le_of_max_le_left hc) (by simp) fun other heq => ?_⟩
            cases heq
            exact Nat.lt_irrefl _ (le_of_max_le_right hc)
        | run | graceExpire | admission | executor =>
            exact ⟨bound, fun c hc => hunmoved c hc (by simp) (by simp)⟩

/-- Once no more calls come, the callers come to rest. -/
theorem exists_frozen (hstart : path.state 0 = initial)
    (hquiet : ∀ m, n ≤ m → ∀ c operation, path.action m ≠ some (.call c operation)) :
    ∃ m, n ≤ m ∧ Frozen path m := by
  obtain ⟨bound, hbound⟩ := callers_bounded hstart n
  refine Path.exists_of_descent (fun m => ∀ c, bound ≤ c → ((path.state m).callers c).left = 0)
    (fun m => (path.state m).total bound) hbound fun m hm houtside => ?_
  by_contra hstuck
  -- If the sum did not fall, nobody would move.
  refine hstuck ⟨m, le_rfl, .inl fun k hk => ?_⟩
  induction k, hk using Nat.le_induction with
  | base => rfl
  | succ k hk ih =>
      rcases path.rest_or_step k with ⟨-, hrest⟩ | ⟨action, haction, hnext⟩
      · rw [hrest]
        exact ih
      · have hnone : ∀ c operation, action ≠ .call c operation := by
          rintro c operation rfl
          exact hquiet k (hm.trans hk) c operation haction
        have hsame : (path.state k).total bound = (path.state m).total bound := by
          rw [total, ih]
          rfl
        rcases total_of_step (step_cases hnext) hnone (fun c hc => by rw [ih]; exact houtside c hc)
          with hcallers | ⟨hlower, hkept⟩
        · exact hcallers.trans ih
        · exact absurd ⟨k + 1, hk.trans (Nat.le_succ k), .inr ⟨hkept, hsame ▸ hlower⟩⟩ hstuck

/-- In every fair schedule after whose first part no more calls come, all calls return, and
the server runs on or is stopped for good, unless an exception has left a `start` and the
server in the middle of it; and every operation that any listener has admitted is completed,
whatever becomes of the listener. -/
theorem calls_return (openssl : Bool) (send : Nat → Bool) (path : Path (step openssl send))
    (hstart : path.state 0 = initial) (hfair : Fair path) :
    (∀ n, (∀ m, n ≤ m → ∀ c operation, path.action m ≠ some (.call c operation)) →
      ∃ m, n ≤ m ∧ (∀ l, m ≤ l → ∀ c, ((path.state l).callers c).returned = true) ∧
        ((∀ l, m ≤ l → (path.state l).state = .running) ∨
          (∀ l, m ≤ l → (path.state l).state = .stopped) ∨
          ∀ l, m ≤ l → (path.state l).Abandoned ∧ Escaped path l)) ∧
    ∀ (n ref i : Nat) (executor : OperationExecutor),
      (path.state n).executors[ref]? = some executor → executor.Admitted i →
      ∃ m, ∃ later : OperationExecutor, n ≤ m ∧
        (path.state m).executors[ref]? = some later ∧
        (later.invocation i).complete = true ∧ i ∉ later.pending := by
  refine ⟨fun n hquiet => ?_, fun n ref i executor hget hadmitted => ?_⟩
  · obtain ⟨m, hm, hfrozen⟩ := exists_frozen hstart hquiet
    have hreturned := hfrozen.returned hfair hstart
    obtain ⟨l, hl, hsettled⟩ := hfrozen.settles hfair hstart fun c => by
      have hout := hreturned c
      cases hpc : (path.state m).callers c <;> simp_all [Caller.returned, Caller.opening]
    refine ⟨l, hm.trans hl, fun k hk c => ?_, hsettled⟩
    rw [hfrozen k (hl.trans hk)]
    exact hreturned c
  · exact admitted_released hfair hstart hget hadmitted

/-- An operation is admitted while the server serves; `finishShutdown` stops the listener,
waits for the operation and returns. -/
def servedOnce : List Action := List.flatten
  [[.call 0 (.start { workerThreads := 1 })], List.replicate 10 (.caller 0 none),
    [.run 0 .bind, .run 0 .publishListener, .run 0 .watched, .run 0 .startHandler,
      .caller 0 none, .caller 0 none, .admission 0 none .admitted, .call 1 .finishShutdown],
    List.replicate 4 (.caller 1 none),
    [.run 0 (.listened true), .run 0 .clean, .run 0 .finish],
    List.replicate 5 (.caller 1 none), lastOperation.map (.executor 0),
    List.replicate 3 (.caller 1 none)]

/-- Nobody has anything left to do in this state. -/
structure AtRest (s : Impl) : Prop where
  callers : ∀ c, (s.callers c).returned = true
  runs : ∀ k, s.runs k = .ended
  workers : ∀ executor ∈ s.executors, ∀ w < executor.width, executor.worker w = .exited
  reapers : ∀ executor ∈ s.executors, executor.reaper = .exited
  closers : ∀ executor ∈ s.executors, executor.closer = .closed

section Rest

variable {init final : Impl} {actions : List Action}
  {hrun : Machine.run (step openssl send) init actions = some final}

theorem just_executor {ref : Nat} {mine : Executor.Action → Prop}
    (hdone : ∀ executor ∈ final.executors, ∀ own, mine own → executor.step own = none) :
    (Path.resting hrun).Just (OfExecutor ref mine) := by
  apply Path.just_resting
  rintro action ⟨own, rfl, hmine⟩
  have hstep : final.executorStep ref own = none := by
    unfold executorStep
    split
    next => rfl
    next executor hget => rw [hdone executor (List.mem_of_getElem? hget) own hmine, Option.map_none]
  simp [step, hstep]

/-- A run that ends with everybody at rest is fair. -/
theorem AtRest.fair (h : AtRest final) : Fair (Path.resting hrun) := by
  refine ⟨fun c => ?_, fun k => ?_, fun ref w => ?_, fun ref => ?_, fun ref => ?_, fun ref i => ?_,
    ⟨fun k n hlistens => ?_, fun k n m action _ _ _ _ => ?_⟩⟩
  · apply Path.just_resting
    rintro action ⟨fault, rfl⟩
    have hout := h.callers c
    cases hpc : final.callers c <;> simp_all [step, callerStep, Caller.returned]
  · apply Path.just_resting
    rintro action ⟨own, rfl⟩
    simp [step, runStep, h.runs k]
  · apply just_executor
    exact fun executor hmem own => OperationExecutor.worker_rests (h.workers executor hmem)
  · apply just_executor
    exact fun executor hmem own => OperationExecutor.reaper_rests (h.reapers executor hmem)
  · apply just_executor
    exact fun executor hmem own => OperationExecutor.closer_rests (h.closers executor hmem)
  · refine ⟨actions.length, fun m hm haction => ?_⟩
    change actions[m]? = _ at haction
    rw [List.getElem?_eq_none hm] at haction
    cases haction
  · -- It does not listen for ever.
    have hlast := hlistens (n + actions.length) (Nat.le_add_right n _)
    rw [Path.resting_end (Nat.le_add_left _ n), h.runs k] at hlast
    cases hlast
  · refine ⟨m + actions.length, Nat.le_add_right m _, ?_⟩
    rw [Path.resting_end (Nat.le_add_left _ m), h.runs k]
    simp

end Rest

theorem servedOnce_callers (c : Nat) :
    (Machine.run (step true fun _ => false) initial servedOnce).map
      (fun s => (s.callers 0, s.callers 1, s.callers (c + 2))) =
      some (.started (.ok ()), .finished, .idle) := by
  rfl

theorem servedOnce_runs (k : Nat) :
    (Machine.run (step true fun _ => false) initial servedOnce).map
      (fun s => (s.runs 0, s.runs (k + 1))) = some (.ended, .ended) := by
  rfl

theorem servedOnce_executors :
    (Machine.run (step true fun _ => false) initial servedOnce).map (fun s =>
      s.executors.map fun executor =>
        (executor.width, executor.worker 0, executor.reaper, executor.closer)) =
      some [(1, .exited, .exited, .closed)] := by
  rfl

theorem atRest_servedOnce :
    ∃ s, Machine.run (step true fun _ => false) initial servedOnce = some s ∧ AtRest s := by
  obtain ⟨s, hrun, -⟩ := Option.map_eq_some_iff.mp servedOnce_executors
  have hcallers := servedOnce_callers
  have hruns := servedOnce_runs
  have hexecutors := servedOnce_executors
  simp only [hrun, Option.map_some, Option.some.injEq, Prod.mk.injEq] at hcallers hruns hexecutors
  obtain ⟨executor, hsingle, hexecutor⟩ := List.map_eq_singleton_iff.mp hexecutors
  simp only [Prod.mk.injEq] at hexecutor
  obtain ⟨hwidth, hworker, hreaper, hcloser⟩ := hexecutor
  have honly : ∀ other ∈ s.executors, other = executor := by
    rw [hsingle]
    exact fun other => List.mem_singleton.mp
  refine ⟨s, hrun, fun c => ?_, fun k => ?_, fun other hmem w hw => ?_, fun other hmem => ?_,
    fun other hmem => ?_⟩
  · match c with
    | 0 => rw [(hcallers 0).1]; rfl
    | 1 => rw [(hcallers 0).2.1]; rfl
    | c + 2 => rw [(hcallers c).2.2]; rfl
  · match k with
    | 0 => exact (hruns 0).1
    | k + 1 => exact (hruns k).2
  · rw [honly other hmem] at hw ⊢
    obtain rfl : w = 0 := by omega
    exact hworker
  · rw [honly other hmem]
    exact hreaper
  · rw [honly other hmem]
    exact hcloser

/-- How far the server is in `servedOnce` once the operation has been admitted. -/
theorem admitted_servedOnce :
    ((Machine.run (step true fun _ => false) initial (servedOnce.take 18)).bind fun s =>
      s.executors[0]?).map
      (fun executor => (executor.handler 0, (executor.invocation 0).complete)) =
      some (.waiting, false) := by
  rfl

theorem calls_return_servedOnce :
    ∃ path : Path (step true fun _ => false), path.state 0 = initial ∧
      (∃ m, ∀ l, m ≤ l → ∀ c, ((path.state l).callers c).returned = true) ∧
      ∃ n, ∃ executor : OperationExecutor, (path.state n).executors[0]? = some executor ∧
        executor.Admitted 0 ∧ (executor.invocation 0).complete = false ∧
        ∃ m, ∃ later : OperationExecutor, n ≤ m ∧ (path.state m).executors[0]? = some later ∧
          (later.invocation 0).complete = true ∧ 0 ∉ later.pending := by
  obtain ⟨final, hrun, hrest⟩ := atRest_servedOnce
  obtain ⟨executor, hget, hadmission⟩ := Option.map_eq_some_iff.mp admitted_servedOnce
  obtain ⟨s, hbefore, hget⟩ := Option.bind_eq_some_iff.mp hget
  obtain ⟨hwaiting, hpending⟩ := Prod.mk.injEq .. ▸ hadmission
  have hstate : (Path.resting hrun).state 18 = s := Path.resting_state hbefore
  have hadmitted : executor.Admitted 0 := by
    rw [OperationExecutor.Admitted, hwaiting]
    trivial
  have hreturns := calls_return true (fun _ => false) (Path.resting hrun) rfl hrest.fair
  obtain ⟨m, -, hreturned, -⟩ := hreturns.1 servedOnce.length fun m hm c operation haction => by
    change servedOnce[m]? = _ at haction
    rw [List.getElem?_eq_none hm] at haction
    cases haction
  exact ⟨Path.resting hrun, rfl, ⟨m, hreturned⟩, 18, executor, hstate ▸ hget, hadmitted, hpending,
    hreturns.2 18 0 0 executor (hstate ▸ hget) hadmitted⟩

end Impl

end RttHttp.Server
