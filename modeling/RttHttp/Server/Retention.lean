import RttHttp.Server.Lifecycle
import RttHttp.Executor.Simulation

/-! # Pending operations across listener sessions

Operations outlive the listener that admitted them, so the executor is kept
across restarts and its capacity bound is re-established by every `start` that
installs new options. An executor that is no longer current is empty, or is being
drained by the one caller of `finishShutdown` that took it.
-/

namespace RttHttp.Server

open Executor (OperationExecutor Tracks)
open Executor.OperationExecutor (pending_of_step closer_of_step closerStep_cases width_of_step)

/-- `finishShutdown` is shutting the executor `ref` down. -/
def Caller.finishing (ref : Nat) : Caller → Prop
  | .finish (.retire old) | .finish (.drain old) => old = ref
  | _ => False

theorem Caller.not_finishing_of_returned {caller : Caller} (hreturned : caller.returned = true)
    (ref : Nat) : ¬ caller.finishing ref := by
  intro hfinishing
  cases caller with
  | finish => cases hreturned
  | _ => exact hfinishing

/-- Points of `start` up to the check of retained operations. -/
def Starting.early : Starting → Bool
  | .control | .guard | .join | .validate | .install => true
  | _ => false

namespace Impl

variable {openssl : Bool} {send : Nat → Bool} {s next : Impl} {action : Action}

/-- What holds for one executor ever created. -/
structure Entry (s : Impl) (ref : Nat) (executor : OperationExecutor) : Prop where
  tracked : ∃ g, Tracks executor g
  current : s.executor = some ref → executor.closer = .opened ∧
    executor.pending.length ≤ s.options.maxPendingOperations.toNat
  retired : s.executor ≠ some ref → executor.pending = [] ∨
    (executor.closer = .opened ∨ executor.closer = .draining) ∧
      ∃ c, (s.callers c).finishing ref

/-- The current executor keeps its width, or it is empty and may be replaced. -/
def Fits (s : Impl) (o : ServerOptions) : Prop :=
  ∀ executor, s.current = some executor →
    executor.width = o.workerThreads.toNat ∨ executor.pending = []

structure Stock (s : Impl) : Prop where
  entry : ∀ ref executor, s.executors[ref]? = some executor → s.Entry ref executor
  fits : ∀ c o, s.callers c = .start o .model ∨ s.callers c = .start o .replace → s.Fits o

theorem stock_initial : Stock initial where
  entry ref executor hget := by simp [initial] at hget
  fits c o hpc := by simp [initial] at hpc

theorem current_eq_some {executor : OperationExecutor} :
    s.current = some executor ↔
      ∃ ref, s.executor = some ref ∧ s.executors[ref]? = some executor := by
  simp [current, Option.bind_eq_some_iff]

/-- Below the capacity of some options, `count()` does not wrap. -/
theorem Stock.count_eq (h : s.Stock) {executor : OperationExecutor}
    (hcurrent : s.current = some executor) : executor.count = executor.pending.length := by
  obtain ⟨ref, href, hget⟩ := current_eq_some.mp hcurrent
  have hbound := ((h.entry ref executor hget).current href).2
  have hcap := s.options.maxPendingOperations.toNat_lt
  exact Nat.mod_eq_of_lt (by omega)

/-- A caller has moved away from the executors it was shutting down only if their
`shutdown()` has returned. -/
theorem Entry.move {c ref : Nat} {caller : Caller} {executor : OperationExecutor}
    (h : s.Entry ref executor) (hcallers : next.callers = Function.update s.callers c caller)
    (hexecutor : next.executor = s.executor) (hoptions : next.options = s.options)
    (hbusy : (s.callers c).finishing ref → caller.finishing ref ∨ executor.closer = .closed) :
    next.Entry ref executor := by
  refine ⟨h.tracked, by rw [hexecutor, hoptions]; exact h.current, fun href => ?_⟩
  rw [hexecutor] at href
  rcases h.retired href with hempty | ⟨hcloser, other, hother⟩
  · exact .inl hempty
  · refine .inr ⟨hcloser, ?_⟩
    rw [hcallers]
    by_cases hsame : other = c
    · subst hsame
      rcases hbusy hother with hcaller | hclosed
      · exact ⟨other, by rw [Function.update_self]; exact hcaller⟩
      · rcases hcloser with hcloser | hcloser <;> rw [hclosed] at hcloser <;> cases hcloser
    · exact ⟨other, by rw [Function.update_of_ne hsame]; exact hother⟩

/-- A caller has moved, and no executor was touched. -/
theorem Stock.move {c : Nat} {caller : Caller} (h : s.Stock)
    (hcallers : next.callers = Function.update s.callers c caller)
    (hexecutors : next.executors = s.executors) (hexecutor : next.executor = s.executor)
    (hoptions : next.options = s.options)
    (hbusy : ∀ ref executor, s.executors[ref]? = some executor → (s.callers c).finishing ref →
      caller.finishing ref ∨ executor.closer = .closed)
    (hfits : ∀ o, caller = .start o .model ∨ caller = .start o .replace → s.Fits o) :
    next.Stock where
  entry ref executor hget := by
    rw [hexecutors] at hget
    exact (h.entry ref executor hget).move hcallers hexecutor hoptions (hbusy ref executor hget)
  fits other o hpc executor hcurrent := by
    rw [current, hexecutor, hexecutors] at hcurrent
    rw [hcallers] at hpc
    by_cases hother : other = c
    · rw [hother, Function.update_self] at hpc
      exact hfits o hpc executor hcurrent
    · rw [Function.update_of_ne hother] at hpc
      exact h.fits other o hpc executor hcurrent

/-- No caller has moved, and no executor was touched. -/
theorem Stock.stay (h : s.Stock) (hcallers : next.callers = s.callers)
    (hexecutors : next.executors = s.executors) (hexecutor : next.executor = s.executor)
    (hoptions : next.options = s.options) : next.Stock := by
  have hsame : next.callers = Function.update s.callers 0 (s.callers 0) := by
    rw [hcallers, Function.update_eq_self]
  exact h.move hsame hexecutors hexecutor hoptions (fun _ _ _ hfinishing => .inl hfinishing)
    (h.fits 0)

/-- Steps of an executor that are its own, or an admission within the options. -/
def Allowed (s : Impl) (ref : Nat) (action : Executor.Action) : Prop :=
  internal action ∨ s.executor = some ref ∧ ∃ i fault result,
    action = .handler i (.admission s.options.maxPendingOperations.toNat fault result)

theorem Entry.step {ref : Nat} {old new : OperationExecutor} {action : Executor.Action}
    (h : s.Entry ref old) (hallowed : s.Allowed ref action)
    (hstep : old.step action = some new) : s.Entry ref new := by
  obtain ⟨⟨g, htracks⟩, hcurrent, hretired⟩ := h
  have hbegin : action ≠ .closer .begin := by
    rintro rfl
    rcases hallowed with hinternal | ⟨-, i, fault, result, haction⟩
    · cases hinternal
    · cases haction
  -- A thread inside `shutdown()` that has not begun cannot move on its own.
  have hopened : old.closer = .opened → new.closer = .opened := by
    intro hcloser
    rcases closer_of_step hstep with hsame | ⟨own, rfl⟩
    · rw [hsame, hcloser]
    · cases closerStep_cases hstep with
      | begin => exact absurd rfl hbegin
      | drained hpc => rw [hcloser] at hpc; cases hpc
      | close hpc => rw [hcloser] at hpc; cases hpc
      | joined hpc => rw [hcloser] at hpc; cases hpc
  refine ⟨htracks.exists_step hstep, fun href => ?_, fun href => ?_⟩
  · obtain ⟨hcloser, hbound⟩ := hcurrent href
    refine ⟨hopened hcloser, ?_⟩
    rcases pending_of_step hstep with hsub | ⟨i, cap, rfl, hcap, hnext⟩
    · exact Nat.le_trans hsub.length_le hbound
    · rcases hallowed with hinternal | ⟨-, i', fault, result, haction⟩
      · cases hinternal
      · cases haction
        rw [hnext, List.length_append, List.length_singleton]
        omega
  · have hshrinks : new.pending.Sublist old.pending := by
      rcases pending_of_step hstep with hsub | ⟨i, cap, rfl, -, -⟩
      · exact hsub
      · rcases hallowed with hinternal | ⟨hcur, -⟩
        · cases hinternal
        · exact absurd hcur href
    rcases hretired href with hempty | ⟨hcloser, hfinishing⟩
    · rw [hempty] at hshrinks
      exact .inl (List.sublist_nil.mp hshrinks)
    · rcases closer_of_step hstep with hsame | ⟨own, rfl⟩
      · exact .inr ⟨by rw [hsame]; exact hcloser, hfinishing⟩
      · cases closerStep_cases hstep with
        | begin => exact absurd rfl hbegin
        | drained hpc hempty => exact .inl hempty
        | close hpc => simp [hpc] at hcloser
        | joined hpc => simp [hpc] at hcloser

theorem getElem?_set_cases {ref other : Nat} {new executor : OperationExecutor}
    {executors : List OperationExecutor} (hget : (executors.set ref new)[other]? = some executor) :
    other = ref ∧ executor = new ∨ other ≠ ref ∧ executors[other]? = some executor := by
  rw [List.getElem?_set] at hget
  by_cases hother : ref = other
  · rw [if_pos hother] at hget
    split at hget
    · exact .inl ⟨hother.symm, (Option.some.inj hget).symm⟩
    · cases hget
  · rw [if_neg hother] at hget
    exact .inr ⟨Ne.symm hother, hget⟩

/-- One executor has taken a step. -/
theorem Stock.executorStep {ref : Nat} {old new : OperationExecutor} {action : Executor.Action}
    (h : s.Stock) (hget : s.executors[ref]? = some old) (hstep : old.step action = some new)
    (hallowed : s.Allowed ref action)
    (hfits : (∃ c o, s.callers c = .start o .model ∨ s.callers c = .start o .replace) →
      internal action) :
    Stock { s with executors := s.executors.set ref new } where
  entry other executor hother := by
    rcases getElem?_set_cases hother with ⟨rfl, rfl⟩ | ⟨-, hold⟩
    · obtain ⟨htracked, hcurrent, hretired⟩ := (h.entry _ old hget).step hallowed hstep
      exact ⟨htracked, hcurrent, hretired⟩
    · obtain ⟨htracked, hcurrent, hretired⟩ := h.entry other executor hold
      exact ⟨htracked, hcurrent, hretired⟩
  fits c o hpc executor hcurrent := by
    obtain ⟨other, href, hother⟩ := current_eq_some.mp hcurrent
    rcases getElem?_set_cases hother with ⟨rfl, rfl⟩ | ⟨-, hold⟩
    · have hinternal := hfits ⟨c, o, hpc⟩
      rw [width_of_step hstep]
      rcases h.fits c o hpc old (current_eq_some.mpr ⟨_, href, hget⟩) with hwidth | hempty
      · exact .inl hwidth
      · rcases pending_of_step hstep with hsub | ⟨i, cap, rfl, -⟩
        · rw [hempty] at hsub
          exact .inr (List.sublist_nil.mp hsub)
        · cases hinternal
    · exact h.fits c o hpc executor (current_eq_some.mpr ⟨other, href, hold⟩)

/-- A caller has entered `shutdown()` of an executor that is not current. -/
theorem Stock.retire {c ref : Nat} {caller : Caller} {old new : OperationExecutor} (h : s.Stock)
    (hget : s.executors[ref]? = some old) (hbegin : old.step (.closer .begin) = some new)
    (hnone : s.executor = none)
    (hbusy : ∀ other, (s.callers c).finishing other → caller.finishing other) :
    Stock ({ s with executors := s.executors.set ref new }.setCaller c caller) where
  entry other executor hother := by
    rcases getElem?_set_cases hother with ⟨rfl, rfl⟩ | ⟨-, hold⟩
    · have hentry := h.entry _ old hget
      obtain ⟨g, htracks⟩ := hentry.tracked
      refine ⟨htracks.exists_step hbegin, fun href => ?_, fun _ => ?_⟩
      · rw [show s.executor = some _ from href] at hnone
        cases hnone
      · cases closerStep_cases hbegin with
        | begin hpc =>
            rcases hentry.retired (by rw [hnone]; simp) with hempty | ⟨hcloser, user, huser⟩
            · exact .inl hempty
            · refine .inr ⟨.inr rfl, user, ?_⟩
              by_cases huserc : user = c
              · subst huserc
                simpa using hbusy _ huser
              · simpa [Function.update_of_ne huserc] using huser
    · exact (h.entry other executor hold).move rfl rfl rfl (fun hfinishing => .inl (hbusy _ hfinishing))
  fits other o hpc executor hcurrent := by
    obtain ⟨_, href, -⟩ := current_eq_some.mp hcurrent
    rw [show s.executor = some _ from href] at hnone
    cases hnone

/-- A caller has moved the current executor out of `Impl`. -/
theorem Stock.takeOut {c ref : Nat} {caller : Caller} (h : s.Stock)
    (hexecutor : s.executor = some ref) (hfree : ∀ other, ¬ (s.callers c).finishing other)
    (hout : caller.finishing ref ∨
      ∀ executor, s.executors[ref]? = some executor → executor.pending = []) :
    Stock ({ s with executor := none }.setCaller c caller) where
  entry other executor hget := by
    obtain ⟨htracked, hcurrent, hretired⟩ := h.entry other executor hget
    refine ⟨htracked, fun href => (by cases href), fun _ => ?_⟩
    by_cases hother : s.executor = some other
    · obtain rfl : ref = other := by simpa [hexecutor] using hother
      rcases hout with hfinishing | hempty
      · exact .inr ⟨.inl (hcurrent hother).1, c, by simpa using hfinishing⟩
      · exact .inl (hempty executor hget)
    · rcases hretired hother with hempty | ⟨hcloser, user, huser⟩
      · exact .inl hempty
      · refine .inr ⟨hcloser, user, ?_⟩
        have hne : user ≠ c := by
          rintro rfl
          exact hfree other huser
        simpa [Function.update_of_ne hne] using huser
  fits other o hpc executor hcurrent := by
    obtain ⟨_, href, -⟩ := current_eq_some.mp hcurrent
    cases href

/-- What `start` has checked when it installs new options. -/
theorem Stock.retained {o : ServerOptions} (h : s.Stock) (hretained : s.retainedError o = none)
    {executor : OperationExecutor} (hcurrent : s.current = some executor) :
    executor.pending.length ≤ o.maxPendingOperations.toNat ∧
      (executor.width = o.workerThreads.toNat ∨ executor.pending = []) := by
  have hcount := h.count_eq hcurrent
  unfold retainedError at hretained
  simp only [hcurrent] at hretained
  split at hretained
  next => cases hretained
  next hcap =>
    split at hretained
    next => cases hretained
    next hwidth =>
      rw [hcount] at hcap hwidth
      refine ⟨by omega, ?_⟩
      by_cases hempty : executor.pending = []
      · exact .inr hempty
      · refine .inl ?_
        by_contra hne
        exact hwidth ⟨by simpa using hempty, Ne.symm hne⟩

/-- While a caller that is not shutting an executor down holds the lock, every
executor but the current one is empty. -/
theorem Stock.pending_nil {c ref : Nat} {executor : OperationExecutor} (h : s.Stock)
    (hl : s.Lifecycle) (hholds : (s.callers c).holdsControl = true)
    (hfree : ¬ (s.callers c).finishing ref) (hget : s.executors[ref]? = some executor)
    (hcurrent : s.executor ≠ some ref) : executor.pending = [] := by
  rcases (h.entry ref executor hget).retired hcurrent with hempty | ⟨-, user, huser⟩
  · exact hempty
  · have hbusy : (s.callers user).holdsControl = true := by
      revert huser
      cases s.callers user with
      | finish point => cases point <;> simp [Caller.finishing, Caller.holdsControl]
      | _ => exact False.elim
    obtain rfl := hl.holder_unique hholds hbusy
    exact absurd huser hfree

/-- `start` has installed options that keep the operations of the current executor. -/
theorem Stock.install {c : Nat} {o : ServerOptions} (h : s.Stock) (hl : s.Lifecycle)
    (hpc : s.callers c = .start o .install) (hretained : s.retainedError o = none)
    (hcallers : next.callers = Function.update s.callers c (.start o .model))
    (hexecutors : next.executors = s.executors) (hexecutor : next.executor = s.executor)
    (hoptions : next.options = o) : next.Stock where
  entry ref executor hget := by
    rw [hexecutors] at hget
    obtain ⟨htracked, hcurrent, -⟩ := h.entry ref executor hget
    refine ⟨htracked, fun href => ?_, fun href => .inl ?_⟩
    · rw [hexecutor] at href
      rw [hoptions]
      exact ⟨(hcurrent href).1, (h.retained hretained (current_eq_some.mpr ⟨ref, href, hget⟩)).1⟩
    · rw [hexecutor] at href
      exact h.pending_nil (c := c) hl (by rw [hpc]; rfl) (by rw [hpc]; exact id) hget href
  fits other o' hpc' executor hcurrent := by
    rw [current, hexecutor, hexecutors] at hcurrent
    rw [hcallers] at hpc'
    by_cases hother : other = c
    · rw [hother, Function.update_self] at hpc'
      obtain rfl : o = o' := by simpa using hpc'
      exact (h.retained hretained hcurrent).2
    · rw [Function.update_of_ne hother] at hpc'
      exact h.fits other o' hpc' executor hcurrent

/-- `start` has made the executor that was missing. -/
theorem Stock.makeExecutor {c : Nat} {o : ServerOptions} {new : OperationExecutor} (h : s.Stock)
    (hl : s.Lifecycle) (hpc : s.callers c = .start o .executor) (hnone : s.executor = none)
    (hnew : (∃ g, Tracks new g) ∧ new.closer = .opened ∧ new.pending = [])
    (hcallers : next.callers = Function.update s.callers c (.start o .bind))
    (hexecutors : next.executors = s.executors ++ [new])
    (hexecutor : next.executor = some s.executors.length) : next.Stock where
  entry ref executor hget := by
    obtain ⟨htracked, hopened, hempty⟩ := hnew
    rw [hexecutors, List.getElem?_append] at hget
    split at hget
    next hlt =>
      refine ⟨(h.entry ref executor hget).tracked, fun href => ?_, fun _ => .inl ?_⟩
      · rw [hexecutor, Option.some.injEq] at href
        exact absurd href hlt.ne'
      · exact h.pending_nil (c := c) hl (by rw [hpc]; rfl) (by rw [hpc]; exact id) hget
          (by simp [hnone])
    next hge =>
      obtain rfl : executor = new := by
        simpa using List.mem_of_getElem? hget
      exact ⟨htracked, fun _ => ⟨hopened, by simp [hempty]⟩, fun _ => .inl hempty⟩
  fits other o' hpc' := by
    -- At those points the other caller would hold the lock as well.
    have hholds : (s.callers other).holdsControl = true → other = c :=
      hl.holder_unique (by rw [hpc]; rfl)
    rw [hcallers] at hpc'
    by_cases hother : other = c
    · simp [hother] at hpc'
    · rw [Function.update_of_ne hother] at hpc'
      rcases hpc' with hpc' | hpc' <;> exact absurd (hholds (by rw [hpc']; rfl)) hother

theorem Stock.start {c : Nat} {o : ServerOptions} {point : Starting} (h : s.Stock)
    (hl : s.Lifecycle) (hpc : s.callers c = .start o point)
    (hstep : StartStep openssl send s c o point next) : next.Stock := by
  have hassert := hl.assertion c
  have hfree : ∀ ref, ¬ (s.callers c).finishing ref := by
    intro ref hfinishing
    rw [hpc] at hfinishing
    exact hfinishing
  have hbusy : ∀ {caller : Caller} (ref : Nat) (executor : OperationExecutor),
      s.executors[ref]? = some executor → (s.callers c).finishing ref →
        caller.finishing ref ∨ executor.closer = .closed :=
    fun ref _ _ hfinishing => absurd hfinishing (hfree ref)
  have hfits := h.fits c
  rw [hpc] at hassert hfits
  cases hstep with
  | install hretained => exact h.install hl hpc hretained rfl rfl rfl rfl
  | keepModel | model =>
      refine h.move rfl rfl rfl rfl hbusy (fun o' ho => ?_)
      obtain rfl : o = o' := by simpa using ho
      exact hfits o (.inl rfl)
  | replace hexecutor hget hwidth =>
      refine h.takeOut hexecutor hfree (.inr fun executor hget' => ?_)
      rcases hfits o (.inr rfl) executor (current_eq_some.mpr ⟨_, hexecutor, hget'⟩) with
        hsame | hempty
      · rw [hget, Option.some.injEq] at hget'
        exact absurd (hget' ▸ hsame) hwidth
      · exact hempty
  | retire hget hbegin =>
      exact h.retire hget hbegin hassert.2.2 (fun other hfinishing => absurd hfinishing (hfree other))
  | executor =>
      have hnew := Executor.tracks_start o.workerThreads.toNat send
      exact h.makeExecutor hl hpc hassert.2.2 ⟨⟨_, hnew⟩, rfl, rfl⟩ rfl rfl rfl
  | _ => exact h.move rfl rfl rfl rfl hbusy (by simp)

theorem Stock.finish {c : Nat} {point : Finishing} (h : s.Stock) (hl : s.Lifecycle)
    (hpc : s.callers c = .finish point) (hstep : FinishStep s c point next) : next.Stock := by
  have hassert := hl.assertion c
  rw [hpc] at hassert
  cases hstep with
  | control | noExecutor | model | returning =>
      exact h.move rfl rfl rfl rfl (fun ref _ _ hfinishing => by rw [hpc] at hfinishing; cases hfinishing)
        (by simp)
  | move hexecutor =>
      exact h.takeOut hexecutor (fun ref hfinishing => by rw [hpc] at hfinishing; exact hfinishing)
        (.inl rfl)
  | retire hget hbegin =>
      exact h.retire hget hbegin hassert.2 (fun ref hfinishing => by rw [hpc] at hfinishing; exact hfinishing)
  | drain hget hclosed =>
      refine h.move rfl rfl rfl rfl (fun ref executor hget' hfinishing => ?_) (by simp)
      rw [hpc] at hfinishing
      obtain rfl : _ = ref := hfinishing
      rw [hget, Option.some.injEq] at hget'
      exact .inr (hget' ▸ hclosed)

/-- Every step keeps the executors in order. -/
theorem Stock.step (h : s.Stock) (hl : s.Lifecycle) (hstep : Step openssl send s action next) :
    next.Stock := by
  cases hstep with
  | @call c operation hpc =>
      refine h.move rfl rfl rfl rfl (fun ref _ _ hfinishing => ?_) (by cases operation <;> simp [Operation.entry])
      exact absurd hfinishing (Caller.not_finishing_of_returned hpc ref)
  | start hpc hpoint => exact h.start hl hpc hpoint
  | requesting hpc =>
      exact h.move rfl rfl rfl rfl (fun ref _ _ hfinishing => by rw [hpc] at hfinishing; cases hfinishing)
        (by simp)
  | @stop c final point _ hpc hpoint =>
      have hbusy : ∀ {caller : Caller} (ref : Nat) (executor : OperationExecutor),
          s.executors[ref]? = some executor → (s.callers c).finishing ref →
            caller.finishing ref ∨ executor.closer = .closed := by
        intro caller ref executor _ hfinishing
        rw [hpc] at hfinishing
        cases hfinishing
      cases hpoint with
      | joined => exact h.move rfl rfl rfl rfl hbusy (by cases final <;> simp)
      | _ => exact h.move rfl rfl rfl rfl hbusy (by simp)
  | @beginning c final hpc =>
      exact h.move rfl rfl rfl rfl (fun ref _ _ hfinishing => by rw [hpc] at hfinishing; cases hfinishing)
        (by cases final <;> simp)
  | finish hpc hpoint => exact h.finish hl hpc hpoint
  | run hrun => cases hrun <;> exact h.stay rfl rfl rfl rfl
  | graceExpire => exact h.stay rfl rfl rfl rfl
  | admission hstate hopen hfresh hcurrent hget hadmission =>
      refine h.executorStep hget hadmission (.inr ⟨hcurrent, _, _, _, rfl⟩) ?_
      rintro ⟨c, o, hpc⟩
      have hassert := hl.assertion c
      rcases hpc with hpc | hpc <;> rw [hpc] at hassert
      · simp [Assertion, StartAssertion, Opening, hstate] at hassert
      · simp [Assertion, StartAssertion, Opening, hstate] at hassert
  | executor hinternal hget hexecutor =>
      exact h.executorStep hget hexecutor (.inl hinternal) (fun _ => hinternal)

theorem stock_of_run {actions : List Action}
    (hrun : Machine.run (step openssl send) initial actions = some s) :
    s.Lifecycle ∧ s.Stock := by
  have hkept : ∀ (s : Impl) (action : Action) (next : Impl), (s.Lifecycle ∧ s.Stock) →
      s.step openssl send action = some next → next.Lifecycle ∧ next.Stock :=
    fun _ _ _ h hstep => ⟨h.1.of_step hstep, h.2.step h.1 (step_cases hstep)⟩
  exact Machine.run_invariant hkept ⟨lifecycle_initial, stock_initial⟩ hrun

/-! ## The capacity bound -/

/-- Retained work does not fit the options of a new start. -/
def Conflicts (s : Impl) (o : ServerOptions) : Prop :=
  ∃ executor, s.current = some executor ∧
    (o.maxPendingOperations.toNat < executor.pending.length ∨
      executor.pending ≠ [] ∧ o.workerThreads.toNat ≠ executor.width)

/-- Options, state, executor and model are as they were. -/
def SameInstalled (s next : Impl) : Prop :=
  next.options = s.options ∧ next.state = s.state ∧ next.executor = s.executor ∧
    next.executors = s.executors ∧ next.model = s.model

theorem Stock.retainedError_of_conflicts {o : ServerOptions} (h : s.Stock)
    (hconflicts : s.Conflicts o) : ∃ message, s.retainedError o = some message := by
  cases hretained : s.retainedError o with
  | some message => exact ⟨message, rfl⟩
  | none =>
      obtain ⟨executor, hcurrent, hwhy⟩ := hconflicts
      obtain ⟨hbound, hwidth⟩ := h.retained hretained hcurrent
      rcases hwhy with hcap | ⟨hempty, hne⟩
      · omega
      · rcases hwidth with hsame | hnone
        · exact absurd hsame.symm hne
        · exact absurd hnone hempty

theorem startStep_of_caller {c : Nat} {o : ServerOptions} {point : Starting}
    {fault : Option Failure} (hpc : s.callers c = .start o point)
    (hstep : s.step openssl send (.caller c fault) = some next) :
    StartStep openssl send s c o point next := by
  simp only [step, callerStep, hpc] at hstep
  exact startStep_cases hstep

theorem finishStep_of_caller {c : Nat} {point : Finishing} {fault : Option Failure}
    (hpc : s.callers c = .finish point)
    (hstep : s.step openssl send (.caller c fault) = some next) : FinishStep s c point next := by
  cases fault with
  | none =>
      simp only [step, callerStep, hpc] at hstep
      exact finishStep_cases hstep
  | some failure => simp [step, callerStep, hpc] at hstep

/-- A start that conflicts with retained work gets no further than its check, and
leaves the installed members alone. -/
theorem Stock.start_conflicts {c : Nat} {o : ServerOptions} {point : Starting}
    {fault : Option Failure} (h : s.Stock) (hpc : s.callers c = .start o point)
    (hearly : point.early = true) (hconflicts : s.Conflicts o) (hstate : s.state ≠ .running)
    (hstep : s.step openssl send (.caller c fault) = some next) :
    SameInstalled s next ∧ ∃ point', next.callers c = .start o point' ∧
      (point'.early = true ∧ point ≠ .install ∨ ∃ message, point' = .returning (.error message)) := by
  obtain ⟨message, hretained⟩ := h.retainedError_of_conflicts hconflicts
  cases startStep_of_caller hpc hstep with
  | install hnone => rw [hretained] at hnone; cases hnone
  | control | guard | join | validate =>
      exact ⟨⟨rfl, rfl, rfl, rfl, rfl⟩, _, Function.update_self .., .inl ⟨rfl, by simp⟩⟩
  | guardRunning _ hrunning => exact absurd hrunning hstate
  | guardError | invalid | conflict =>
      exact ⟨⟨rfl, rfl, rfl, rfl, rfl⟩, _, Function.update_self .., .inr ⟨_, rfl⟩⟩
  | failure hpoint => rcases hpoint with rfl | rfl | rfl | rfl <;> cases hearly
  | _ => cases hearly

theorem start_returning {c : Nat} {o : ServerOptions} {result : Result} {fault : Option Failure}
    (hpc : s.callers c = .start o (.returning result))
    (hstep : s.step openssl send (.caller c fault) = some next) :
    SameInstalled s next ∧ next.callers c = .started result := by
  cases startStep_of_caller hpc hstep with
  | returning => exact ⟨⟨rfl, rfl, rfl, rfl, rfl⟩, Function.update_self ..⟩
  | failure hpoint => rcases hpoint with h | h | h | h <;> cases h

/-- The start of caller `c` with options `o` has not got past its check. -/
def Rejecting (c : Nat) (o : ServerOptions) (s : Impl) : Prop :=
  (∃ point, s.callers c = .start o point ∧
    (point.early = true ∨ ∃ message, point = .returning (.error message))) ∨
  ∃ message, s.callers c = .started (.error message)

/-- Whenever `c` moves inside its call, retained work conflicts with `o` and the
server is not already running. -/
def Conflicting (c : Nat) (o : ServerOptions) (s : Impl) (action : Action) : Prop :=
  (∀ fault, action = .caller c fault → s.Conflicts o ∧ s.state ≠ .running) ∧
    ∀ operation, action ≠ .call c operation

/-- A conflicting start cannot succeed. -/
theorem rejecting_step {c : Nat} {o : ServerOptions} (h : s.Stock) (hs : Rejecting c o s)
    (hallowed : Conflicting c o s action) (hstep : s.step openssl send action = some next) :
    Rejecting c o next := by
  rcases callers_of_step (step_cases hstep) c with hsame | ⟨operation, rfl⟩ | ⟨fault, rfl⟩
  · unfold Rejecting
    rw [hsame]
    exact hs
  · exact absurd rfl (hallowed.2 operation)
  · obtain ⟨hconflicts, hstate⟩ := hallowed.1 fault rfl
    rcases hs with ⟨point, hpc, hearly | ⟨message, rfl⟩⟩ | ⟨message, hpc⟩
    · obtain ⟨-, point', hpc', hpoint'⟩ := h.start_conflicts hpc hearly hconflicts hstate hstep
      refine .inl ⟨point', hpc', ?_⟩
      rcases hpoint' with ⟨hearly', -⟩ | hreturning
      · exact .inl hearly'
      · exact .inr hreturning
    · exact .inr ⟨message, (start_returning hpc hstep).2⟩
    · simp [step, callerStep, hpc] at hstep

/-- In every reachable state the current executor holds at most as many pending
invocations as the installed options allow. A start that conflicts with retained
work, and does not find the server already running, leaves options, state,
executor and model as they were at each of its steps, and in every interleaving
it can only return an error. -/
theorem capacity_bound (openssl : Bool) (send : Nat → Bool) (actions : List Action) (s : Impl)
    (hrun : Machine.run (step openssl send) initial actions = some s) :
    (∀ executor, s.current = some executor →
      executor.pending.length ≤ s.options.maxPendingOperations.toNat) ∧
    (∀ c o point fault next, s.callers c = .start o point → point.early = true →
      s.Conflicts o → s.state ≠ .running → s.step openssl send (.caller c fault) = some next →
      SameInstalled s next ∧ (point = .install →
        ∃ message, next.callers c = .start o (.returning (.error message)))) ∧
    (∀ c o message fault next, s.callers c = .start o (.returning (.error message)) →
      s.step openssl send (.caller c fault) = some next →
      SameInstalled s next ∧ next.callers c = .started (.error message)) ∧
    (∀ c o more later, s.callers c = .start o .control →
      Machine.Along (step openssl send) (Conflicting c o) s more →
      Machine.run (step openssl send) s more = some later → later.callers c ≠ .started (.ok ())) := by
  obtain ⟨hlifecycle, hstock⟩ := stock_of_run hrun
  refine ⟨fun executor hcurrent => ?_, fun c o point fault next hpc hearly hconflicts hstate hstep => ?_,
    fun c o message fault next => start_returning, fun c o more later hpc hallowed hmore hok => ?_⟩
  · obtain ⟨ref, href, hget⟩ := current_eq_some.mp hcurrent
    exact ((hstock.entry ref executor hget).current href).2
  · obtain ⟨hsame, point', hpc', hpoint'⟩ :=
      hstock.start_conflicts hpc hearly hconflicts hstate hstep
    refine ⟨hsame, fun hinstall => ?_⟩
    rcases hpoint' with ⟨-, hne⟩ | ⟨message, rfl⟩
    · exact absurd hinstall hne
    · exact ⟨message, hpc'⟩
  · have hkept : ∀ (s : Impl) (action : Action) (next : Impl),
        (s.Lifecycle ∧ s.Stock ∧ Rejecting c o s) → Conflicting c o s action →
          s.step openssl send action = some next →
          next.Lifecycle ∧ next.Stock ∧ Rejecting c o next :=
      fun _ _ _ h hallowed hstep => ⟨h.1.of_step hstep, h.2.1.step h.1 (step_cases hstep),
        rejecting_step h.2.1 h.2.2 hallowed hstep⟩
    have hinitial : Rejecting c o s := .inl ⟨.control, hpc, .inl rfl⟩
    obtain ⟨-, -, hrejecting⟩ :=
      Machine.run_invariant_of hkept ⟨hlifecycle, hstock, hinitial⟩ hallowed hmore
    simp [Rejecting, hok] at hrejecting

/-- A server with default options and two pending operations. -/
def twoPending : List Action := List.flatten
  [[.call 0 (.start {})], List.replicate 10 (.caller 0 none),
    [.run 0 .bind, .run 0 .publishListener, .run 0 .watched, .run 0 .startHandler,
      .caller 0 none, .caller 0 none, .admission 0 none .admitted, .admission 1 none .admitted]]

/-- Options that two pending operations do not fit. -/
def tight : ServerOptions := { maxPendingOperations := 1 }

theorem conflicts_tight {executor : OperationExecutor} (hcurrent : s.current = some executor)
    (hpending : executor.pending = [0, 1]) : s.Conflicts tight :=
  ⟨executor, hcurrent, .inl (by rw [hpending]; decide)⟩

/-- A running server answers a start with success without looking at the options,
also when two pending operations exceed their capacity. -/
theorem capacity_conflict_running :
    ∃ s later, Machine.run (step true fun _ => false) initial
        (twoPending ++ [.call 1 (.start tight)]) = some s ∧
      s.callers 1 = .start tight .control ∧ s.Conflicts tight ∧
      Machine.run (step true fun _ => false) s (List.replicate 3 (.caller 1 none)) = some later ∧
      later.callers 1 = .started (.ok ()) := by
  refine ⟨_, _, rfl, rfl, conflicts_tight rfl rfl, rfl, rfl⟩

/-- The listener has ended and left two operations behind. -/
def retainedTwo : List Action :=
  twoPending ++ [.call 2 .requestStop, .caller 2 none, .run 0 (.listened true), .run 0 .clean,
    .run 0 .finish, .call 1 (.start tight)]

theorem capacity_bound_retainedTwo :
    ∃ s, Machine.run (step true fun _ => false) initial retainedTwo = some s ∧
      s.callers 1 = .start tight .control ∧ s.Conflicts tight ∧
      (∀ executor, s.current = some executor →
        executor.pending.length ≤ s.options.maxPendingOperations.toNat) ∧
      ∀ next, s.step true (fun _ => false) (.caller 1 none) = some next → SameInstalled s next := by
  have hpc : (Machine.run (step true fun _ => false) initial retainedTwo).map
      (fun s => s.callers 1) = some (.start tight .control) := by rfl
  have hshape : (Machine.run (step true fun _ => false) initial retainedTwo).map
      (fun s => (s.state, s.current.map (·.pending))) = some (.stopped, some [0, 1]) := by decide
  obtain ⟨s, hrun, hpc⟩ := Option.map_eq_some_iff.mp hpc
  rw [hrun, Option.map_some, Option.some.injEq] at hshape
  obtain ⟨hstate, hpending⟩ := Prod.mk.inj hshape
  obtain ⟨executor, hcurrent, hpending⟩ := Option.map_eq_some_iff.mp hpending
  have hconflicts := conflicts_tight hcurrent hpending
  obtain ⟨hbound, hstart, -⟩ := capacity_bound true (fun _ => false) retainedTwo s hrun
  refine ⟨s, hrun, hpc, hconflicts, hbound, fun next hstep => ?_⟩
  exact (hstart 1 tight .control none next hpc rfl hconflicts (by rw [hstate]; decide) hstep).1

end Impl

end RttHttp.Server
