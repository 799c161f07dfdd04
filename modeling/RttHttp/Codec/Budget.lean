import RttHttp.Machine.Run
import Mathlib.Algebra.BigOperators.Group.List.Basic
import Mathlib.Algebra.Order.BigOperators.Group.List
import Mathlib.Algebra.Order.Group.Nat

/-! # The allocation budget as an interleaved machine

`BudgetResource` is shared by every thread that allocates from a context. Each
action below is one atomic access to `used_`, the local limit test between two of
them, or the return of the backing resource. A slot stands for one call of
`do_allocate` together with the `do_deallocate` that gives its block back.

All accesses are relaxed, so a load may return any value that `used_` has had; only
the read-modify-write operations are sure to see the last one. Words have any width.
-/

namespace RttHttp.Codec.BudgetResource

variable {w : Nat}

/-- Program points of one allocation; the local `used` is carried along. -/
inductive Phase (w : Nat) where
  | loading
  | testing (used : BitVec w)
  | exchanging (used : BitVec w)
  | backing
  | rollingBack
  | refused
  | failed
  | live
  | releasing
  | released
  deriving DecidableEq

structure Call (w : Nat) where
  bytes : BitVec w
  phase : Phase w
  deriving DecidableEq

/-- The members of the resource, the calls on it, and every value `used_` has had. -/
structure State (w : Nat) where
  limit : BitVec w
  used : BitVec w
  history : List (BitVec w)
  calls : List (Call w)
  deriving DecidableEq

def start (limit : BitVec w) : State w := ⟨limit, 0, [0], []⟩

inductive CallAction (w : Nat) where
  | load (value : BitVec w)
  | test
  | exchange
  | reload (value : BitVec w)
  | backed (succeeded : Bool)
  | rollBack
  | deallocate
  | release
  deriving DecidableEq

inductive Action (w : Nat) where
  | allocate (bytes : BitVec w)
  | call (i : Nat) (action : CallAction w)
  deriving DecidableEq

namespace State

def move (s : State w) (i : Nat) (call : Call w) (phase : Phase w) : State w :=
  { s with calls := s.calls.set i { call with phase := phase } }

/-- A write to `used_`. -/
def store (s : State w) (value : BitVec w) : State w :=
  { s with used := value, history := s.history ++ [value] }

/-- One step of a call that is at `call.phase`. -/
def callStep (s : State w) (i : Nat) (call : Call w) (action : CallAction w) : Option (State w) :=
  match call.phase, action with
  | .loading, .load value =>
      if value ∈ s.history then some (s.move i call (.testing value)) else none
  | .testing used, .test =>
      some (s.move i call (if s.limit - used < call.bytes then .refused else .exchanging used))
  | .exchanging used, .exchange =>
      if used = s.used then some ((s.store (used + call.bytes)).move i call .backing) else none
  | .exchanging _, .reload value =>
      if value ∈ s.history then some (s.move i call (.testing value)) else none
  | .backing, .backed succeeded =>
      some (s.move i call (if succeeded then .live else .rollingBack))
  | .rollingBack, .rollBack => some ((s.store (s.used - call.bytes)).move i call .failed)
  | .live, .deallocate => some (s.move i call .releasing)
  | .releasing, .release => some ((s.store (s.used - call.bytes)).move i call .released)
  | _, _ => none

def step (s : State w) : Action w → Option (State w)
  | .allocate bytes => some { s with calls := s.calls ++ [⟨bytes, .loading⟩] }
  | .call i action => s.calls[i]?.bind fun call => s.callStep i call action

end State

/-! ## What is charged -/

/-- The reservation is made and not yet given back. -/
def Phase.charged : Phase w → Bool
  | .backing | .rollingBack | .live | .releasing => true
  | _ => false

/-- The bytes a call has in `used_`. -/
def Call.charge (call : Call w) : Nat := if call.phase.charged then call.bytes.toNat else 0

/-- The total of the live allocations and of the reservations under way. -/
def State.charged (s : State w) : Nat := (s.calls.map Call.charge).sum

/-- What a call may hold in its local `used`. -/
def Call.Sees (s : State w) (call : Call w) : Prop :=
  match call.phase with
  | .testing used => used ∈ s.history
  | .exchanging used => used.toNat + call.bytes.toNat ≤ s.limit.toNat
  | _ => True

structure Invariant (s : State w) : Prop where
  used_eq : s.used.toNat = s.charged
  used_mem : s.used ∈ s.history
  history_le : ∀ value ∈ s.history, value.toNat ≤ s.limit.toNat
  sees : ∀ call ∈ s.calls, call.Sees s

theorem sum_set {α : Type*} (f : α → Nat) {items : List α} {i : Nat} {item : α}
    (hitem : items[i]? = some item) (other : α) :
    ((items.set i other).map f).sum + f item = (items.map f).sum + f other := by
  induction items generalizing i with
  | nil => simp at hitem
  | cons first rest ih =>
      cases i with
      | zero =>
          obtain rfl := Option.some.inj hitem
          simp only [List.set_cons_zero, List.map_cons, List.sum_cons]
          omega
      | succ i =>
          have hrest := ih hitem
          simp only [List.set_cons_succ, List.map_cons, List.sum_cons]
          omega

/-! ## One step -/

/-- What one step of a call does. -/
inductive Moves (s : State w) (i : Nat) (call : Call w) : CallAction w → State w → Prop
  | keep {action : CallAction w} {phase : Phase w} (haction : action ≠ .rollBack ∧ action ≠ .release)
      (hcharged : phase.charged = call.phase.charged)
      (hsees : Invariant s → call ∈ s.calls → Call.Sees s { call with phase := phase }) :
      Moves s i call action (s.move i call phase)
  | reserve (hphase : call.phase = .exchanging s.used) :
      Moves s i call .exchange ((s.store (s.used + call.bytes)).move i call .backing)
  | rollBack (hphase : call.phase = .rollingBack) :
      Moves s i call .rollBack ((s.store (s.used - call.bytes)).move i call .failed)
  | release (hphase : call.phase = .releasing) :
      Moves s i call .release ((s.store (s.used - call.bytes)).move i call .released)

/-- The test against the limit does not underflow, and what passes it fits. -/
theorem Invariant.fits {s : State w} (h : Invariant s) {call : Call w} (hcall : call ∈ s.calls)
    {used : BitVec w} (hphase : call.phase = .testing used)
    (htest : ¬ s.limit - used < call.bytes) : used.toNat + call.bytes.toNat ≤ s.limit.toNat := by
  have hsees := h.sees call hcall
  rw [Call.Sees, hphase] at hsees
  have hused := h.history_le used hsees
  have hdifference : (s.limit - used).toNat = s.limit.toNat - used.toNat :=
    BitVec.toNat_sub_of_le (BitVec.le_def.mpr hused)
  rw [BitVec.lt_def, hdifference] at htest
  omega

theorem callStep_moves {s next : State w} {i : Nat} {call : Call w} {action : CallAction w}
    (h : s.callStep i call action = some next) : Moves s i call action next := by
  obtain ⟨bytes, phase⟩ := call
  unfold State.callStep at h
  split at h
  next value hphase =>
    obtain ⟨hvalue, hnext⟩ := Option.ite_none_right_eq_some.mp h
    obtain rfl := Option.some.inj hnext
    exact .keep ⟨nofun, nofun⟩ (by rw [hphase]; rfl) fun _ _ => hvalue
  next used hphase =>
    obtain rfl := Option.some.inj h
    refine .keep ⟨nofun, nofun⟩ ?_ fun hinvariant hcall => ?_
    · rw [hphase]
      split <;> rfl
    · split
      next => trivial
      next htest => exact hinvariant.fits hcall hphase htest
  next used hphase =>
    obtain ⟨hused, hnext⟩ := Option.ite_none_right_eq_some.mp h
    obtain rfl := Option.some.inj hnext
    subst hused
    exact .reserve hphase
  next used value hphase =>
    obtain ⟨hvalue, hnext⟩ := Option.ite_none_right_eq_some.mp h
    obtain rfl := Option.some.inj hnext
    exact .keep ⟨nofun, nofun⟩ (by rw [hphase]; rfl) fun _ _ => hvalue
  next succeeded hphase =>
    obtain rfl := Option.some.inj h
    refine .keep ⟨nofun, nofun⟩ ?_ fun _ _ => ?_
    · rw [hphase]
      cases succeeded <;> rfl
    · cases succeeded <;> trivial
  next hphase =>
    obtain rfl := Option.some.inj h
    exact .rollBack hphase
  next hphase =>
    obtain rfl := Option.some.inj h
    exact .keep ⟨nofun, nofun⟩ (by rw [hphase]; rfl) fun _ _ => trivial
  next hphase =>
    obtain rfl := Option.some.inj h
    exact .release hphase
  next => cases h

/-- A larger history and the same limit keep what a call sees. -/
theorem Call.Sees.mono {s next : State w} {call : Call w} (h : call.Sees s)
    (hlimit : next.limit = s.limit) (hhistory : s.history ⊆ next.history) : call.Sees next := by
  unfold Call.Sees at h ⊢
  split
  next used hphase =>
    rw [hphase] at h
    exact hhistory h
  next used hphase =>
    rw [hphase] at h
    rwa [hlimit]
  next => trivial

/-- A call that is charged has its bytes in `used_`. -/
theorem Invariant.bytes_le {s : State w} (h : Invariant s) {i : Nat} {call : Call w}
    (hcall : s.calls[i]? = some call) (hcharged : call.phase.charged = true) :
    call.bytes.toNat ≤ s.used.toNat := by
  have hcharge : call.charge ∈ s.calls.map Call.charge :=
    List.mem_map_of_mem (List.mem_of_getElem? hcall)
  have hsum := List.single_le_sum (fun _ _ => Nat.zero_le _) _ hcharge
  rw [Call.charge, if_pos hcharged] at hsum
  rw [h.used_eq]
  exact hsum

/-- Giving bytes back is exact. -/
theorem Invariant.toNat_sub {s : State w} (h : Invariant s) {i : Nat} {call : Call w}
    (hcall : s.calls[i]? = some call) (hcharged : call.phase.charged = true) :
    (s.used - call.bytes).toNat = s.used.toNat - call.bytes.toNat :=
  BitVec.toNat_sub_of_le (BitVec.le_def.mpr (h.bytes_le hcall hcharged))

/-- A reservation is exact and stays within the limit. -/
theorem Invariant.toNat_add {s : State w} (h : Invariant s) {call : Call w} (hcall : call ∈ s.calls)
    {used : BitVec w} (hphase : call.phase = .exchanging used) :
    (used + call.bytes).toNat = used.toNat + call.bytes.toNat ∧
      used.toNat + call.bytes.toNat ≤ s.limit.toNat := by
  have hfits := h.sees call hcall
  rw [Call.Sees, hphase] at hfits
  have hlimit := s.limit.isLt
  rw [BitVec.toNat_add, Nat.mod_eq_of_lt (Nat.lt_of_le_of_lt hfits hlimit)]
  exact ⟨rfl, hfits⟩

/-! ## Runs -/

/-- The charge of the other calls stays. -/
theorem charged_move {s : State w} {i : Nat} {call : Call w} (hcall : s.calls[i]? = some call)
    (phase : Phase w) :
    (s.move i call phase).charged + call.charge = s.charged + Call.charge { call with phase } :=
  sum_set Call.charge hcall _

section Step

variable {s next : State w} (h : Invariant s) {i : Nat} {call : Call w}
  (hcall : s.calls[i]? = some call)

include h hcall

/-- A write to `used_` that stays within the limit, and a move of one call that
accounts for it. -/
theorem Invariant.store {value : BitVec w} {phase : Phase w}
    (hvalue : value.toNat ≤ s.limit.toNat)
    (hcharge : value.toNat + call.charge = s.used.toNat + Call.charge { call with phase })
    (hsees : Call.Sees s { call with phase := phase }) :
    Invariant ((s.store value).move i call phase) where
  used_eq := by
    have hmove := charged_move hcall phase
    have hsame : ((s.store value).move i call phase).charged = (s.move i call phase).charged := rfl
    have hused := h.used_eq
    change value.toNat = _
    omega
  used_mem := by simp [State.store, State.move]
  history_le := by
    intro found hfound
    rcases List.mem_append.mp hfound with hfound | hfound
    · exact h.history_le found hfound
    · rw [List.mem_singleton.mp hfound]
      exact hvalue
  sees := by
    have hhistory : s.history ⊆ ((s.store value).move i call phase).history :=
      List.subset_append_left _ _
    intro found hfound
    rcases List.mem_or_eq_of_mem_set hfound with hfound | rfl
    · exact (h.sees found hfound).mono rfl hhistory
    · exact hsees.mono rfl hhistory

/-- Giving the bytes of a call back. -/
theorem Invariant.refund {phase : Phase w} (hcharged : call.phase.charged = true)
    (hfree : phase.charged = false) (hsees : Call.Sees s { call with phase }) :
    Invariant ((s.store (s.used - call.bytes)).move i call phase) := by
  have hsub := h.toNat_sub hcall hcharged
  have hbytes := h.bytes_le hcall hcharged
  have hlimit := h.history_le s.used h.used_mem
  refine h.store hcall ?_ ?_ hsees
  · rw [hsub]
    omega
  · rw [hsub, Call.charge, Call.charge, if_pos hcharged, hfree]
    simp only [Bool.false_eq_true, if_false]
    omega

theorem Invariant.moves {action : CallAction w} (hmoves : Moves s i call action next) :
    Invariant next := by
  have hmem : call ∈ s.calls := List.mem_of_getElem? hcall
  cases hmoves with
  | @keep _ phase _ hcharged hsees =>
      have hmove := charged_move hcall phase
      have hcharge : Call.charge { call with phase := phase } = call.charge := by
        rw [Call.charge, Call.charge, hcharged]
      refine ⟨?_, h.used_mem, h.history_le, ?_⟩
      · have hused := h.used_eq
        change s.used.toNat = _
        omega
      · intro found hfound
        rcases List.mem_or_eq_of_mem_set hfound with hfound | rfl
        · exact (h.sees found hfound).mono rfl (List.Subset.refl _)
        · exact (hsees h hmem).mono rfl (List.Subset.refl _)
  | reserve hphase =>
      obtain ⟨hadd, hfits⟩ := h.toNat_add hmem hphase
      refine h.store hcall (by rwa [hadd]) ?_ trivial
      rw [hadd]
      simp [Call.charge, hphase, Phase.charged]
  | rollBack hphase =>
      exact h.refund hcall (by rw [hphase]; rfl) rfl trivial
  | release hphase =>
      exact h.refund hcall (by rw [hphase]; rfl) rfl trivial

end Step

theorem step_cases {s next : State w} {action : Action w} (h : s.step action = some next) :
    (∃ bytes, action = .allocate bytes ∧
      next = { s with calls := s.calls ++ [⟨bytes, .loading⟩] }) ∨
    ∃ i call move, action = .call i move ∧ s.calls[i]? = some call ∧
      Moves s i call move next := by
  cases action with
  | allocate bytes => exact .inl ⟨bytes, rfl, (Option.some.inj h).symm⟩
  | call i action =>
      obtain ⟨call, hcall, hstep⟩ := Option.bind_eq_some_iff.mp h
      exact .inr ⟨i, call, action, rfl, hcall, callStep_moves hstep⟩

theorem invariant_start (limit : BitVec w) : Invariant (start limit) where
  used_eq := by simp [start, State.charged]
  used_mem := List.mem_singleton.mpr rfl
  history_le := by
    intro value hvalue
    rw [List.mem_singleton.mp hvalue]
    exact Nat.zero_le _
  sees := nofun

/-- The invariant and the limit are kept by every step. -/
theorem Invariant.step {s next : State w} {action : Action w} (h : Invariant s)
    (hstep : s.step action = some next) : Invariant next ∧ next.limit = s.limit := by
  rcases step_cases hstep with ⟨bytes, -, rfl⟩ | ⟨i, call, action, -, hcall, hmoves⟩
  · refine ⟨⟨?_, h.used_mem, h.history_le, ?_⟩, rfl⟩
    · have hused := h.used_eq
      simpa [State.charged, Call.charge, Phase.charged] using hused
    · intro found hfound
      rcases List.mem_append.mp hfound with hfound | hfound
      · exact (h.sees found hfound).mono rfl (List.Subset.refl _)
      · rw [List.mem_singleton.mp hfound]
        trivial
  · refine ⟨h.moves hcall hmoves, ?_⟩
    cases hmoves <;> rfl

theorem invariant_of_run {limit : BitVec w} {actions : List (Action w)} {s : State w}
    (hrun : Machine.run State.step (start limit) actions = some s) :
    Invariant s ∧ s.limit = limit := by
  have hkept : ∀ (s : State w) action next, Invariant s ∧ s.limit = limit →
      s.step action = some next → Invariant next ∧ next.limit = limit := by
    rintro s action next ⟨h, hlimit⟩ hstep
    obtain ⟨hnext, hsame⟩ := h.step hstep
    exact ⟨hnext, hsame.trans hlimit⟩
  exact Machine.run_invariant hkept ⟨invariant_start limit, rfl⟩ hrun

/-! ## The budget -/

/-- The budget is kept in a state and by the arithmetic of the next step. -/
structure Kept (s : State w) : Prop where
  used_eq : s.used.toNat = s.charged
  used_le : s.used.toNat ≤ s.limit.toNat
  difference : ∀ call ∈ s.calls, ∀ used, call.phase = .testing used →
    used.toNat ≤ s.limit.toNat ∧ (s.limit - used).toNat = s.limit.toNat - used.toNat
  sum : ∀ call ∈ s.calls, ∀ used, call.phase = .exchanging used →
    used.toNat + call.bytes.toNat < 2 ^ w ∧
      (used + call.bytes).toNat = used.toNat + call.bytes.toNat
  refund : ∀ i call action next, s.calls[i]? = some call →
    s.step (.call i action) = some next → action = .rollBack ∨ action = .release →
      next.used.toNat + call.bytes.toNat = s.used.toNat
  failure : ∀ i call, s.calls[i]? = some call → call.phase = .refused ∨ call.phase = .failed →
    s.used.toNat = ((s.calls.eraseIdx i).map Call.charge).sum

theorem sum_eraseIdx {α : Type*} (f : α → Nat) {items : List α} {i : Nat} {item : α}
    (hitem : items[i]? = some item) :
    ((items.eraseIdx i).map f).sum + f item = (items.map f).sum := by
  induction items generalizing i with
  | nil => simp at hitem
  | cons first rest ih =>
      cases i with
      | zero =>
          obtain rfl := Option.some.inj hitem
          simp only [List.eraseIdx_cons_zero, List.map_cons, List.sum_cons]
          omega
      | succ i =>
          have hrest := ih hitem
          simp only [List.eraseIdx_cons_succ, List.map_cons, List.sum_cons]
          omega

theorem Invariant.kept {s : State w} (h : Invariant s) : Kept s where
  used_eq := h.used_eq
  used_le := h.history_le s.used h.used_mem
  difference := by
    intro call hcall used hphase
    have hsees := h.sees call hcall
    rw [Call.Sees, hphase] at hsees
    have hused := h.history_le used hsees
    exact ⟨hused, BitVec.toNat_sub_of_le (BitVec.le_def.mpr hused)⟩
  sum := by
    intro call hcall used hphase
    obtain ⟨hadd, hfits⟩ := h.toNat_add hcall hphase
    exact ⟨Nat.lt_of_le_of_lt hfits s.limit.isLt, hadd⟩
  refund := by
    intro i call action next hcall hstep haction
    obtain ⟨found, hfound, hmove⟩ := Option.bind_eq_some_iff.mp hstep
    obtain rfl := Option.some.inj (hcall.symm.trans hfound)
    have hexact : call.phase.charged = true →
        (s.used - call.bytes).toNat + call.bytes.toNat = s.used.toNat := by
      intro hcharged
      have hbytes := h.bytes_le hcall hcharged
      rw [h.toNat_sub hcall hcharged]
      omega
    cases callStep_moves hmove with
    | keep hother => exact absurd haction (not_or.mpr hother)
    | reserve => exact absurd haction (by simp)
    | rollBack hphase => exact hexact (by rw [hphase]; rfl)
    | release hphase => exact hexact (by rw [hphase]; rfl)
  failure := by
    intro i call hcall hphase
    have herase := sum_eraseIdx Call.charge hcall
    have hcharge : call.charge = 0 := by
      rcases hphase with hphase | hphase <;> simp [Call.charge, hphase, Phase.charged]
    rw [h.used_eq, State.charged]
    omega

/-- Whatever calls interleave, `used_` is the total of what is live or reserved, stays
within the limit, and no subtraction or sum of the code leaves the range of a word. -/
theorem budget_never_exceeded {limit : BitVec w} {actions : List (Action w)} {s : State w}
    (hrun : Machine.run State.step (start limit) actions = some s) : s.limit = limit ∧ Kept s :=
  ⟨(invariant_of_run hrun).2, (invariant_of_run hrun).1.kept⟩

/-- Two calls race for ten bytes with the same value of `used_`. The second one loses
the exchange and is refused; the block of the first cannot be had and is rolled back. -/
def racingRun : List (Action 64) :=
  [.allocate 6, .allocate 7, .call 0 (.load 0), .call 1 (.load 0), .call 0 .test, .call 1 .test,
    .call 0 .exchange, .call 1 (.reload 6), .call 1 .test, .call 0 (.backed false),
    .call 0 .rollBack]

theorem budget_never_exceeded_racingRun :
    ∃ s, Machine.run State.step (start 10) racingRun = some s ∧ Kept s ∧ s.used = 0 ∧
      s.calls = [⟨6, .failed⟩, ⟨7, .refused⟩] := by
  have hrun : Machine.run State.step (start 10) racingRun =
      some ⟨10, 0, [0, 6, 0], [⟨6, .failed⟩, ⟨7, .refused⟩]⟩ := by decide
  exact ⟨_, hrun, (budget_never_exceeded hrun).2, rfl, rfl⟩

end RttHttp.Codec.BudgetResource
