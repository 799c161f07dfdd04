import RttHttp.Machine.Run
import Mathlib.Order.WellFounded

/-! # Fair schedules

A path is a machine that is never switched off: at each moment it takes one action, or
nothing happens to it. Justice asks of a thread only that it does not rest forever while
it could always go on. From it follow the two ways to show that something is going to
happen: a thread that can go on does so, and a rank that can only fall reaches its end.
-/

namespace RttHttp.Machine

variable {State Action : Type*} {step : State → Action → Option State}

/-- One of the actions `mine` is possible. -/
def Enabled (step : State → Action → Option State) (mine : Action → Prop) (s : State) : Prop :=
  ∃ action, mine action ∧ (step s action).isSome

/-- An infinite schedule with the states it passes. -/
structure Path (step : State → Action → Option State) where
  state : Nat → State
  action : Nat → Option Action
  moves : ∀ n, (action n).elim (some (state n)) (step (state n)) = some (state (n + 1))

namespace Path

variable (path : Path step)

/-- The action taken at the moment `n` is one of `mine`. -/
def Takes (mine : Action → Prop) (n : Nat) : Prop :=
  ∃ action, path.action n = some action ∧ mine action

/-- Justice towards the thread that takes the actions `mine`: it cannot always go on and
never do so. -/
def Just (mine : Action → Prop) : Prop :=
  ∀ n, (∀ m, n ≤ m → Enabled step mine (path.state m)) → ∃ m, n ≤ m ∧ path.Takes mine m

variable {path} {mine : Action → Prop} {n : Nat}

theorem rest_or_step (path : Path step) (n : Nat) :
    path.action n = none ∧ path.state (n + 1) = path.state n ∨
      ∃ action, path.action n = some action ∧
        step (path.state n) action = some (path.state (n + 1)) := by
  have hmoves := path.moves n
  cases haction : path.action n with
  | none =>
      rw [haction] at hmoves
      exact .inl ⟨rfl, (Option.some.inj hmoves).symm⟩
  | some action =>
      rw [haction] at hmoves
      exact .inr ⟨action, rfl, hmoves⟩

theorem step_of_action {action : Action} (haction : path.action n = some action) :
    step (path.state n) action = some (path.state (n + 1)) := by
  have hmoves := path.moves n
  rw [haction] at hmoves
  exact hmoves

/-- What every step keeps is kept on the whole path. -/
theorem invariant {holds : State → Prop}
    (hstep : ∀ s action next, holds s → step s action = some next → holds next)
    (hn : holds (path.state n)) {m : Nat} (hle : n ≤ m) : holds (path.state m) := by
  induction m, hle using Nat.le_induction with
  | base => exact hn
  | succ m _ ih =>
      rcases path.rest_or_step m with ⟨-, hrest⟩ | ⟨action, -, hnext⟩
      · rw [hrest]
        exact ih
      · exact hstep _ _ _ ih hnext

/-! ## Rules -/

/-- A well-founded rank that keeps falling while one waits ends the waiting. -/
theorem exists_of_descent {Rank : Type*} [Preorder Rank] [WellFoundedLT Rank]
    (waits : Nat → Prop) {goal : Nat → Prop} (rank : Nat → Rank) {n : Nat} (hn : waits n)
    (hfalls : ∀ m, n ≤ m → waits m → ∃ k, m ≤ k ∧ (goal k ∨ waits k ∧ rank k < rank m)) :
    ∃ m, n ≤ m ∧ goal m := by
  suffices hall : ∀ r m, n ≤ m → waits m → rank m = r → ∃ k, m ≤ k ∧ goal k from
    hall (rank n) n le_rfl hn rfl
  intro r
  induction r using WellFoundedLT.induction with
  | ind r ih =>
      intro m hm hwaits hr
      obtain ⟨k, hk, hgoal | ⟨hstill, hlower⟩⟩ := hfalls m hm hwaits
      · exact ⟨k, hk, hgoal⟩
      · obtain ⟨j, hj, hgoal⟩ := ih (rank k) (hr ▸ hlower) k (hm.trans hk) hstill rfl
        exact ⟨j, hk.trans hj, hgoal⟩

/-- A thread that can go on as long as one waits ends the waiting, if that is what each of
its actions does. -/
theorem Just.reaches (waits : Nat → Prop) {goal : Nat → Prop} (hjust : path.Just mine)
    (hn : waits n)
    (henabled : ∀ m, n ≤ m → waits m → goal m ∨ Enabled step mine (path.state m))
    (hstep : ∀ m, n ≤ m → waits m →
      goal m ∨ goal (m + 1) ∨ waits (m + 1) ∧ ¬path.Takes mine m) :
    ∃ m, n ≤ m ∧ goal m := by
  by_contra hnever
  have hopen : ∀ m, n ≤ m → ¬goal m := fun m hm hgoal => hnever ⟨m, hm, hgoal⟩
  have hnext : ∀ m, n ≤ m → waits m → waits (m + 1) ∧ ¬path.Takes mine m := by
    intro m hm hwaits
    rcases hstep m hm hwaits with hgoal | hgoal | hkept
    · exact absurd hgoal (hopen m hm)
    · exact absurd hgoal (hopen (m + 1) (hm.trans (Nat.le_succ m)))
    · exact hkept
  have hwaits : ∀ m, n ≤ m → waits m := fun m hm =>
    Nat.le_induction hn (fun k hk ih => (hnext k hk ih).1) m hm
  obtain ⟨m, hm, htaken⟩ := hjust n fun m hm =>
    (henabled m hm (hwaits m hm)).resolve_left (hopen m hm)
  exact (hnext m hm (hwaits m hm)).2 htaken

/-- The rule for a thread that needs several actions: each of them, and nothing that
others do, lowers the rank. -/
theorem Just.reaches_of_rank {Rank : Type*} [Preorder Rank] [WellFoundedLT Rank]
    (waits goal : State → Prop) (rank : State → Rank) (hjust : path.Just mine)
    (hn : waits (path.state n))
    (henabled : ∀ m, n ≤ m → waits (path.state m) →
      goal (path.state m) ∨ Enabled step mine (path.state m))
    (hstep : ∀ m, n ≤ m → waits (path.state m) → ∀ action, path.action m = some action →
      step (path.state m) action = some (path.state (m + 1)) →
      goal (path.state (m + 1)) ∨ waits (path.state (m + 1)) ∧
        (rank (path.state (m + 1)) < rank (path.state m) ∨
          rank (path.state (m + 1)) = rank (path.state m) ∧ ¬mine action)) :
    ∃ m, n ≤ m ∧ goal (path.state m) := by
  refine exists_of_descent (fun m => waits (path.state m)) (fun m => rank (path.state m)) hn
    fun m hm hwaits => ?_
  apply hjust.reaches
    (fun k => waits (path.state k) ∧ rank (path.state k) = rank (path.state m)) ⟨hwaits, rfl⟩
  · intro k hk hstill
    exact (henabled k (hm.trans hk) hstill.1).imp_left .inl
  · intro k hk hstill
    rcases path.rest_or_step k with ⟨hnone, hrest⟩ | ⟨action, haction, hnext⟩
    · refine .inr (.inr ⟨by rw [hrest]; exact hstill, ?_⟩)
      rintro ⟨action, htaken, -⟩
      rw [hnone] at htaken
      cases htaken
    · rcases hstep k (hm.trans hk) hstill.1 action haction hnext with
        hgoal | ⟨hkept, hlower | ⟨hsame, hother⟩⟩
      · exact .inr (.inl (.inl hgoal))
      · exact .inr (.inl (.inr ⟨hkept, hstill.2 ▸ hlower⟩))
      · refine .inr (.inr ⟨⟨hkept, hsame.trans hstill.2⟩, ?_⟩)
        rintro ⟨taken, htaken, hmine⟩
        rw [haction] at htaken
        cases htaken
        exact hother hmine

/-! ## Paths that come to rest -/

/-- A run, after which nothing happens any more. -/
def resting {init final : State} {actions : List Action}
    (hrun : run step init actions = some final) : Path step where
  state n := (run step init (actions.take n)).getD final
  action n := actions[n]?
  moves n := by
    rcases Nat.lt_or_ge n actions.length with hn | hn
    · obtain ⟨mid, next, hbefore, hstep, -⟩ := run_split
        (show run step init (actions.take n ++ actions[n] :: actions.drop (n + 1)) = some final by
          rw [← List.drop_eq_getElem_cons hn, List.take_append_drop, hrun])
      have hafter : run step init (actions.take (n + 1)) = some next := by
        rw [List.take_succ_eq_append_getElem hn, run_append, hbefore, Option.bind_some, run_cons,
          hstep]
        rfl
      rw [List.getElem?_eq_getElem hn, hbefore, hafter]
      exact hstep
    · rw [List.getElem?_eq_none hn, List.take_of_length_le hn,
        List.take_of_length_le (hn.trans (Nat.le_succ n)), hrun]
      rfl

section Resting

variable {init final : State} {actions : List Action} {hrun : run step init actions = some final}

theorem resting_state {s : State} (hbefore : run step init (actions.take n) = some s) :
    (resting hrun).state n = s := by
  change (run step init (actions.take n)).getD final = s
  rw [hbefore]
  rfl

theorem resting_end (hn : actions.length ≤ n) : (resting hrun).state n = final := by
  apply resting_state
  rw [List.take_of_length_le hn, hrun]

theorem along_resting {allowed : State → Action → Prop}
    (hallowed : Along step allowed init actions) {action : Action}
    (haction : (resting hrun).action n = some action) : allowed ((resting hrun).state n) action := by
  obtain ⟨hn, hget⟩ := List.getElem?_eq_some_iff.mp (show actions[n]? = some action from haction)
  have hsplit : actions = actions.take n ++ action :: actions.drop (n + 1) := by
    rw [← hget, ← List.drop_eq_getElem_cons hn, List.take_append_drop]
  have hwhole : run step init (actions.take n ++ action :: actions.drop (n + 1)) = some final :=
    hsplit ▸ hrun
  obtain ⟨mid, next, hbefore, -, -⟩ := run_split hwhole
  rw [hsplit] at hallowed
  rw [resting_state hbefore]
  exact (hallowed.split hbefore).2

/-- A thread that has nothing left to do in the final state has been treated justly. -/
theorem just_resting (hdone : ∀ action, mine action → step final action = none) :
    (resting hrun).Just mine := by
  intro n henabled
  obtain ⟨action, hmine, hsome⟩ := henabled (n + actions.length) (Nat.le_add_right n _)
  rw [resting_end (Nat.le_add_left _ n), hdone action hmine] at hsome
  cases hsome

end Resting

end Path

end RttHttp.Machine
