import RttHttp.Executor.ExactlyOnce
import RttHttp.Server.Concluded

/-! # Requests look as if they were done one at a time

Whatever the order in which handlers, workers, components and the reaper go on, what is
done to the components is one sequence of deeds, each of them done for at most one request
and while that request was under way. A call that is answered with 200 was performed in it,
and its answer gives what it gave.
-/

namespace RttHttp.Executor

/-- Only an admission brings an invocation into the executor. -/
theorem Stage.admitted_of_next {g g' : Stage} {event : Event} (hnext : g.next event = some g')
    (hadmitted : g'.admitted = true) : g.admitted = true ∨ event = .admitted := by
  cases Stage.next_cases hnext with
  | entered => exact .inr rfl
  | refused => cases hadmitted
  | _ => exact .inl rfl

theorem Stage.admitted_of_dispatchRank {g : Stage} (h : 0 < g.dispatchRank) : g.admitted = true := by
  cases g <;> simp_all [Stage.dispatchRank, Stage.admitted]

/-- What a step of the executor does to the stages of the invocations. -/
theorem Tracks.advance {s next : OperationExecutor} {g : Nat → Stage} {action : Action}
    (h : Tracks s g) (hstep : s.step action = some next) :
    ∃ g', Tracks next g' ∧ ∀ i,
      (g i).dispatchRank + (if action.dispatches i then 1 else 0) ≤ (g' i).dispatchRank ∧
      ((g' i).admitted = true → (g i).admitted = true ∨ action.admits i = true) := by
  have hmatch := step_simulates s g action next h hstep
  have hdispatches := fun i => dispatches_onEvents i action
  have hadmits := fun i => admits_onEvents i action
  cases hlabel : action.label with
  | none =>
      simp only [hlabel] at hmatch hdispatches
      refine ⟨g, hmatch, fun i => ⟨?_, .inl⟩⟩
      rw [hdispatches i]
      exact Nat.le_refl _
  | some labelled =>
      obtain ⟨k, event⟩ := labelled
      simp only [hlabel] at hmatch hdispatches hadmits
      obtain ⟨g', hedge, htracks⟩ := hmatch
      obtain ⟨target, htarget, rfl⟩ := Option.map_eq_some_iff.mp hedge
      refine ⟨_, htracks, fun i => ?_⟩
      rw [hdispatches i, hadmits i]
      by_cases hi : i = k
      · subst hi
        rw [Function.update_self]
        refine ⟨by simpa using Stage.next_dispatchRank _ event target htarget, fun hadmitted => ?_⟩
        rcases Stage.admitted_of_next htarget hadmitted with hbefore | rfl
        · exact .inl hbefore
        · exact .inr (by simp)
      · rw [Function.update_of_ne hi]
        exact ⟨by simp [Ne.symm hi], .inl⟩

end RttHttp.Executor

namespace RttHttp.Server

open Codec (TypeCodec Value)
open Executor (Ends Outcome OperationExecutor Prepared Stage Store Tracks)
open Model (PortReader Resource typeName)

variable {Hidden : Type}

/-- The requests that something was done for, in order. -/
def requests (done : List (Deed Hidden)) : List Nat := done.filterMap Deed.request

theorem requests_append (first second : List (Deed Hidden)) :
    requests (first ++ second) = requests first ++ requests second := List.filterMap_append

/-- Something more is done to the components. -/
theorem legal_snoc {performs : Performs Hidden} {calls : Nat → Option Prepared} {before : Components Hidden}
    {done : List (Deed Hidden)} {components after : Components Hidden} {deed : Deed Hidden}
    (h : Machine.run (Components.step performs calls) before done = some components)
    (hdeed : components.step performs calls deed = some after) :
    Machine.run (Components.step performs calls) before (done ++ [deed]) = some after := by
  rw [Machine.run_append, h]
  simpa using hdeed

/-- The request of a deed that was done. -/
theorem mem_requests {done : List (Deed Hidden)} {deed : Deed Hidden} {i : Nat}
    (hdeed : deed ∈ done) (hrequest : deed.request = some i) : i ∈ requests done :=
  List.mem_filterMap.mpr ⟨deed, hdeed, hrequest⟩

namespace Traffic

section Notes

variable {s : Traffic Hidden}

@[simp] theorem note_components (action : Executor.Action) :
    (s.note action).components = s.components := by
  unfold note
  split <;> rfl

@[simp] theorem note_done (action : Executor.Action) :
    (s.note action).done = s.done := by
  unfold note
  split <;> rfl

@[simp] theorem note_store (action : Executor.Action) : (s.note action).store = s.store := by
  unfold note
  split <;> rfl

@[simp] theorem note_entered (action : Executor.Action) :
    (s.note action).entered = s.entered := by
  unfold note
  split <;> rfl

@[simp] theorem note_answer (action : Executor.Action) :
    (s.note action).answer = s.answer := by
  unfold note
  split <;> rfl

/-- RTT is asked for a call when the executor dispatches it. -/
theorem count_posted_note (action : Executor.Action) (i : Nat) :
    (s.note action).posted.count i ≤
      s.posted.count i + if action.dispatches i then 1 else 0 := by
  unfold note
  split
  next w k => simp [Executor.Action.dispatches, List.count_cons]
  next w k => simp [Executor.Action.dispatches, List.count_cons]
  next w k outcome =>
    have hfewer := List.Sublist.count_le i (List.erase_sublist (l := s.posted) (a := k))
    exact Nat.le_add_right_of_le hfewer
  next => exact Nat.le_add_right _ _
  next => exact Nat.le_add_right _ _

/-- RTT reports more calls as successful, never fewer. -/
theorem mem_reported_note {action : Executor.Action} {i : Nat} :
    i ∈ (s.note action).reported ↔ i ∈ s.reported ∨ action.succeeds i := by
  unfold note
  split
  next w k => simp [Executor.Action.succeeds]
  next w k => simp [Executor.Action.succeeds]
  next w k outcome =>
    by_cases hdone : outcome = .returned true
    · subst hdone
      simp [Executor.Action.succeeds, or_comm, eq_comm]
    · have hnot : ¬Executor.Action.succeeds i (.worker w (.called k outcome)) := by
        cases outcome with
        | returned ready =>
            cases ready with
            | true => exact absurd rfl hdone
            | false => exact id
        | threwSendStatus | threw => exact id
      simp [hdone, hnot]
  next k => simp [Executor.Action.succeeds, or_comm, eq_comm]
  next _ _ hcalled hcollect =>
    have hnot : ¬action.succeeds i := by
      intro hsucceeds
      unfold Executor.Action.succeeds at hsucceeds
      split at hsucceeds
      next => exact absurd rfl (hcalled _ _ _)
      next => exact absurd rfl (hcollect _)
      next => exact hsucceeds
    simp [hnot]

end Notes

section Delivery

variable [PortReader TypeCodec] (exchanges : Nat → Exchange)

/-- The way on which an invocation is dispatched. -/
def sends (i : Nat) : Bool := ((exchanges i).call.map (·.send)).getD false

variable {exchanges} {s : Traffic Hidden}

theorem Delivered.of_eq {other : Traffic Hidden} {i : Nat} (h : s.Delivered exchanges i)
    (houtcome : other.components.outcome i = s.components.outcome i)
    (hstore : other.store i = s.store i) : other.Delivered exchanges i := by
  obtain ⟨prepared, outcome, store, hcall, hgiven, hheld⟩ := h
  exact ⟨prepared, outcome, store, hcall, houtcome.trans hgiven, hstore.trans hheld⟩

/-- What is reported as successful now was delivered. -/
theorem delivered_of_succeeds {action : Executor.Action} {i : Nat}
    (hdelivered : s.ReportsDelivered exchanges (.work action)) (hsucceeds : action.succeeds i) :
    s.Delivered exchanges i := by
  unfold Executor.Action.succeeds at hsucceeds
  split at hsucceeds
  next =>
    subst hsucceeds
    exact hdelivered
  next =>
    subst hsucceeds
    exact hdelivered
  next => exact hsucceeds.elim

end Delivery

/-! ## What holds while requests are under way -/

section Soundness

variable [PortReader TypeCodec] (performs : Performs Hidden) (exchanges : Nat → Exchange)
  (world : World Hidden)

/-- What an answer says about what was done. -/
structure Accounted (s : Traffic Hidden) (i : Nat) (exit : Exit) : Prop where
  status : (exchanges i).call.isSome = true → ∀ status, exit.status = some status → CallStatus status
  called : exit.status = some 200 → ∀ resource,
    Addresses (exchanges i).request (exchanges i).circumstances resource →
    resource.kind = .operation → ∃ prepared outcome, (exchanges i).call = some prepared ∧
      Deed.perform i ∈ s.done ∧ s.components.outcome i = some outcome ∧
      (exchanges i).Gives prepared outcome exit
  written : exit.status = some 204 → ∀ write, (exchanges i).assignment = some write →
    Deed.write i write.1 write.2 ∈ s.done

/-- The invariant. `counted` is where no call is performed twice: it is dispatched once,
and RTT performs it once for that; `reported` is where a success can be relied on. -/
structure Sound (s : Traffic Hidden) (g : Nat → Stage) : Prop where
  tracks : Tracks s.executor g
  delivers : s.executor.Delivers (sends exchanges) (· ∈ s.reported)
  reported : ∀ i ∈ s.reported, s.Delivered exchanges i
  legal : Machine.run (Components.step performs fun i => (exchanges i).call)
    ⟨world, fun _ => none⟩ s.done = some s.components
  counted : ∀ i, (exchanges i).call.isSome = true →
    (requests s.done).count i + s.posted.count i ≤ (g i).dispatchRank
  uncalled : ∀ i, (exchanges i).call = none → s.posted.count i = 0 ∧
    (requests s.done).count i ≤ if (s.answer i).isSome then 1 else 0
  entered : ∀ i, (g i).admitted = true → (exchanges i).call.isSome = true ∧
    (s.entered i).isSome = true
  performed : ∀ i outcome, s.components.outcome i = some outcome → Deed.perform i ∈ s.done ∧
    ∃ prepared, (exchanges i).call = some prepared ∧ outcome.Fits prepared.operation.part
  asked : ∀ i, Deed.perform i ∈ s.done → (exchanges i).call.isSome = true
  answered : ∀ i exit, s.answer i = some exit → s.Accounted exchanges i exit

variable {performs exchanges world} {s next : Traffic Hidden} {g : Nat → Stage}

theorem Accounted.mono {i : Nat} {exit : Exit} (h : s.Accounted exchanges i exit)
    (hdone : ∀ deed ∈ s.done, deed ∈ next.done)
    (houtcome : ∀ outcome, s.components.outcome i = some outcome →
      next.components.outcome i = some outcome) : next.Accounted exchanges i exit := by
  refine ⟨h.status, fun hstatus resource haddresses hkind => ?_, fun hstatus write hwrite =>
    hdone _ (h.written hstatus write hwrite)⟩
  obtain ⟨prepared, outcome, hcall, hperformed, hgiven, hgives⟩ :=
    h.called hstatus resource haddresses hkind
  exact ⟨prepared, outcome, hcall, hdone _ hperformed, houtcome outcome hgiven, hgives⟩

/-- The answers of a request that is answered now and of those that were answered before. -/
theorem accounted_update {i : Nat} {exit : Exit}
    (hbefore : ∀ j other, s.answer j = some other → s.Accounted exchanges j other)
    (hanswer : next.answer = Function.update s.answer i (some exit))
    (hkeep : ∀ j other, s.Accounted exchanges j other → next.Accounted exchanges j other)
    (hown : next.Accounted exchanges i exit) :
    ∀ j other, next.answer j = some other → next.Accounted exchanges j other := by
  intro j other hother
  rw [hanswer] at hother
  by_cases hj : j = i
  · subst hj
    rw [Function.update_self, Option.some.injEq] at hother
    exact hother ▸ hown
  · rw [Function.update_of_ne hj] at hother
    exact hkeep j other (hbefore j other hother)

/-- A call that RTT is still to perform has not been performed. -/
theorem Sound.unperformed (h : s.Sound performs exchanges world g) {i : Nat} (hposted : i ∈ s.posted) :
    (exchanges i).call.isSome = true ∧ i ∉ requests s.done ∧ s.components.outcome i = none := by
  have hcount : 0 < s.posted.count i := List.count_pos_iff.mpr hposted
  have hcall : (exchanges i).call.isSome = true := by
    by_contra hnone
    have hzero := (h.uncalled i (by simpa using hnone)).1
    omega
  have hfree : i ∉ requests s.done := by
    intro hmem
    have hdone : 0 < (requests s.done).count i := List.count_pos_iff.mpr hmem
    have hrank := h.counted i hcall
    have hone := (g i).dispatchRank_le_one
    omega
  refine ⟨hcall, hfree, ?_⟩
  cases houtcome : s.components.outcome i with
  | none => rfl
  | some outcome =>
      exact absurd (mem_requests (h.performed i outcome houtcome).1 rfl) hfree

/-- What is performed now was asked for, and leaves alone what other calls gave. -/
theorem Sound.outcome_perform (h : s.Sound performs exchanges world g) {i : Nat}
    (hposted : i ∈ s.posted) {after : Components Hidden}
    (hafter : s.components.step performs (fun j => (exchanges j).call) (.perform i) = some after) :
    (∀ j outcome, s.components.outcome j = some outcome → after.outcome j = some outcome) ∧
      ∀ j, j ≠ i → after.outcome j = s.components.outcome j := by
  obtain ⟨-, -, hnone⟩ := h.unperformed hposted
  obtain ⟨prepared, -, rfl⟩ := Option.map_eq_some_iff.mp hafter
  refine ⟨fun j outcome hgiven => ?_, fun j hj => Function.update_of_ne hj _ _⟩
  have hj : j ≠ i := by
    rintro rfl
    rw [hnone] at hgiven
    cases hgiven
  exact (Function.update_of_ne hj _ _).trans hgiven

/-- RTT has one call less to perform, and it is done. -/
theorem Sound.counted_perform (h : s.Sound performs exchanges world g) {i : Nat}
    (hposted : i ∈ s.posted) (j : Nat) (hj : (exchanges j).call.isSome = true) :
    (requests (s.done ++ [Deed.perform i])).count j + (s.posted.erase i).count j ≤
      (g j).dispatchRank := by
  have hcounted := h.counted j hj
  have hrequests : requests (s.done ++ [Deed.perform i]) = requests s.done ++ [i] :=
    requests_append _ _
  simp only [hrequests, List.count_append, List.count_singleton, List.count_erase]
  by_cases hsame : i = j
  · subst hsame
    have hpositive : 0 < s.posted.count i := List.count_pos_iff.mpr hposted
    simp only [BEq.rfl, if_true]
    omega
  · simpa [hsame, beq_eq_false_iff_ne.mpr hsame, beq_eq_false_iff_ne.mpr (Ne.symm hsame)]
      using hcounted

theorem Sound.uncalled_perform (h : s.Sound performs exchanges world g) {i : Nat}
    (hposted : i ∈ s.posted) (j : Nat) (hj : (exchanges j).call = none) :
    (s.posted.erase i).count j = 0 ∧ (requests (s.done ++ [Deed.perform i])).count j ≤
      if (s.answer j).isSome then 1 else 0 := by
  -- What is performed is a call, so it is done for another request.
  have hsame : i ≠ j := by
    rintro rfl
    have hcall := (h.unperformed hposted).1
    rw [hj] at hcall
    cases hcall
  obtain ⟨hnoposted, hcount⟩ := h.uncalled j hj
  have hrequests : requests (s.done ++ [Deed.perform i]) = requests s.done ++ [i] :=
    requests_append _ _
  refine ⟨?_, ?_⟩
  · have hfewer := List.Sublist.count_le j (List.erase_sublist (l := s.posted) (a := i))
    exact Nat.le_zero.mp (hnoposted ▸ hfewer)
  · simpa [hrequests, List.count_append, List.count_singleton, beq_eq_false_iff_ne.mpr hsame]
      using hcount

/-- A component performs a call. -/
theorem Sound.perform
    (hfits : ∀ part arguments before outcome,
      (performs part arguments before).1 = some outcome → outcome.Fits part)
    (h : s.Sound performs exchanges world g) {i : Nat} (hposted : i ∈ s.posted)
    (hstep : s.performStep performs exchanges i = some next) :
    next.Sound performs exchanges world g := by
  obtain ⟨components, hcomponents, rfl⟩ := Option.map_eq_some_iff.mp hstep
  obtain ⟨hkeep, hothers⟩ := h.outcome_perform hposted hcomponents
  refine {
    tracks := h.tracks
    delivers := h.delivers
    reported := fun j hj => ?reported
    legal := legal_snoc h.legal hcomponents
    counted := h.counted_perform hposted
    uncalled := h.uncalled_perform hposted
    entered := h.entered
    performed := fun j outcome hgiven => ?performed
    asked := fun j hdone => ?asked
    answered := fun j exit hanswer =>
      (h.answered j exit hanswer).mono (fun _ => List.mem_append_left _) (hkeep j) }
  case reported =>
    obtain ⟨other, outcome, store, hother, hgiven, hheld⟩ := h.reported j hj
    exact ⟨other, outcome, store, hother, hkeep j outcome hgiven, hheld⟩
  case performed =>
    by_cases hj : j = i
    · subst hj
      obtain ⟨prepared, hprepared, rfl⟩ := Option.map_eq_some_iff.mp hcomponents
      simp only [Function.update_self] at hgiven
      exact ⟨List.mem_append_right _ (List.mem_singleton_self _), prepared, hprepared,
        hfits _ _ _ outcome hgiven⟩
    · obtain ⟨hdone, hown⟩ := h.performed j outcome ((hothers j hj).symm.trans hgiven)
      exact ⟨List.mem_append_left _ hdone, hown⟩
  case asked =>
    rcases List.mem_append.mp hdone with hbefore | hnow
    · exact h.asked j hbefore
    · cases List.mem_singleton.mp hnow
      exact (h.unperformed hposted).1

/-- RTT writes to the data sources of a call that it has not reported yet. -/
theorem Sound.fill (h : s.Sound performs exchanges world g) {i : Nat} (hopen : i ∉ s.reported)
    (store : Store) :
    Sound performs exchanges world { s with store := Function.update s.store i store } g := by
  refine { h with
    reported := fun j hj => ?_
    answered := fun j exit hanswer => (h.answered j exit hanswer).mono (fun _ => id) fun _ => id }
  have hother : j ≠ i := by
    rintro rfl
    exact hopen hj
  exact (h.reported j hj).of_eq rfl (Function.update_of_ne hother _ _)

/-- The components go on by themselves. -/
theorem Sound.proceed (h : s.Sound performs exchanges world g) (after : World Hidden) :
    Sound performs exchanges world { s with
      components := { s.components with world := after }, done := s.done ++ [.proceed after] } g := by
  have hrequests : requests (s.done ++ [Deed.proceed after]) = requests s.done := by
    rw [requests_append]
    exact List.append_nil _
  refine {
    tracks := h.tracks
    delivers := h.delivers
    reported := fun j hj => (h.reported j hj).of_eq rfl rfl
    legal := legal_snoc h.legal rfl
    counted := fun j hj => by simpa only [hrequests] using h.counted j hj
    uncalled := fun j hj => by simpa only [hrequests] using h.uncalled j hj
    entered := h.entered
    performed := fun j outcome hgiven => ?performed
    asked := fun j hdone => ?asked
    answered := fun j exit hanswer =>
      (h.answered j exit hanswer).mono (fun _ => List.mem_append_left _) fun _ hgiven => hgiven }
  case performed =>
    obtain ⟨hdone, hown⟩ := h.performed j outcome hgiven
    exact ⟨List.mem_append_left _ hdone, hown⟩
  case asked =>
    rcases List.mem_append.mp hdone with hbefore | hnow
    · exact h.asked j hbefore
    · cases List.mem_singleton.mp hnow

/-! ### Requests that are no calls -/

theorem mem_deeds {exchange : Exchange} {i : Nat} {live : Live} {deed : Deed Hidden} :
    deed ∈ (exchange.deeds i live : List (Deed Hidden)) ↔
      ∃ write, (Turn.exchange exchange (exchange.exit live).status).written = some write ∧
        deed = .write i write.1 write.2 := by
  unfold Exchange.deeds
  simp [Option.mem_toList, eq_comm]

theorem count_requests_deeds (exchange : Exchange) (i : Nat) (live : Live) (j : Nat) :
    (requests (exchange.deeds i live : List (Deed Hidden))).count j ≤ if i = j then 1 else 0 := by
  unfold Exchange.deeds
  cases (Turn.exchange exchange (exchange.exit live).status).written with
  | none => exact Nat.zero_le _
  | some write =>
      have hrequest : requests [(Deed.write i write.1 write.2 : Deed Hidden)] = [i] := rfl
      simp [hrequest, List.count_singleton]

/-- Serving a request does to the components what its deeds say. -/
theorem Sound.legal_served (h : s.Sound performs exchanges world g) (i : Nat) :
    Machine.run (Components.step performs fun i => (exchanges i).call) ⟨world, fun _ => none⟩
      (s.served exchanges i).done = some (s.served exchanges i).components := by
  have hvalues := @Exchange.values_after _ (exchanges i) s.live
  unfold served Exchange.deeds
  dsimp only
  rw [hvalues]
  cases (Turn.exchange (exchanges i) ((exchanges i).exit s.live).status).written with
  | none => simpa [live] using h.legal
  | some write => exact legal_snoc h.legal rfl

theorem Sound.counted_served (h : s.Sound performs exchanges world g) {i : Nat}
    (hcall : (exchanges i).call = none) (j : Nat) (hj : (exchanges j).call.isSome = true) :
    (requests (s.served exchanges i).done).count j + s.posted.count j ≤ (g j).dispatchRank := by
  have hother : i ≠ j := by
    rintro rfl
    rw [hcall] at hj
    cases hj
  have hnone : (requests ((exchanges i).deeds i s.live : List (Deed Hidden))).count j ≤
      if i = j then 1 else 0 := count_requests_deeds (exchanges i) i s.live j
  rw [if_neg hother] at hnone
  have hcounted := h.counted j hj
  simp only [served, requests_append, List.count_append]
  omega

theorem Sound.uncalled_served (h : s.Sound performs exchanges world g) {i : Nat}
    (hopen : s.answer i = none) (j : Nat) (hj : (exchanges j).call = none) :
    s.posted.count j = 0 ∧ (requests (s.served exchanges i).done).count j ≤
      if ((s.served exchanges i).answer j).isSome then 1 else 0 := by
  obtain ⟨hposted, hbefore⟩ := h.uncalled j hj
  refine ⟨hposted, ?_⟩
  -- Nothing was done for a request without an answer, and at most one deed is now.
  have hnow : (requests ((exchanges i).deeds i s.live : List (Deed Hidden))).count j ≤
      if i = j then 1 else 0 := count_requests_deeds (exchanges i) i s.live j
  simp only [served, requests_append, List.count_append]
  by_cases hsame : i = j
  · subst hsame
    rw [if_pos rfl] at hnow
    rw [hopen] at hbefore
    simp only [Function.update_self, Option.isSome_some, if_true]
    simp only [Option.isSome_none, Bool.false_eq_true, if_false] at hbefore
    omega
  · rw [if_neg hsame] at hnow
    simp only [Function.update_of_ne (Ne.symm hsame)]
    omega

/-- The answer of a request that is no call tells of its own deed. -/
theorem accounted_served {i : Nat} (hcall : (exchanges i).call = none) :
    (s.served exchanges i).Accounted exchanges i ((exchanges i).exit s.live) := by
  refine ⟨fun hsome => ?_, fun hstatus resource haddresses hkind => ?_, fun hstatus write hwrite => ?_⟩
  · rw [hcall] at hsome
    cases hsome
  · obtain ⟨prepared, hdecide, hrunning, -⟩ :=
      call_of_status (exchanges i).published haddresses hkind hstatus
    rw [Exchange.call_of_decided hrunning hdecide] at hcall
    cases hcall
  · refine List.mem_append_right _ (mem_deeds.mpr ⟨write, ?_, rfl⟩)
    rw [hstatus, Turn.written, if_pos rfl, hwrite]

/-- A request that is no call is served. -/
theorem Sound.serve (h : s.Sound performs exchanges world g) {i : Nat}
    (hstep : s.serveStep exchanges i = some next) : next.Sound performs exchanges world g := by
  unfold serveStep at hstep
  split at hstep
  next => cases hstep
  next hguard =>
    simp only [Bool.or_eq_true, not_or, Bool.not_eq_true, Option.isSome_eq_false_iff,
      Option.isNone_iff_eq_none] at hguard
    obtain ⟨hopen, hcall⟩ := hguard
    have hexecutor : (s.served exchanges i).executor = s.executor := Exchange.executor_after hcall
    have hkeeps : ∀ deed ∈ s.done, deed ∈ (s.served exchanges i).done :=
      fun _ => List.mem_append_left _
    obtain rfl := Option.some.inj hstep
    refine {
      tracks := hexecutor ▸ h.tracks
      delivers := hexecutor ▸ h.delivers
      reported := fun j hj => (h.reported j hj).of_eq rfl rfl
      legal := h.legal_served i
      counted := h.counted_served hcall
      uncalled := h.uncalled_served hopen
      entered := h.entered
      performed := fun j outcome hgiven => ?performed
      asked := fun j hdone => ?asked
      answered := accounted_update h.answered rfl
        (fun j other hother => hother.mono hkeeps fun _ hgiven => hgiven) (accounted_served hcall) }
    case performed =>
      obtain ⟨hdone, hown⟩ := h.performed j outcome hgiven
      exact ⟨hkeeps _ hdone, hown⟩
    case asked =>
      rcases List.mem_append.mp hdone with hbefore | hnow
      · exact h.asked j hbefore
      · obtain ⟨write, -, hdeed⟩ := mem_deeds.mp hnow
        cases hdeed

/-! ### Calls -/

/-- A call that was not asked for stays so while nothing else is admitted. -/
theorem Sound.uncalled_advance (h : s.Sound performs exchanges world g) {g' : Nat → Stage}
    {action : Executor.Action}
    (hstages : ∀ i, (g i).dispatchRank + (if action.dispatches i then 1 else 0) ≤ (g' i).dispatchRank ∧
      ((g' i).admitted = true → (g i).admitted = true ∨ action.admits i = true))
    (hadmits : ∀ i, action.admits i = true → (exchanges i).call.isSome = true) {i : Nat}
    (hi : (exchanges i).call = none) : action.dispatches i = false := by
  by_contra hdispatches
  have hrank := (hstages i).1
  rw [if_pos (by simpa using hdispatches)] at hrank
  -- What is dispatched was admitted, and so is a call.
  have hadmitted := Executor.Stage.admitted_of_dispatchRank (g := g' i) (by omega)
  rcases (hstages i).2 hadmitted with hbefore | hnow
  · exact absurd (h.entered i hbefore).1 (by simp [hi])
  · exact absurd (hadmits i hnow) (by simp [hi])

/-- The executor goes on, and nothing is done to the components. -/
theorem Sound.advance (h : s.Sound performs exchanges world g) {action : Executor.Action}
    (hstep : s.executor.step action = some next.executor)
    (hcomponents : next.components = s.components) (hdone : next.done = s.done)
    (hposted : ∀ i, next.posted.count i ≤ s.posted.count i + if action.dispatches i then 1 else 0)
    (hreported : ∀ i, i ∈ next.reported ↔ i ∈ s.reported ∨ action.succeeds i)
    (hdelivered : ∀ i ∈ next.reported, next.Delivered exchanges i)
    (hentered : ∀ i, (s.entered i).isSome = true → (next.entered i).isSome = true)
    (hadmits : ∀ i, action.admits i = true → (exchanges i).call.isSome = true ∧
      (next.entered i).isSome = true)
    (hanswer : ∀ i, (s.answer i).isSome = true → (next.answer i).isSome = true)
    (hanswered : ∀ i exit, next.answer i = some exit → next.Accounted exchanges i exit) :
    ∃ g', next.Sound performs exchanges world g' := by
  obtain ⟨g', htracks, hstages⟩ := h.tracks.advance hstep
  have hmore : s.executor.Delivers (sends exchanges) (· ∈ next.reported) :=
    h.delivers.mono fun i hi => (hreported i).mpr (.inl hi)
  refine ⟨g', {
    tracks := htracks
    delivers := hmore.step (fun i hi => (hreported i).mpr (.inr hi)) hstep
    reported := hdelivered
    legal := by rw [hcomponents, hdone]; exact h.legal
    counted := fun i hi => ?counted
    uncalled := fun i hi => ?uncalled
    entered := fun i hi => ?entered
    performed := by rw [hcomponents, hdone]; exact h.performed
    asked := by rw [hdone]; exact h.asked
    answered := hanswered }⟩
  case counted =>
    have hcounted := h.counted i hi
    have hrank := (hstages i).1
    have hmore := hposted i
    rw [hdone]
    omega
  case uncalled =>
    obtain ⟨hnone, hcount⟩ := h.uncalled i hi
    have hidle := h.uncalled_advance hstages (fun i hi => (hadmits i hi).1) hi
    have hmore := hposted i
    rw [hdone]
    refine ⟨?_, hcount.trans ?_⟩
    · simp only [hidle, Bool.false_eq_true, if_false] at hmore
      omega
    · by_cases hsome : (s.answer i).isSome = true
      · rw [if_pos hsome, if_pos (hanswer i hsome)]
      · rw [if_neg hsome]
        exact Nat.zero_le _
  case entered =>
    rcases (hstages i).2 hi with hbefore | hnow
    · obtain ⟨hcall, hsome⟩ := h.entered i hbefore
      exact ⟨hcall, hentered i hsome⟩
    · exact hadmits i hnow

theorem Accounted.of_eq {i : Nat} {exit : Exit} (h : s.Accounted exchanges i exit)
    (hdone : next.done = s.done) (hcomponents : next.components = s.components) :
    next.Accounted exchanges i exit :=
  h.mono (fun deed hdeed => by rwa [hdone]) fun outcome hgiven => by rwa [hcomponents]

/-- A thread of the executor goes on. -/
theorem Sound.work (h : s.Sound performs exchanges world g) {action : Executor.Action}
    (hdelivered : s.ReportsDelivered exchanges (.work action))
    (hstep : s.workStep action = some next) :
    ∃ g', next.Sound performs exchanges world g' := by
  unfold workStep at hstep
  split at hstep
  next => cases hstep
  next hown =>
    obtain ⟨executor, hexecutor, rfl⟩ := Option.map_eq_some_iff.mp hstep
    refine h.advance hexecutor (by simp) (by simp) (count_posted_note action)
      (fun i => mem_reported_note) (fun i hi => ?_) (by simp) (fun i hadmits => ?_) (by simp)
      (fun i exit hanswer => ?_)
    · have hbefore : s.Delivered exchanges i := (mem_reported_note.mp hi).elim (h.reported i)
        (delivered_of_succeeds hdelivered)
      exact hbefore.of_eq (by simp) (by simp)
    · cases action with
      | handler j own => exact absurd rfl (hown j own)
      | worker | reaper | closer => cases hadmits
    · rw [note_answer] at hanswer
      exact (h.answered i exit hanswer).of_eq (by simp) (by simp)

/-- A handler takes a step of its own, and RTT does nothing. -/
theorem Sound.handle (h : s.Sound performs exchanges world g) {i : Nat}
    {action : Executor.HandlerAction}
    (hstep : s.executor.step (.handler i action) = some next.executor)
    (hcomponents : next.components = s.components) (hdone : next.done = s.done)
    (hposted : next.posted = s.posted) (hreported : next.reported = s.reported)
    (hstore : next.store = s.store) (hcall : (exchanges i).call.isSome = true)
    (hentered : ∀ j, (s.entered j).isSome = true → (next.entered j).isSome = true)
    (hadmits : Executor.Action.admits i (.handler i action) = true →
      (next.entered i).isSome = true)
    (hanswer : ∀ j, (s.answer j).isSome = true → (next.answer j).isSome = true)
    (hanswered : ∀ j exit, next.answer j = some exit → next.Accounted exchanges j exit) :
    ∃ g', next.Sound performs exchanges world g' := by
  refine h.advance hstep hcomponents hdone ?_ ?_ ?_ hentered ?_ hanswer hanswered
  · intro j
    rw [hposted]
    exact Nat.le_add_right _ _
  · intro j
    rw [hreported]
    exact (or_iff_left id).symm
  · intro j hj
    rw [hreported] at hj
    exact (h.reported j hj).of_eq (by rw [hcomponents]) (by rw [hstore])
  · intro j hj
    obtain rfl : i = j := by
      cases action with
      | admission cap fault result =>
          cases result with
          | admitted => simpa [Executor.Action.admits] using hj
          | refused | threw => cases hj
      | respond | giveUp => cases hj
    exact ⟨hcall, hadmits hj⟩

/-- A call that is answered before it is admitted. -/
theorem accounted_early {i : Nat} {prepared : Prepared} (hcall : (exchanges i).call = some prepared)
    (values : Nat → Value) (live : Live) :
    s.Accounted exchanges i (((exchanges i).meets i [] 200 values).exit live) := by
  have hmet : ((exchanges i).meets i [] 200 values).call = some prepared := hcall
  refine ⟨fun _ status hstatus => ?_, fun hstatus resource haddresses hkind => ?_,
    fun _ write hwrite => ?_⟩
  · exact Exchange.status_of_call hmet (.inl rfl) hstatus
  · obtain ⟨-, -, -, hpolls, -⟩ :=
      call_of_status ((exchanges i).meets i [] 200 values).published haddresses hkind hstatus
    cases hpolls
  · rw [Exchange.assignment_of_call hcall] at hwrite
    cases hwrite

/-- A call gets to the boundary. -/
theorem Sound.enter (h : s.Sound performs exchanges world g) {i : Nat}
    (hstep : s.enterStep exchanges i = some next) :
    ∃ g', next.Sound performs exchanges world g' := by
  unfold enterStep at hstep
  split at hstep
  next => cases hstep
  next prepared hcall =>
    have hsome : (exchanges i).call.isSome = true := by simp [hcall]
    obtain ⟨executor, hexecutor, hnext⟩ := Option.map_eq_some_iff.mp hstep
    have hrefused : ∀ {next : Traffic Hidden}, next = { s with
        executor := executor
        answer := Function.update s.answer i (some
          (((exchanges i).meets i [] 200 (heldValues prepared (s.store i))).exit s.live)) } →
        ∀ {result : Executor.AdmitResult} {cap : Nat} {fault : Option Executor.AdmitFault},
          s.executor.step (.handler i (.admission cap fault result)) = some executor →
          result ≠ .admitted → ∃ g', next.Sound performs exchanges world g' := by
      rintro next rfl result cap fault hexecutor hresult
      refine h.handle hexecutor rfl rfl rfl rfl rfl hsome (fun _ hj => hj) ?_ ?_ ?_
      · intro hadmits
        cases result with
        | admitted => exact absurd rfl hresult
        | refused | threw => cases hadmits
      · intro j hj
        by_cases hsame : j = i
        · subst hsame
          simp
        · simpa [Function.update_of_ne hsame] using hj
      · exact accounted_update h.answered rfl (fun j other hother => hother.of_eq rfl rfl)
          (accounted_early hcall _ _)
    cases hresult : (Executor.admitInvocation s.executor i
        (exchanges i).options.maxPendingOperations.toNat (exchanges i).circumstances.fault).1 with
    | admitted =>
        rw [hresult] at hexecutor hnext
        subst hnext
        refine h.handle hexecutor rfl rfl rfl rfl rfl hsome ?_ (by simp) (fun _ hj => hj) ?_
        · intro j hj
          by_cases hsame : j = i
          · subst hsame
            simp
          · simpa [Function.update_of_ne hsame] using hj
        · exact fun j exit hanswer => (h.answered j exit hanswer).of_eq rfl rfl
    | refused =>
        rw [hresult] at hexecutor hnext
        exact hrefused hnext.symm hexecutor nofun
    | threw =>
        rw [hresult] at hexecutor hnext
        exact hrefused hnext.symm hexecutor nofun

/-- A handler leaves the wait loop. -/
theorem Sound.leave (h : s.Sound performs exchanges world g) {i : Nat}
    {action : Executor.HandlerAction} {polls : List Poll}
    (haction : ∀ cap fault result, action ≠ .admission cap fault result)
    (hpolls : ∀ executor, s.executor.step (.handler i action) = some executor →
      waitLoop polls = true → (s.executor.invocation i).complete = true)
    (hstep : s.leaveStep exchanges i action polls = some next) :
    ∃ g', next.Sound performs exchanges world g' := by
  unfold leaveStep at hstep
  split at hstep
  next live prepared hlive hcall =>
    have hsome : (exchanges i).call.isSome = true := by simp [hcall]
    obtain ⟨executor, hexecutor, rfl⟩ := Option.map_eq_some_iff.mp hstep
    have htells := h.delivers.invocation i
    have hmet : ((exchanges i).meets i polls (s.executor.invocation i).status
      (heldValues prepared (s.store i))).call = some prepared := hcall
    refine h.handle hexecutor rfl rfl rfl rfl rfl hsome (fun _ hj => hj) ?_ ?_ ?_
    · intro hadmits
      cases action with
      | admission cap fault result => exact absurd rfl (haction cap fault result)
      | respond | giveUp => cases hadmits
    · intro j hj
      by_cases hsame : j = i
      · subst hsame
        simp
      · simpa [Function.update_of_ne hsame] using hj
    · refine accounted_update h.answered rfl (fun j other hother => hother.of_eq rfl rfl) ⟨?_, ?_, ?_⟩
      · intro _ status hstatus
        exact Exchange.status_of_call hmet htells.status hstatus
      · intro hstatus resource haddresses hkind
        obtain ⟨-, -, -, hleft, hfinished⟩ := call_of_status ((exchanges i).meets i polls
          (s.executor.invocation i).status (heldValues prepared (s.store i))).published
          haddresses hkind hstatus
        obtain ⟨other, outcome, store, hother, hgiven, hheld⟩ :=
          h.reported i (htells.complete (hpolls executor hexecutor hleft) hfinished)
        obtain rfl := Option.some.inj (hcall.symm.trans hother)
        obtain ⟨hperformed, fitting, hfitting, hfits⟩ := h.performed i outcome hgiven
        obtain rfl := Option.some.inj (hcall.symm.trans hfitting)
        obtain ⟨hgives⟩ := Exchange.gives_of_status hmet hfits
          (congrArg (heldValues prepared) hheld) hstatus
        exact ⟨prepared, outcome, hcall, hperformed, hgiven, ⟨hgives⟩⟩
      · intro _ write hwrite
        rw [Exchange.assignment_of_call hcall] at hwrite
        cases hwrite
  next => cases hstep

/-- The step lemma of requests under way. -/
theorem Sound.step
    (hfits : ∀ part arguments before outcome,
      (performs part arguments before).1 = some outcome → outcome.Fits part)
    (h : s.Sound performs exchanges world g) {move : Move Hidden} (hrtt : s.RttKeeps exchanges move)
    (hstep : s.step performs exchanges move = some next) :
    ∃ g', next.Sound performs exchanges world g' := by
  cases move with
  | serve i => exact ⟨g, h.serve hstep⟩
  | enter i => exact h.enter hstep
  | work action => exact h.work hrtt.delivered hstep
  | perform i => exact ⟨g, h.perform hfits hrtt.asked hstep⟩
  | fill i store =>
      cases hstep
      exact ⟨g, h.fill hrtt.reported store⟩
  | proceed after =>
      cases hstep
      exact ⟨g, h.proceed after⟩
  | respond i =>
      refine h.leave ?_ ?_ hstep
      · exact fun _ _ _ => nofun
      · intro executor hexecutor _
        cases OperationExecutor.handlerStep_cases hexecutor with
        | respond _ hcomplete => exact hcomplete
  | giveUp i =>
      refine h.leave ?_ ?_ hstep
      · exact fun _ _ _ => nofun
      · intro _ _ hpolls
        cases hpolls

theorem sound_start (performs : Performs Hidden) (width : Nat) (store : Nat → Store) :
    (start exchanges width world store).Sound performs exchanges world fun _ => .prepared where
  tracks := Executor.tracks_start width _
  delivers := OperationExecutor.delivers_start width _ _
  reported _ h := nomatch h
  legal := rfl
  counted _ _ := Nat.le_refl _
  uncalled _ _ := ⟨rfl, Nat.le_refl _⟩
  entered _ h := nomatch h
  performed _ _ h := nomatch h
  asked _ h := nomatch h
  answered _ _ h := nomatch h

/-- What was done stays done. -/
theorem done_of_step {move : Move Hidden} (hstep : s.step performs exchanges move = some next) :
    s.done <+: next.done := by
  cases move with
  | serve i =>
      unfold step serveStep at hstep
      dsimp only at hstep
      split at hstep
      next => cases hstep
      next =>
        cases hstep
        exact List.prefix_append _ _
  | enter i =>
      unfold step enterStep at hstep
      dsimp only at hstep
      split at hstep
      next => cases hstep
      next =>
        obtain ⟨executor, -, rfl⟩ := Option.map_eq_some_iff.mp hstep
        split <;> exact List.prefix_rfl
  | work action =>
      unfold step workStep at hstep
      dsimp only at hstep
      split at hstep
      next => cases hstep
      next =>
        obtain ⟨executor, -, rfl⟩ := Option.map_eq_some_iff.mp hstep
        rw [note_done]
  | perform i =>
      obtain ⟨components, -, rfl⟩ := Option.map_eq_some_iff.mp hstep
      exact List.prefix_append _ _
  | fill i store =>
      cases hstep
      exact List.prefix_rfl
  | proceed after =>
      cases hstep
      exact List.prefix_append _ _
  | respond i | giveUp i =>
      unfold step leaveStep at hstep
      dsimp only at hstep
      split at hstep
      next =>
        obtain ⟨executor, -, rfl⟩ := Option.map_eq_some_iff.mp hstep
        exact List.prefix_rfl
      next => cases hstep

theorem done_of_run {moves : List (Move Hidden)}
    (hrun : Machine.run (step performs exchanges) s moves = some next) : s.done <+: next.done := by
  have hgrows : ∀ (before : Traffic Hidden) (move : Move Hidden) (after : Traffic Hidden),
      s.done <+: before.done → before.step performs exchanges move = some after →
        s.done <+: after.done :=
    fun _ _ _ hbefore hstep => hbefore.trans (done_of_step hstep)
  exact Machine.run_invariant hgrows List.prefix_rfl hrun

/-- The answer tells that something was done for the request: a call with 200, or an
assignment with 204. -/
def Settled (exchange : Exchange) (exit : Exit) : Prop :=
  (exit.status = some 200 ∧ ∃ resource, Addresses exchange.request exchange.circumstances resource ∧
    resource.kind = .operation) ∨
  (exit.status = some 204 ∧ exchange.assignment.isSome = true)

theorem Sound.mem_of_settled (h : s.Sound performs exchanges world g) {i : Nat} {exit : Exit}
    (hanswer : s.answer i = some exit) (hsettled : Settled (exchanges i) exit) :
    i ∈ requests s.done := by
  have haccounted := h.answered i exit hanswer
  rcases hsettled with ⟨hstatus, resource, haddresses, hkind⟩ | ⟨hstatus, hassignment⟩
  · obtain ⟨-, -, -, hperformed, -⟩ := haccounted.called hstatus resource haddresses hkind
    exact mem_requests hperformed rfl
  · obtain ⟨write, hwrite⟩ := Option.isSome_iff_exists.mp hassignment
    exact mem_requests (haccounted.written hstatus write hwrite) rfl

/-- Nothing is done for a request that has not begun. -/
theorem Sound.notMem_of_fresh (h : s.Sound performs exchanges world g) {i : Nat}
    (hentered : s.entered i = none) (hanswer : s.answer i = none) : i ∉ requests s.done := by
  intro hmem
  have hcount : 0 < (requests s.done).count i := List.count_pos_iff.mpr hmem
  cases hcall : (exchanges i).call with
  | none =>
      have hnone := (h.uncalled i hcall).2
      rw [hanswer] at hnone
      simp only [Option.isSome_none, Bool.false_eq_true, if_false] at hnone
      omega
  | some prepared =>
      have hrank := h.counted i (by simp [hcall])
      have hadmitted := Executor.Stage.admitted_of_dispatchRank (g := g i) (by omega)
      have hsome := (h.entered i hadmitted).2
      rw [hentered] at hsome
      cases hsome

theorem Sound.nodup (h : s.Sound performs exchanges world g) : (requests s.done).Nodup := by
  apply List.nodup_iff_count_le_one.mpr
  intro i
  cases hcall : (exchanges i).call with
  | none =>
      refine ((h.uncalled i hcall).2).trans ?_
      split <;> decide
  | some prepared =>
      have hrank := h.counted i (by simp [hcall])
      have hone := (g i).dispatchRank_le_one
      omega

/-- The requests of a run that ends in `s`, as if they had been done one at a time: what
was done is a run of the components by themselves, with at most one deed for each request;
only calls that were asked for and admitted were performed; and the answers say what was
done. -/
structure OneAtATime (performs : Performs Hidden) (exchanges : Nat → Exchange)
    (world : World Hidden) (s : Traffic Hidden) : Prop where
  legal : Machine.run (Components.step performs fun i => (exchanges i).call)
    ⟨world, fun _ => none⟩ s.done = some s.components
  once : (requests s.done).Nodup
  asked : ∀ i, Deed.perform i ∈ s.done → (s.entered i).isSome = true ∧ ∃ prepared resource,
    (exchanges i).call = some prepared ∧ (exchanges i).Asks prepared resource
  answered : ∀ i exit, s.answer i = some exit → s.Accounted exchanges i exit

theorem Sound.oneAtATime (h : s.Sound performs exchanges world g) :
    OneAtATime performs exchanges world s := by
  refine ⟨h.legal, h.nodup, ?_, h.answered⟩
  intro i hperformed
  have hsome := h.asked i hperformed
  obtain ⟨prepared, hcall⟩ := Option.isSome_iff_exists.mp hsome
  obtain ⟨-, resource, hasks⟩ := Exchange.call_eq_some hcall
  refine ⟨?_, prepared, resource, hcall, hasks⟩
  have hcount : 0 < (requests s.done).count i :=
    List.count_pos_iff.mpr (mem_requests hperformed rfl)
  have hrank := h.counted i hsome
  exact (h.entered i (Executor.Stage.admitted_of_dispatchRank (by omega))).2

/-- The run lemma of requests under way. -/
theorem sound_of_run
    (hfits : ∀ part arguments before outcome,
      (performs part arguments before).1 = some outcome → outcome.Fits part)
    {width : Nat} {store : Nat → Store} {moves : List (Move Hidden)}
    (hrtt : Machine.Along (step performs exchanges) (RttKeeps exchanges)
      (start exchanges width world store) moves)
    (hrun : Machine.run (step performs exchanges) (start exchanges width world store) moves =
      some s) : ∃ g, s.Sound performs exchanges world g := by
  have hkeeps : ∀ (before : Traffic Hidden) (move : Move Hidden) (after : Traffic Hidden),
      (∃ g, before.Sound performs exchanges world g) → before.RttKeeps exchanges move →
        before.step performs exchanges move = some after →
        ∃ g, after.Sound performs exchanges world g := by
    rintro before move after ⟨g, h⟩ hkept hstep
    exact h.step hfits hkept hstep
  exact Machine.run_invariant_of hkeeps ⟨_, sound_start performs width store⟩ hrtt hrun

end Soundness

/-! ### The valve, toggled by requests that overlap -/

section Toggle

def toggleExchange (rtt : Rtt) (lawful : rtt.Lawful) : Exchange where
  library := toggleLibrary
  rtt := rtt
  options := {}
  request := toggleRequest
  circumstances := valveCircumstances
  lawful := lawful
  published := valveCircumstances_published

/-- The first call is sent, the others are made directly. -/
def toggleExchanges : Nat → Exchange
  | 0 => toggleExchange valveRtt valveRtt_lawful
  | _ => toggleExchange directRtt ⟨valveRtt_lawful.store, valveRtt_lawful.update⟩

/-- True for everything that an operation has to give. -/
def trueOutcome (part : Model.OperationPart) : Outcome where
  result := if typeName (part.argumentType 0) = bytes "Void" then none else some (.typed .bool true)
  references := List.replicate (Executor.referenceIndices part).length (.typed .bool true)

def giveTrue : Performs Unit := fun part _ world => (some (trueOutcome part), world)

theorem giveTrue_fits (part : Model.OperationPart) (arguments : List Value) (before : World Unit)
    (outcome : Outcome) (h : (giveTrue part arguments before).1 = some outcome) :
    outcome.Fits part := by
  cases h
  refine ⟨?_, List.length_replicate⟩
  by_cases hvoid : typeName (part.argumentType 0) = bytes "Void" <;> simp [trueOutcome, hvoid]

def sentToggle : Prepared := (toggleExchanges 0).call.get (by decide +kernel)

def directToggle : Prepared := (toggleExchanges 1).call.get (by decide +kernel)

/-- A call is performed, and its data sources are written. -/
def performed (i : Nat) (prepared : Prepared) : List (Move Unit) :=
  [.perform i, .fill i (prepared.finish (trueOutcome prepared.operation.part)
    fun _ => .typed .bool false)]

theorem delivered_performed {s next : Traffic Unit} {i : Nat} {prepared : Prepared}
    (hcall : (toggleExchanges i).call = some prepared)
    (hrun : Machine.run (step giveTrue toggleExchanges) s (performed i prepared) = some next) :
    next.Delivered toggleExchanges i := by
  obtain ⟨mid, hmid, hfill⟩ := Option.bind_eq_some_iff.mp hrun
  obtain ⟨components, hcomponents, rfl⟩ := Option.map_eq_some_iff.mp hmid
  obtain ⟨other, hother, rfl⟩ := Option.map_eq_some_iff.mp hcomponents
  obtain rfl := Option.some.inj (hcall.symm.trans hother)
  cases hfill
  exact ⟨prepared, trueOutcome prepared.operation.part, fun _ => .typed .bool false, hcall,
    Function.update_self .., Function.update_self ..⟩

/-- RTT may report a call that was performed so. -/
theorem reports_performed {s : Traffic Unit} {i : Nat} {prepared : Prepared}
    {before after : List (Move Unit)} {report : Move Unit}
    (hcall : (toggleExchanges i).call = some prepared)
    (hreport : ∀ mid : Traffic Unit, mid.Delivered toggleExchanges i →
      mid.ReportsDelivered toggleExchanges report)
    (hbefore : ∀ move ∈ before, ∀ mid : Traffic Unit, mid.ReportsDelivered toggleExchanges move)
    (hafter : ∀ mid, Machine.Along (step giveTrue toggleExchanges)
      (ReportsDelivered toggleExchanges) mid after) :
    Machine.Along (step giveTrue toggleExchanges) (ReportsDelivered toggleExchanges) s
      (before ++ (performed i prepared ++ report :: after)) := by
  refine (Machine.Along.of_forall hbefore s).append fun mid _ => ?_
  have hquiet : Machine.Along (step giveTrue toggleExchanges)
      (ReportsDelivered toggleExchanges) mid (performed i prepared) :=
    .of_forall (by simp [performed, ReportsDelivered]) mid
  refine hquiet.append fun last hlast => ⟨hreport last (delivered_performed hcall hlast), ?_⟩
  cases step giveTrue toggleExchanges last report with
  | none => trivial
  | some next => exact hafter next

/-- While the first call is under way, the second one is made and answered, and the third
one comes in after that. -/
def overlappingMoves : List (Move Unit) :=
  [.enter 0, .enter 1, .work (.worker 0 (.pop 0)), .work (.worker 1 (.pop 1)),
    .work (.worker 0 (.evaluate 0)), .work (.worker 1 (.call 1))] ++
  (performed 1 directToggle ++ .work (.worker 1 (.called 1 (.returned true))) ::
    ([.work (.worker 1 (.complete 1 200)), .respond 1, .enter 2,
      .work (.worker 0 (.evaluated 0 false)), .work (.worker 0 (.markSent 0)),
      .work (.reaper (.pick 0)), .work (.reaper (.check 0))] ++
    (performed 0 sentToggle ++ .work (.reaper (.collect 0 (.returned .sendSuccess))) ::
      ([.work (.reaper (.readStatus 0)), .work (.reaper (.complete 0 200)), .respond 0,
        .work (.worker 1 (.erase 1)), .work (.worker 1 (.pop 2)), .work (.worker 1 (.call 2))] ++
      (performed 2 directToggle ++ .work (.worker 1 (.called 2 (.returned true))) ::
        [.work (.worker 1 (.complete 2 200)), .respond 2])))))

/-- Two workers, and a valve that is open. -/
def toggleStart : Traffic Unit :=
  start toggleExchanges 2 ⟨fun _ => .typed .bool true, ()⟩ fun _ _ => .typed .bool false

theorem rttKeeps_overlapping : Machine.Along (step giveTrue toggleExchanges)
    (RttKeeps toggleExchanges) toggleStart overlappingMoves := by
  have hdirect : (toggleExchanges 1).call = some directToggle := (Option.some_get _).symm
  have hsent : (toggleExchanges 0).call = some sentToggle := (Option.some_get _).symm
  have hasked : Machine.Along (step giveTrue toggleExchanges) PerformsAsked toggleStart
      overlappingMoves := by decide +kernel
  have hreported : Machine.Along (step giveTrue toggleExchanges) LeavesReported toggleStart
      overlappingMoves := by decide +kernel
  have hdelivered : Machine.Along (step giveTrue toggleExchanges)
      (ReportsDelivered toggleExchanges) toggleStart overlappingMoves := by
    refine reports_performed hdirect (fun _ => id) (by simp [ReportsDelivered]) fun _ => ?_
    refine reports_performed hsent (fun _ => id) (by simp [ReportsDelivered]) fun _ => ?_
    refine reports_performed hdirect (fun _ => id) (by simp [ReportsDelivered]) fun _ => ?_
    exact .of_forall (by simp [ReportsDelivered]) _
  exact (hasked.and (hdelivered.and hreported)).mono fun _ _ h => ⟨h.1, h.2.1, h.2.2⟩

end Toggle

end Traffic

end RttHttp.Server
