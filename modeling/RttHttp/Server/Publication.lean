import RttHttp.Server.Lifecycle
import RttHttp.Server.Publisher
import RttHttp.Server.Reach

/-! # Invariants of publication

Whoever changes the model, or the connections, holds `Impl::control`. While a
publisher holds it, the connections are those that its locals own, besides those of
the publications; while a request is served, the model it looks into is there, and
has only gained publications since the last time.
-/

namespace RttHttp.Server

open Codec (TypeCodec)
open Http (Library Request methodAllowed)
open Model (Component ObjectModel PortBridge PortReader Publication Resource)
open Route (canonicalRequestPath)

/-! ## What the lifecycle does to the model -/

/-- The caller executes `finishShutdown`. -/
def Caller.shuttingDown : Caller → Bool
  | .beginning final | .stop final _ => final
  | .finish _ => true
  | _ => false

namespace Impl

variable {openssl : Bool} {send : Nat → Bool} {s next : Impl} {action : Action}

theorem control_of_step (hstep : Step openssl send s action next) (hlocks : s.locks action = false)
    (hfree : s.control = none) : next.control = none := by
  cases hstep with
  | start hpc hpoint =>
      cases hpoint with
      | control => simp [locks, hpc] at hlocks
      | escape | returning => rfl
      | _ => exact hfree
  | stop hpc hpoint =>
      cases hpoint with
      | control => simp [locks, hpc] at hlocks
      | joined => rfl
      | _ => exact hfree
  | finish hpc hpoint =>
      cases hpoint with
      | control => simp [locks, hpc] at hlocks
      | returning => rfl
      | _ => exact hfree
  | run hrun => cases hrun <;> exact hfree
  | _ => exact hfree

/-- The model comes and goes under `control` only, and goes for good. -/
theorem Lifecycle.model_of_step (h : s.Lifecycle) (hstep : Step openssl send s action next) :
    next.model = s.model ∨
      s.control ≠ none ∧ (s.model = none ∧ ¬ s.Settled ∨ next.model = none ∧ s.Settled) := by
  cases hstep with
  | @start c o point _ _ hpc hpoint =>
      have hholds : (s.callers c).holdsControl = true → s.control ≠ none := fun hpoint => by
        rw [(h.control c).mpr hpoint]
        simp
      cases hpoint with
      | model hmodel =>
          refine .inr ⟨hholds (by rw [hpc]; rfl), .inl ⟨hmodel, fun hsettled => ?_⟩⟩
          have hcommitted := hsettled.committed c
          rw [hpc] at hcommitted
          cases hcommitted
      | _ => exact .inl rfl
  | stop hpc hpoint => cases hpoint <;> exact .inl rfl
  | @finish c point _ hpc hpoint =>
      have hassert := h.assertion c
      have hholds := (h.control c).mpr
      rw [hpc] at hassert hholds
      cases hpoint with
      | model =>
          refine .inr ⟨?_, .inr ⟨rfl, hassert.1⟩⟩
          rw [hholds rfl]
          simp
      | _ => exact .inl rfl
  | run hrun => cases hrun <;> exact .inl rfl
  | _ => exact .inl rfl

/-- A listener that does not return keeps listening, and its options stay. -/
theorem Lifecycle.listening_of_step (h : s.Lifecycle)
    (hstep : s.step openssl send action = some next) {k : Nat} (hlisten : s.runs k = .listen)
    (hleaves : leaves k action = false) : next.runs k = .listen ∧ next.options = s.options := by
  have hactive : s.runs k ≠ .ended := by simp [hlisten]
  obtain ⟨hnetwork, hstate, -⟩ := h.active k hactive
  cases step_cases hstep with
  | @start c o point _ _ hpc hpoint =>
      have hassert := h.assertion c
      rw [hpc] at hassert
      cases hpoint with
      | install => exact absurd hassert.2 hstate
      | thread =>
          -- A listener is opened only when none is there.
          have hnone := hassert.1.1
          rw [hnetwork] at hnone
          cases hnone
      | _ => exact ⟨hlisten, rfl⟩
  | stop hpc hpoint => cases hpoint <;> exact ⟨hlisten, rfl⟩
  | finish hpc hpoint => cases hpoint <;> exact ⟨hlisten, rfl⟩
  | @run j act _ hrun =>
      by_cases hj : j = k
      · subst hj
        replace hstep : s.runStep j act = some next := hstep
        unfold runStep at hstep
        rw [hlisten] at hstep
        cases act with
        | startHandler =>
            dsimp only at hstep
            split at hstep
            next =>
              cases hstep
              exact ⟨hlisten, rfl⟩
            next =>
              cases hstep
              exact ⟨hlisten, rfl⟩
        | poolShutdown =>
            cases hstep
            exact ⟨hlisten, rfl⟩
        | listened ok => simp [leaves] at hleaves
        | failed message => simp [leaves] at hleaves
        | _ => cases hstep
      · cases hrun <;>
          first
            | exact ⟨hlisten, rfl⟩
            | exact ⟨(Function.update_of_ne (Ne.symm hj) _ _).trans hlisten, rfl⟩
  | _ => exact ⟨hlisten, rfl⟩

/-- Behind a listener the model stays. -/
theorem Lifecycle.model_of_listening (h : s.Lifecycle) (hstep : Step openssl send s action next)
    {k : Nat} (hlisten : s.runs k = .listen) : next.model = s.model ∧ s.model.isSome = true := by
  have hactive : s.runs k ≠ .ended := by simp [hlisten]
  obtain ⟨hnetwork, -, hmodel, -⟩ := h.active k hactive
  refine ⟨?_, hmodel⟩
  rcases h.model_of_step hstep with hkept | ⟨-, ⟨hnone, -⟩ | ⟨-, hsettled⟩⟩
  · exact hkept
  · rw [hnone] at hmodel
    cases hmodel
  · have hclosed := hsettled.network
    rw [hnetwork] at hclosed
    cases hclosed

/-- Whoever executes `finishShutdown` has called it. -/
theorem shuttingDown_of_step (hstep : Step openssl send s action next) {c : Nat}
    (hshutting : (next.callers c).shuttingDown = true) :
    (s.callers c).shuttingDown = true ∨ action = .call c .finishShutdown := by
  have hmove : ∀ {other : Nat} {caller : Caller},
      (other = c → caller.shuttingDown = true → (s.callers c).shuttingDown = true) →
      (Function.update s.callers other caller c).shuttingDown = true →
        (s.callers c).shuttingDown = true ∨ action = .call c .finishShutdown := by
    intro other caller hself hupdated
    by_cases hother : other = c
    · rw [hother, Function.update_self] at hupdated
      exact .inl (hself hother hupdated)
    · rw [Function.update_of_ne (Ne.symm hother)] at hupdated
      exact .inl hupdated
  cases hstep with
  | @call other operation =>
      by_cases hother : other = c
      · subst hother
        simp only [setCaller, Function.update_self] at hshutting
        cases operation with
        | finishShutdown => exact .inr rfl
        | _ => cases hshutting
      · simp only [setCaller, Function.update_of_ne (Ne.symm hother)] at hshutting
        exact .inl hshutting
  | start hpc hpoint => cases hpoint <;> exact hmove (fun _ h => by cases h) hshutting
  | requesting => exact hmove (fun _ h => by cases h) hshutting
  | @stop other final point _ hpc hpoint =>
      have hkept : other = c → final = true → (s.callers c).shuttingDown = true := by
        rintro rfl hfinal
        rw [hpc]
        exact hfinal
      cases hpoint with
      | joined =>
          refine hmove (fun hother h => hkept hother ?_) hshutting
          cases final with
          | false => cases h
          | true => rfl
      | _ => exact hmove hkept hshutting
  | @beginning other final hpc =>
      refine hmove (fun hother h => ?_) hshutting
      subst hother
      rw [hpc]
      cases final with
      | false => cases h
      | true => rfl
  | @finish other point _ hpc hpoint =>
      have hself : other = c → (s.callers c).shuttingDown = true := by
        rintro rfl
        rw [hpc]
        rfl
      cases hpoint <;> exact hmove (fun hother _ => hself hother) hshutting
  | run hrun => cases hrun <;> exact .inl hshutting
  | _ => exact .inl hshutting

/-- Only `finishShutdown` drops the model. -/
theorem shuttingDown_of_drop (hstep : Step openssl send s action next) (hbefore : s.model.isSome = true)
    (hafter : next.model = none) : ∃ c, (s.callers c).shuttingDown = true := by
  have hsame : next.model ≠ s.model := fun hsame => by
    rw [← hsame, hafter] at hbefore
    cases hbefore
  cases hstep with
  | start hpc hpoint =>
      cases hpoint with
      | model => cases hafter
      | _ => exact absurd rfl hsame
  | stop hpc hpoint => cases hpoint <;> exact absurd rfl hsame
  | @finish c point _ hpc hpoint => exact ⟨c, by rw [hpc]; rfl⟩
  | run hrun => cases hrun <;> exact absurd rfl hsame
  | _ => exact absurd rfl hsame

end Impl

/-! ## Later models -/

section Later

variable [PortReader TypeCodec] {before middle after model committed : ObjectModel TypeCodec}

/-- Components have been published since, or none. -/
def Later (before after : ObjectModel TypeCodec) : Prop :=
  ∃ components : List Component, components.foldlM ObjectModel.publish before = .ok after

/-- Published to by the server alone, from what `start` made. -/
def Grown (model : ObjectModel TypeCodec) : Prop := ∃ initial, initial.Created ∧ Later initial model

theorem Later.refl (model : ObjectModel TypeCodec) : Later model model := ⟨[], rfl⟩

theorem Later.trans (hfirst : Later before middle) (hsecond : Later middle after) :
    Later before after := by
  obtain ⟨components, hcomponents⟩ := hfirst
  obtain ⟨more, hmore⟩ := hsecond
  refine ⟨components ++ more, ?_⟩
  rw [List.foldlM_append, hcomponents]
  exact hmore

theorem later_of_publish {component : Component} (h : before.publish component = .ok after) :
    Later before after := by
  refine ⟨[component], ?_⟩
  rw [List.foldlM_cons, h]
  rfl

theorem Grown.later (hbefore : Grown before) (h : Later before after) : Grown after := by
  obtain ⟨initial, hcreated, hinitial⟩ := hbefore
  exact ⟨initial, hcreated, hinitial.trans h⟩

theorem Grown.sound (h : Grown model) : model.Sound := by
  obtain ⟨initial, hcreated, components, hcomponents⟩ := h
  have hinitial := ObjectModel.sound_of_empty hcreated.publications
  exact (ObjectModel.grows_of_publish hinitial hcomponents).1

theorem Later.grows (h : Later before after) (hbefore : Grown before) :
    before.Grows after := by
  obtain ⟨components, hcomponents⟩ := h
  exact (ObjectModel.grows_of_publish hbefore.sound hcomponents).2

omit [PortReader TypeCodec] in
/-- Entering a publication adds its connections to those of the publications. -/
theorem bridges_of_commit {name : Bytes} {publication : Publication TypeCodec}
    (hcommit : model.commit name publication = .ok committed)
    (hfree : model.publications.lookup name = none) :
    (committed.publications.map (·.2.bridges)).sum =
      publication.bridges + (model.publications.map (·.2.bridges)).sum := by
  unfold ObjectModel.commit at hcommit
  rw [hfree] at hcommit
  cases hcommit
  exact ((OrderedMap.emplace_perm hfree).map _).sum_eq

end Later

/-! ## The second look -/

/-- How the checks of `handle` end for a request that the pre-routing handler let
through when it found `found`. The root has its listing made anew at each lookup. -/
inductive Rechecks (request : Request) (found : Resource TypeCodec) :
    Except Exit (Resource TypeCodec) → Prop
  | same (hpath : canonicalRequestPath request.target ≠ some Route.root) :
      Rechecks request found (.ok found)
  | listing {before after : List (Bytes × Publication TypeCodec)}
      (hpath : canonicalRequestPath request.target = some Route.root)
      (hfound : found = ObjectModel.rootResource before) (hkept : ∀ entry ∈ before, entry ∈ after) :
      Rechecks request found (.ok (ObjectModel.rootResource after))
  | unavailable (library : Library) : Rechecks request found (refuse library request 503 none {})
  | threw (thrown : Http.Thrown) : Rechecks request found (.error (.threw thrown {}))

section Recheck

variable {library other : Library} {options : ServerOptions} {request : Request}
  {checkpoint now : Checkpoint} {before after : ObjectModel TypeCodec} {path : Bytes}
  {found resource : Resource TypeCodec}

theorem attempt_cases (library : Library) (point : Http.Point) :
    attempt library point = .ok () ∨ ∃ thrown, attempt library point = .error (.threw thrown {}) := by
  unfold attempt
  split
  next thrown _ => exact .inr ⟨thrown, rfl⟩
  next => exact .inl rfl

/-- Of the checks of preflight, only that of the state can turn out differently when
the resource allows the same methods. -/
theorem preflight_again (h : preflight library options request checkpoint before = .ok ())
    (hpath : canonicalRequestPath request.target = some path)
    (hfound : before.resolve path = some found) (hresource : after.resolve path = some resource)
    (hallow : resource.allow = found.allow) :
    preflight other options request now after = .ok () ∨
      preflight other options request now after = refuse other request 503 none {} ∨
      ∃ thrown, preflight other options request now after = .error (.threw thrown {}) := by
  have hmethod : methodAllowed resource request.method = methodAllowed found request.method := by
    unfold methodAllowed
    rw [hallow]
  obtain ⟨⟨⟩, -, h⟩ := Model.bind_eq_ok.mp h
  unfold preflight
  rcases attempt_cases other .preflight with hattempt | ⟨thrown, hattempt⟩
  · rw [hattempt, hpath]
    by_cases hnow : now.running = true
    · left
      -- Each check is made on the request, the options and the methods, as the first time.
      rw [hpath] at h
      simp only [hfound] at h
      simp only [hresource, hnow, hmethod]
      split at h
      next => cases h
      next =>
        split at h
        next => cases h
        next hallowed =>
          rw [if_neg hallowed]
          split at h
          next => cases h
          next hoptions =>
            rw [if_neg hoptions]
            split at h
            next => cases h
            next hmedia =>
              rw [if_neg hmedia]
              split at h
              next hlength =>
                rw [if_pos hlength]
                split at h
                next =>
                  split at h
                  next => cases h
                  next hbound => exact if_neg hbound
                next => cases h
              next hlength => exact if_neg hlength
    · right
      left
      simp [hnow, bind, Except.bind]
  · rw [hattempt]
    exact .inr (.inr ⟨thrown, rfl⟩)

variable [PortReader TypeCodec] {model : ObjectModel TypeCodec}

/-- The pre-routing handler let the request through when it found `found` in an
earlier state of the model. -/
def Admitted (options : ServerOptions) (request : Request) (found : Resource TypeCodec)
    (model : ObjectModel TypeCodec) : Prop :=
  ∃ library checkpoint earlier, Grown earlier ∧ Later earlier model ∧
    preflight library options request checkpoint earlier = .ok () ∧
    (canonicalRequestPath request.target).bind earlier.resolve = some found

theorem Admitted.later (h : Admitted options request found model) (hlater : Later model after) :
    Admitted options request found after := by
  obtain ⟨library, checkpoint, earlier, hgrown, hmodel, hpreflight, hfound⟩ := h
  exact ⟨library, checkpoint, earlier, hgrown, hmodel.trans hlater, hpreflight, hfound⟩

/-- The path still resolves, and on a component route to the same resource. -/
theorem Admitted.resolve (h : Admitted options request found model) :
    ∃ library checkpoint earlier path resource,
      preflight library options request checkpoint earlier = .ok () ∧
      canonicalRequestPath request.target = some path ∧ earlier.resolve path = some found ∧
      model.resolve path = some resource ∧ resource.allow = found.allow ∧
      Rechecks request found (.ok resource) := by
  obtain ⟨library, checkpoint, earlier, hgrown, hlater, hpreflight, hbind⟩ := h
  obtain ⟨path, hpath, hfound⟩ := Option.bind_eq_some_iff.mp hbind
  refine ⟨library, checkpoint, earlier, path, ?_⟩
  have hgrows := hlater.grows hgrown
  by_cases hroot : path = Route.root
  · have hresolve : ∀ any : ObjectModel TypeCodec,
        any.resolve path = some (ObjectModel.rootResource any.publications) := fun any => by
      rw [hroot]
      rfl
    have hearlier := hfound
    rw [hresolve, Option.some.injEq] at hearlier
    subst hearlier
    exact ⟨_, hpreflight, hpath, hfound, hresolve model, rfl,
      .listing (hpath.trans (congrArg some hroot)) rfl hgrows.publications⟩
  · have hmodel := hgrows.resolve hgrown.sound (hgrown.later hlater).sound hroot hfound
    refine ⟨found, hpreflight, hpath, hfound, hmodel, rfl, .same ?_⟩
    rw [hpath]
    simpa using hroot

theorem Admitted.rechecks_preflight (h : Admitted options request found model) {exit : Exit}
    (hexit : preflight other options request now model = .error exit) :
    Rechecks request found (.error exit) := by
  obtain ⟨library, checkpoint, earlier, path, resource, hpreflight, hpath, hfound, hresource,
    hallow, -⟩ := h.resolve
  rcases preflight_again hpreflight hpath hfound hresource hallow with hok | hrefused | ⟨thrown, hthrew⟩
  · cases hok.symm.trans hexit
  · cases hrefused.symm.trans hexit
    exact .unavailable other
  · cases hthrew.symm.trans hexit
    exact .threw thrown

theorem Admitted.rechecks_relookup (h : Admitted options request found model) (library : Library) :
    Rechecks request found (Deployment.relookup library request model) := by
  obtain ⟨-, -, -, path, resource, -, hpath, -, hresource, -, hrechecks⟩ := h.resolve
  unfold Deployment.relookup
  rcases attempt_cases library .lookup with hattempt | ⟨thrown, hattempt⟩
  · rw [hattempt, hpath]
    simpa [hresource, bind, Except.bind] using hrechecks
  · rw [hattempt]
    exact .threw thrown

end Recheck

/-! ## The invariant -/

namespace Deployment

variable [PortReader TypeCodec] {openssl : Bool} {send : Nat → Bool} {s next : Deployment}
  {action : Action}

/-- The connections that the publisher with the lock has made and not yet handed over. -/
def held (s : Deployment) : Multiset PortBridge :=
  match s.holder with
  | none => 0
  | some c => (s.publishers c).held

omit [PortReader TypeCodec] in
theorem published_of_object {model : ObjectModel TypeCodec} (hobject : s.object = some model) :
    s.published = (model.publications.map (·.2.bridges)).sum := by
  rw [published, hobject]

/-- What a publisher knows at each of its points. -/
def StagingAssertion (s : Deployment) (component : Component) : Publishing → Prop
  | .staging pending held outcome => ∃ model, s.object = some model ∧
      outcome = model.stage component.services component.context ∧
      (held : Multiset PortBridge) + ↑pending =
        ↑(model.stageBridges component.services component.context)
  | .commit held publication => ∃ model, s.object = some model ∧
      model.stage component.services component.context = .ok publication ∧
      publication.bridges = ↑held
  | _ => True

/-- What holds at each point of a request. -/
def VisitAssertion (s : Deployment) : Visit → Prop
  | .routing k _ | .looking k _ _ => s.impl.runs k = .listen
  | .accepted k request found | .rechecking k request found _ | .rechecked k request found =>
      s.impl.runs k = .listen ∧ ∃ model, s.object = some model ∧
        Admitted s.impl.options request found model
  | .resolved request found outcome => Rechecks request found outcome
  | .answered => True

structure Intact (s : Deployment) : Prop where
  lifecycle : s.impl.Lifecycle
  exclusive : s.holder = none ∨ s.impl.control = none
  holds : ∀ c, s.holder = some c ↔ (s.publishers c).holdsControl = true
  object : s.object.isSome = s.impl.model.isSome
  grown : ∀ model, s.object = some model → Grown model
  ledger : s.connected = s.held + s.published
  staging : ∀ c component point, s.publishers c = .publish component point →
    s.StagingAssertion component point
  visits : ∀ visit ∈ s.visits, s.VisitAssertion visit

theorem intact_initial : Intact initial where
  lifecycle := Impl.lifecycle_initial
  exclusive := .inl rfl
  holds c := by simp [initial, Publisher.holdsControl]
  object := rfl
  grown model hmodel := by cases hmodel
  ledger := rfl
  staging c component point hpc := by cases hpc
  visits visit hvisit := by cases hvisit

/-! ## Threads that do not hold the lock -/

section Held

variable (bridge : PortBridge) (held : List PortBridge) (rest : Multiset PortBridge)

omit [PortReader TypeCodec] in
theorem connect_held : bridge ::ₘ (↑held + rest) = ↑(bridge :: held) + rest := by
  rw [← Multiset.cons_coe, Multiset.cons_add]

omit [PortReader TypeCodec] in
theorem disconnect_held : (↑(bridge :: held) + rest : Multiset PortBridge).erase bridge =
    ↑held + rest := by
  rw [← Multiset.cons_coe, Multiset.cons_add, Multiset.erase_cons_head]

end Held

/-- A publisher without the lock knows nothing. -/
theorem stagingAssertion_of_free {component : Component} {point : Publishing}
    (hfree : (Publisher.publish component point).holdsControl = false) :
    s.StagingAssertion component point := by
  cases point with
  | control => trivial
  | _ => cases hfree

/-- Nothing a publisher knows of has changed. -/
theorem StagingAssertion.of_eq {component : Component} {point : Publishing}
    (h : s.StagingAssertion component point) (hobject : next.object = s.object) :
    next.StagingAssertion component point := by
  cases point with
  | staging | commit =>
      obtain ⟨model, hmodel, hknown⟩ := h
      exact ⟨model, hobject.trans hmodel, hknown⟩
  | _ => trivial

theorem Intact.free {c : Nat} (h : s.Intact) (hholder : s.holder ≠ some c) :
    (s.publishers c).holdsControl = false := by
  have hfree := mt (h.holds c).mpr hholder
  simpa using hfree

theorem VisitAssertion.listening {visit : Visit} (h : s.VisitAssertion visit) {k : Nat}
    (hk : visit.thread = some k) : s.impl.runs k = .listen := by
  cases visit with
  | routing | looking =>
      cases hk
      exact h
  | accepted | rechecking | rechecked =>
      cases hk
      exact h.1
  | answered | resolved => cases hk

/-- A request keeps what it knows while its listener listens and the model grows. -/
theorem VisitAssertion.mono {visit : Visit} (h : s.VisitAssertion visit)
    (hlisten : ∀ k, visit.thread = some k →
      next.impl.runs k = .listen ∧ next.impl.options = s.impl.options)
    (hobject : visit.thread ≠ none → ∀ model, s.object = some model →
      ∃ later, next.object = some later ∧ Later model later) : next.VisitAssertion visit := by
  cases visit with
  | routing k request => exact (hlisten k rfl).1
  | looking k request checkpoint => exact (hlisten k rfl).1
  | accepted k request found | rechecking k request found checkpoint | rechecked k request found =>
      obtain ⟨hruns, hoptions⟩ := hlisten k rfl
      obtain ⟨-, model, hmodel, hadmitted⟩ := h
      obtain ⟨later, hlater, hgrew⟩ := hobject (by simp [Visit.thread]) model hmodel
      refine ⟨hruns, later, hlater, ?_⟩
      rw [hoptions]
      exact hadmitted.later hgrew
  | answered => trivial
  | resolved request found outcome => exact h

/-- Nothing a request knows of has changed. -/
theorem VisitAssertion.of_eq {visit : Visit} (h : s.VisitAssertion visit)
    (himpl : next.impl = s.impl) (hobject : next.object = s.object) :
    next.VisitAssertion visit := by
  refine h.mono (fun k hk => ?_) fun _ model hmodel => ⟨model, hobject.trans hmodel, .refl model⟩
  rw [himpl]
  exact ⟨h.listening hk, rfl⟩

/-! ## Steps of the lifecycle -/

section Lifecycle

variable {action : Server.Action} {after : Impl}

/-- The model comes and goes only while no publisher holds the lock. -/
theorem Intact.holder_of_change (h : s.Intact) (himpl : s.impl.step openssl send action = some after)
    (hchanged : after.model ≠ s.impl.model) : s.holder = none :=
  h.exclusive.resolve_right
    ((h.lifecycle.model_of_step (Impl.step_cases himpl)).resolve_left hchanged).1

theorem Intact.exclusive_impl (h : s.Intact) (himpl : s.impl.step openssl send action = some after)
    (hlocks : s.holder ≠ none → s.impl.locks action = false) :
    s.holder = none ∨ after.control = none := by
  by_cases hholder : s.holder = none
  · exact .inl hholder
  · exact .inr (Impl.control_of_step (Impl.step_cases himpl) (hlocks hholder)
      (h.exclusive.resolve_left hholder))

/-- A request that is being served rules out that the model comes or goes. -/
theorem Intact.visits_impl (h : s.Intact) (himpl : s.impl.step openssl send action = some after)
    (hleaves : ∀ visit ∈ s.visits, ∀ k, visit.thread = some k → leaves k action = false)
    (hnext : next.impl = after) (hobject : after.model = s.impl.model → next.object = s.object)
    {visit : Visit} (hvisit : visit ∈ s.visits) : next.VisitAssertion visit := by
  have hbefore := h.visits visit hvisit
  refine hbefore.mono (fun k hk => ?_) fun hthread model hmodel => ?_
  · rw [hnext]
    exact h.lifecycle.listening_of_step himpl (hbefore.listening hk) (hleaves visit hvisit k hk)
  · obtain ⟨k, hk⟩ := Option.ne_none_iff_exists'.mp hthread
    have hsame := h.lifecycle.model_of_listening (Impl.step_cases himpl) (hbefore.listening hk)
    exact ⟨model, (hobject hsame.1).trans hmodel, .refl model⟩

theorem Intact.staging_unlocked (h : s.Intact) (hnone : s.holder = none) {c : Nat}
    {component : Component} {point : Publishing} (hpc : s.publishers c = .publish component point) :
    next.StagingAssertion component point := by
  have hfree := h.free (c := c) (by simp [hnone])
  rw [hpc] at hfree
  exact stagingAssertion_of_free hfree

/-- A new model has no publications, as there was none to have any. -/
theorem Intact.ledger_create (h : s.Intact) {model : ObjectModel TypeCodec}
    (hobject : s.object = none) (hcreated : model.Created) :
    s.connected = s.held + published { s with impl := after, object := some model } := by
  have hledger := h.ledger
  simp only [published, hobject] at hledger
  simp only [published, hcreated.publications]
  exact hledger

/-- A step of the lifecycle; the requests that are being served find their model. -/
theorem Intact.impl (h : s.Intact) (himpl : s.impl.step openssl send action = some after)
    (hlocks : s.holder ≠ none → s.impl.locks action = false)
    (hleaves : ∀ visit ∈ s.visits, ∀ k, visit.thread = some k → leaves k action = false)
    (hnext : ImplStep s after next) : next.Intact := by
  have hexclusive := h.exclusive_impl himpl hlocks
  have hlifecycle : after.Lifecycle := h.lifecycle.of_step himpl
  cases hnext with
  | @create model hbefore hafter hcreated =>
      have hchanged : after.model ≠ s.impl.model := fun hsame => by
        rw [hsame, hbefore] at hafter
        cases hafter
      have hobject : s.object = none := by
        have hsome := h.object
        rw [hbefore] at hsome
        simpa using hsome
      refine {
        lifecycle := hlifecycle
        exclusive := hexclusive
        holds := h.holds
        object := hafter.symm
        grown := fun _ hmodel => ?_
        ledger := h.ledger_create hobject hcreated
        staging := fun c component point => h.staging_unlocked (h.holder_of_change himpl hchanged)
        visits := fun visit =>
          h.visits_impl himpl hleaves rfl fun hsame => absurd hsame hchanged }
      cases hmodel
      exact ⟨model, hcreated, .refl model⟩
  | destroy hbefore hafter =>
      have hchanged : after.model ≠ s.impl.model := fun hsame => by
        rw [← hsame, hafter] at hbefore
        cases hbefore
      refine {
        lifecycle := hlifecycle
        exclusive := hexclusive
        holds := h.holds
        object := by simp [hafter]
        grown := fun _ hmodel => by cases hmodel
        ledger := ?_
        staging := fun c component point => h.staging_unlocked (h.holder_of_change himpl hchanged)
        visits := fun visit =>
          h.visits_impl himpl hleaves rfl fun hsame => absurd hsame hchanged }
      have hgone : s.connected - s.published = s.held := by
        rw [h.ledger, add_tsub_cancel_right]
      exact hgone.trans (add_zero _).symm
  | keep hkept =>
      refine {
        lifecycle := hlifecycle
        exclusive := hexclusive
        holds := h.holds
        object := h.object.trans hkept.symm
        grown := h.grown
        ledger := h.ledger
        staging := fun c component point hpc => (h.staging c component point hpc).of_eq rfl
        visits := fun visit hvisit => h.visits_impl himpl hleaves ?_ ?_ hvisit }
      · rfl
      · exact fun _ => rfl

end Lifecycle

/-! ## Steps of a publisher -/

section Publisher

variable {c : Nat} {component : Component} {point : Publishing}

/-- A publisher has moved to a point at which it holds the lock, or still holds it. -/
theorem Intact.own (h : s.Intact) (hcontrol : s.impl.control = none)
    (hothers : ∀ other, other ≠ c → (s.publishers other).holdsControl = false)
    (himpl : next.impl = s.impl) (hholder : next.holder = some c) (hvisits : next.visits = s.visits)
    (hpublishers : next.publishers = Function.update s.publishers c (.publish component point))
    (hpoint : (Publisher.publish component point).holdsControl = true)
    (hobject : next.object = s.object ∨ ∃ model later, s.object = some model ∧
      next.object = some later ∧ Later model later)
    (hledger : next.connected = (Publisher.publish component point).held + next.published)
    (hstaging : next.StagingAssertion component point) : next.Intact := by
  have hself : next.publishers c = .publish component point := by
    rw [hpublishers, Function.update_self]
  have hother : ∀ other, other ≠ c → next.publishers other = s.publishers other := by
    intro other hne
    rw [hpublishers, Function.update_of_ne hne]
  refine {
    lifecycle := himpl ▸ h.lifecycle
    exclusive := .inr (himpl ▸ hcontrol)
    holds := fun other => ?_
    object := ?_
    grown := fun later hlater => ?_
    ledger := by rw [hledger, held, hholder]; simp only [hself]
    staging := fun other component' point' hpc => ?_
    visits := fun visit hvisit => ?_ }
  · rw [hholder, Option.some.injEq]
    by_cases hne : other = c
    · rw [hne, hself]
      exact iff_of_true rfl hpoint
    · rw [hother other hne, hothers other hne]
      simpa using Ne.symm hne
  · rw [himpl, ← h.object]
    rcases hobject with hkept | ⟨model, later, hmodel, hlater, -⟩
    · rw [hkept]
    · rw [hmodel, hlater]
      rfl
  · rcases hobject with hkept | ⟨model, later', hmodel, hlater', hgrew⟩
    · exact h.grown later (hkept ▸ hlater)
    · obtain rfl := Option.some.inj (hlater'.symm.trans hlater)
      exact (h.grown model hmodel).later hgrew
  · by_cases hne : other = c
    · rw [hne, hself] at hpc
      cases hpc
      exact hstaging
    · rw [hother other hne] at hpc
      -- The others wait for the lock, so they have staged nothing.
      have hfree := hothers other hne
      rw [hpc] at hfree
      exact stagingAssertion_of_free hfree
  · rw [hvisits] at hvisit
    have hassert := h.visits visit hvisit
    rcases hobject with hkept | ⟨model, later, hmodel, hlater, hgrew⟩
    · exact hassert.of_eq himpl hkept
    · refine hassert.mono (fun k hk => ?_) fun _ model' hmodel' => ?_
      · rw [himpl]
        exact ⟨hassert.listening hk, rfl⟩
      · obtain rfl := Option.some.inj (hmodel.symm.trans hmodel')
        exact ⟨later, hlater, hgrew⟩

/-- A publisher that holds the lock excludes everybody else from it. -/
theorem Intact.holder (h : s.Intact) (hpc : s.publishers c = .publish component point)
    (hpoint : (Publisher.publish component point).holdsControl = true) :
    s.holder = some c ∧ s.impl.control = none ∧
      (∀ other, other ≠ c → (s.publishers other).holdsControl = false) ∧
      s.connected = (Publisher.publish component point).held + s.published := by
  have hholder : s.holder = some c := (h.holds c).mpr (by rw [hpc]; exact hpoint)
  refine ⟨hholder, h.exclusive.resolve_left (by simp [hholder]), fun other hne => ?_, ?_⟩
  · apply h.free
    rw [hholder]
    simpa using Ne.symm hne
  · rw [h.ledger, held, hholder]
    simp only [hpc]

/-- A publisher that holds the lock moves on with the connections that it has. -/
theorem Intact.move {after : Publishing} (h : s.Intact)
    (hpc : s.publishers c = .publish component point)
    (hpoint : (Publisher.publish component point).holdsControl = true)
    (hafter : (Publisher.publish component after).holdsControl = true)
    (hheld : (Publisher.publish component after).held = (Publisher.publish component point).held)
    (hstaging : s.StagingAssertion component after) :
    (s.setPublisher c (.publish component after)).Intact := by
  obtain ⟨hholder, hcontrol, hothers, hledger⟩ := h.holder hpc hpoint
  refine h.own hcontrol hothers rfl hholder rfl rfl hafter (.inl rfl) ?_ ?_
  · rw [hheld]
    exact hledger
  · exact hstaging.of_eq rfl

theorem Intact.publisher (h : s.Intact) (hpc : s.publishers c = .publish component point)
    (hstep : PublishStep s c component point next) : next.Intact := by
  have hassert := h.staging c component point hpc
  cases hstep with
  | control hfree hnone =>
      have hledger := h.ledger
      simp only [held, hnone] at hledger
      exact h.own hfree (fun other _ => h.free (by simp [hnone])) rfl rfl rfl rfl rfl (.inl rfl)
        hledger trivial
  | stopped | present => exact h.move hpc rfl rfl rfl trivial
  | @stage model _ hobject =>
      refine h.move hpc rfl rfl rfl ?_
      exact ⟨model, hobject, rfl, zero_add _⟩
  | @connect bridge pending held outcome =>
      obtain ⟨hsome, hcontrol, hothers, hledger⟩ := h.holder hpc rfl
      obtain ⟨model, hobject, houtcome, hbridges⟩ := hassert
      refine h.own hcontrol hothers rfl hsome rfl rfl rfl (.inl rfl) ?_ ?_
      · show bridge ::ₘ s.connected = ↑(bridge :: held) + s.published
        rw [hledger]
        exact connect_held bridge held s.published
      · refine ⟨model, hobject, houtcome, ?_⟩
        rw [← hbridges, ← Multiset.cons_coe, ← Multiset.cons_coe, Multiset.cons_add,
          Multiset.add_cons]
  | @staged held publication =>
      obtain ⟨model, hobject, houtcome, hbridges⟩ := hassert
      refine h.move hpc rfl rfl rfl ?_
      refine ⟨model, hobject, houtcome.symm, ?_⟩
      rw [ObjectModel.stage_bridges houtcome.symm, ← hbridges]
      exact add_zero _
  | abandon hpoint =>
      rcases hpoint with ⟨pending, outcome, rfl⟩ | ⟨publication, rfl⟩
      · exact h.move hpc rfl rfl rfl trivial
      · exact h.move hpc rfl rfl rfl trivial
  | taken => exact h.move hpc rfl rfl rfl trivial
  | @commit model committed held publication _ hobject hcommit hfree =>
      obtain ⟨hsome, hcontrol, hothers, hledger⟩ := h.holder hpc rfl
      obtain ⟨model', hobject', hstage, hbridges⟩ := hassert
      obtain rfl := Option.some.inj (hobject.symm.trans hobject')
      have hpublish : model.publish component = .ok committed :=
        Model.bind_eq_ok.mpr ⟨publication, hstage, hcommit⟩
      refine h.own hcontrol hothers rfl hsome rfl rfl rfl
        (.inr ⟨model, committed, hobject, rfl, later_of_publish hpublish⟩) ?_ trivial
      -- The publication owns from now on what the locals owned before.
      show s.connected = 0 + (committed.publications.map (·.2.bridges)).sum
      rw [hledger, zero_add, bridges_of_commit hcommit hfree, hbridges, published_of_object hobject]
      rfl
  | @disconnect bridge held result =>
      obtain ⟨hsome, hcontrol, hothers, hledger⟩ := h.holder hpc rfl
      refine h.own hcontrol hothers rfl hsome rfl rfl rfl (.inl rfl) ?_ trivial
      show s.connected.erase bridge = ↑held + s.published
      rw [hledger]
      exact disconnect_held bridge held s.published
  | unwound => exact h.move hpc rfl rfl rfl trivial
  | returning =>
      obtain ⟨-, -, hothers, hledger⟩ := h.holder hpc rfl
      refine {
        lifecycle := h.lifecycle
        exclusive := .inl rfl
        holds := fun other => ?_
        object := h.object
        grown := h.grown
        ledger := hledger
        staging := fun other component' point' hpc' => ?_
        visits := fun visit hvisit => (h.visits visit hvisit).of_eq rfl rfl }
      · by_cases hne : other = c
        · simp [hne, Publisher.holdsControl]
        · simp [Function.update_of_ne hne, hothers other hne]
      · by_cases hne : other = c
        · simp [hne] at hpc'
        · simp only [setPublisher, Function.update_of_ne hne] at hpc'
          have hfree := hothers other hne
          rw [hpc'] at hfree
          exact stagingAssertion_of_free hfree

end Publisher

/-! ## Steps of a request -/

theorem Intact.visit {i : Nat} {visit : Visit} (h : s.Intact) (hvisit : visit ∈ s.visits)
    (hstep : VisitStep s i visit next) : next.Intact := by
  have hassert := h.visits visit hvisit
  -- All that changes is the request, which must be in order afterwards.
  have hset : ∀ {after : Visit}, s.VisitAssertion after → (s.setVisit i after).Intact := by
    intro after hafter
    refine {
      lifecycle := h.lifecycle
      exclusive := h.exclusive
      holds := h.holds
      object := h.object
      grown := h.grown
      ledger := h.ledger
      staging := fun c component point hpc => (h.staging c component point hpc).of_eq rfl
      visits := fun other hother => ?_ }
    rcases List.mem_or_eq_of_mem_set hother with hold | rfl
    · exact (h.visits other hold).of_eq rfl rfl
    · exact hafter.of_eq rfl rfl
  cases hstep with
  | route => exact hset hassert
  | decline => exact hset trivial
  | @accept k request checkpoint library model found hobject hpreflight hfound =>
      refine hset ⟨hassert, model, hobject, ?_⟩
      exact ⟨library, checkpoint, model, h.grown model hobject, .refl model, hpreflight, hfound⟩
  | handle => exact hset hassert
  | @refuse k request found checkpoint library model exit hobject hpreflight =>
      obtain ⟨-, model', hobject', hadmitted⟩ := hassert
      obtain rfl := Option.some.inj (hobject.symm.trans hobject')
      exact hset (hadmitted.rechecks_preflight hpreflight)
  | pass => exact hset hassert
  | @resolve k request found library model hobject =>
      obtain ⟨-, model', hobject', hadmitted⟩ := hassert
      obtain rfl := Option.some.inj (hobject.symm.trans hobject')
      exact hset (hadmitted.rechecks_relookup library)

/-! ## All steps -/

/-- A thread that does not hold the lock begins to publish. -/
theorem Intact.begin {c : Nat} (h : s.Intact) (hfree : (s.publishers c).holdsControl = false)
    (component : Component) : (s.setPublisher c (.publish component .control)).Intact := by
  have hholder : s.holder ≠ some c := fun hholder => by
    rw [(h.holds c).mp hholder] at hfree
    cases hfree
  have hheld : (s.setPublisher c (.publish component .control)).held = s.held := by
    unfold held
    cases hother : s.holder with
    | none => simp [hother]
    | some other =>
        have hne : other ≠ c := by
          rintro rfl
          exact hholder hother
        simp [hother, Function.update_of_ne hne]
  refine {
    lifecycle := h.lifecycle
    exclusive := h.exclusive
    holds := fun other => ?_
    object := h.object
    grown := h.grown
    ledger := by rw [hheld]; exact h.ledger
    staging := fun other component' point hpc => ?_
    visits := fun visit hvisit => (h.visits visit hvisit).of_eq rfl rfl }
  · by_cases hne : other = c
    · rw [hne]
      simpa [Publisher.holdsControl] using hholder
    · simpa [Function.update_of_ne hne] using h.holds other
  · by_cases hne : other = c
    · simp only [hne, setPublisher, Function.update_self] at hpc
      cases hpc
      trivial
    · simp only [setPublisher, Function.update_of_ne hne] at hpc
      exact (h.staging other component' point hpc).of_eq rfl

theorem Intact.arrive {k : Nat} (h : s.Intact) (hlisten : s.impl.runs k = .listen)
    (request : Request) : Intact { s with visits := s.visits ++ [.routing k request] } := by
  refine {
    lifecycle := h.lifecycle
    exclusive := h.exclusive
    holds := h.holds
    object := h.object
    grown := h.grown
    ledger := h.ledger
    staging := fun c component point hpc => (h.staging c component point hpc).of_eq rfl
    visits := fun visit hvisit => ?_ }
  rcases List.mem_append.mp hvisit with hold | hnew
  · exact (h.visits visit hold).of_eq rfl rfl
  · rw [List.mem_singleton.mp hnew]
    exact hlisten

/-- The invariant is kept by every step of the machine. -/
theorem Intact.step (h : s.Intact) (hstep : Step openssl send s action next) : next.Intact := by
  cases hstep with
  | impl himpl hlocks hleaves hnext => exact h.impl himpl hlocks hleaves hnext
  | publish hpc => exact h.begin hpc _
  | publisher hpc hstep => exact h.publisher hpc hstep
  | arrive hlisten => exact h.arrive hlisten _
  | visit hvisit hstep => exact h.visit hvisit hstep

theorem Intact.of_run {actions : List Action} {final : Deployment} (h : s.Intact)
    (hrun : Machine.run (Deployment.step openssl send) s actions = some final) : final.Intact :=
  Machine.run_invariant (fun _ _ _ hintact hstep => hintact.step (step_cases hstep)) h hrun

end Deployment

end RttHttp.Server
