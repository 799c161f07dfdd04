import RttHttp.Server.Exits
import RttHttp.Server.Publication

/-! # Publication is append-only and atomic

From the moment at which a call of `publishComponent` has the lock, nothing but the
call itself touches the model or the connections, and it gives the connections back
unless it hands them over with its publication. Between calls the model only grows,
until final shutdown drops it; what a request has found once is there when it looks
again.
-/

namespace RttHttp.Server

open Codec (TypeCodec)
open Http (Library Request)
open Model (Component ObjectModel PortBridge PortReader Publication Resource)
open Route (canonicalRequestPath)

/-- The call is going to return true. -/
def Publishing.succeeds : Publishing → Bool
  | .unwinding _ result | .returning result => result.isOk
  | _ => false

section Contains

variable {model committed : ObjectModel TypeCodec} {component : Component}
  {publication : Publication TypeCodec}

theorem contains_of_mem {entry : Bytes × Publication TypeCodec} (hentry : entry ∈ model.publications)
    (hcomponent : entry.2.component = component.context.address) :
    model.contains component.context.address = true :=
  List.any_eq_true.mpr ⟨entry, hentry, by simp [hcomponent]⟩

/-- A commit that succeeds leaves the component in the model. -/
theorem contains_of_commit [PortReader TypeCodec]
    (hstage : model.stage component.services component.context = .ok publication)
    (hcommit : model.commit component.context.name publication = .ok committed) :
    committed.contains component.context.address = true := by
  have hcomponent := ObjectModel.stage_component hstage
  rcases ObjectModel.commit_eq_ok hcommit with ⟨existing, hmem, hsame, rfl⟩ | ⟨hfresh, rfl⟩
  · exact contains_of_mem hmem (hsame.trans hcomponent)
  · have hentered : (component.context.name, publication) ∈
        OrderedMap.emplace Model.bytesLt model.publications component.context.name publication :=
      (OrderedMap.emplace_perm hfresh).mem_iff.mpr List.mem_cons_self
    exact contains_of_mem hentered hcomponent

/-- A commit under a name that is taken changes nothing. -/
theorem eq_of_taken (hcommit : model.commit component.context.name publication = .ok committed)
    (htaken : (model.publications.lookup component.context.name).isSome = true) :
    committed = model := by
  rcases ObjectModel.commit_eq_ok hcommit with ⟨-, -, -, rfl⟩ | ⟨hfresh, -⟩
  · rfl
  · rw [hfresh] at htaken
    cases htaken

end Contains

namespace Deployment

variable [PortReader TypeCodec] {openssl : Bool} {send : Nat → Bool} {s next start : Deployment}
  {action : Action}

/-! ## The course of a call -/

section Course

variable {c : Nat} {component : Component} {point : Publishing}

/-- While a publisher holds the lock, a step is one of its own or leaves the model, the
connections and the publisher alone. -/
theorem Intact.own_or_frame (h : s.Intact) (hholder : s.holder = some c)
    (hstep : Step openssl send s action next) :
    (∃ component point, s.publishers c = .publish component point ∧
      PublishStep s c component point next) ∨
    next.object = s.object ∧ next.connected = s.connected ∧
      next.publishers c = s.publishers c := by
  have hcontrol := h.exclusive.resolve_left (by simp [hholder])
  have hholds := (h.holds c).mp hholder
  cases hstep with
  | impl himpl _ _ hnext =>
      have hkept := (h.lifecycle.model_of_step (Impl.step_cases himpl)).resolve_right fun hchanged =>
        hchanged.1 hcontrol
      cases hnext with
      | create hbefore hafter =>
          rw [hkept, hbefore] at hafter
          cases hafter
      | destroy hbefore hafter =>
          rw [← hkept, hafter] at hbefore
          cases hbefore
      | keep => exact .inr ⟨rfl, rfl, rfl⟩
  | @publish other _ hpc =>
      refine .inr ⟨rfl, rfl, Function.update_of_ne ?_ _ _⟩
      rintro rfl
      rw [hpc] at hholds
      cases hholds
  | @publisher other component' point' _ _ hpc hpublish =>
      by_cases hother : other = c
      · subst hother
        exact .inl ⟨component', point', hpc, hpublish⟩
      · have hfree := h.free (c := other) (by simpa [hholder] using Ne.symm hother)
        rw [hpc] at hfree
        -- Only its first step is open to another publisher, and that needs the lock.
        cases hpublish with
        | control _ hnone =>
            rw [hholder] at hnone
            cases hnone
        | abandon hpoint => rcases hpoint with ⟨_, _, rfl⟩ | ⟨_, rfl⟩ <;> cases hfree
        | _ => cases hfree
  | arrive => exact .inr ⟨rfl, rfl, rfl⟩
  | visit _ hvisit => cases hvisit <;> exact .inr ⟨rfl, rfl, rfl⟩

/-- The model and the connections are as they were. -/
def Unchanged (before after : Deployment) : Prop :=
  after.object = before.object ∧ after.connected = before.connected

/-- The component has been published, with the connections that staging made. -/
def Entered (component : Component) (before after : Deployment) : Prop :=
  ∃ model committed, before.object = some model ∧ model.publish component = .ok committed ∧
    after.object = some committed ∧
    after.connected =
      ↑(model.stageBridges component.services component.context) + before.connected

/-- `ObjectModel::contains` on the model of the server. -/
def Contains (s : Deployment) (component : Component) : Prop :=
  ∃ model, s.object = some model ∧ model.contains component.context.address = true

/-- Where a call that began in `start` stands: it owns the connections that it has
made since, and nothing has been published before it is about to return. It returns
true only if its component is published then. -/
structure CourseAssertion (start s : Deployment) (component : Component) (point : Publishing) :
    Prop where
  effect : s.object = start.object ∧
      s.connected = (Publisher.publish component point).held + start.connected ∨
    point = .returning (.ok ()) ∧ start.Entered component s
  success : point.succeeds = true → s.Contains component

/-- The call of a publisher since it has had the lock. -/
structure Course (start : Deployment) (c : Nat) (component : Component) (s : Deployment) : Prop where
  intact : s.Intact
  holder : s.holder = some c
  point : ∃ point, s.publishers c = .publish component point ∧
    start.CourseAssertion s component point

/-- A step of the call itself. -/
theorem CourseAssertion.step (h : s.Intact) (hpc : s.publishers c = .publish component point)
    (hassert : start.CourseAssertion s component point)
    (hstep : PublishStep s c component point next) (hkept : next.holder = some c) :
    ∃ after, next.publishers c = .publish component after ∧
      start.CourseAssertion next component after := by
  have hstaging := h.staging c component point hpc
  have hself : ∀ after : Publishing,
      Function.update s.publishers c (.publish component after) c = .publish component after :=
    fun after => Function.update_self _ _ _
  -- Before it returns, the call has published nothing.
  have howned : point ≠ .returning (.ok ()) → s.object = start.object ∧
      s.connected = (Publisher.publish component point).held + start.connected := fun hpoint =>
    hassert.effect.resolve_right fun hentered => hpoint hentered.1
  cases hstep with
  | control | stopped | stage | staged =>
      exact ⟨_, hself _, .inl (howned (by simp)), fun h => by cases h⟩
  | @present model _ hobject hcontains =>
      exact ⟨_, hself _, .inl (howned (by simp)), fun _ => ⟨model, hobject, hcontains⟩⟩
  | @connect bridge pending held outcome =>
      obtain ⟨hobject, hconnected⟩ := howned (by simp)
      refine ⟨_, hself _, .inl ⟨hobject, ?_⟩, fun h => by cases h⟩
      show bridge ::ₘ s.connected = ↑(bridge :: held) + start.connected
      rw [hconnected]
      exact connect_held bridge held start.connected
  | abandon hpoint =>
      rcases hpoint with ⟨_, _, rfl⟩ | ⟨_, rfl⟩
      · exact ⟨_, hself _, .inl (howned (by simp)), fun h => by cases h⟩
      · exact ⟨_, hself _, .inl (howned (by simp)), fun h => by cases h⟩
  | @taken model committed held publication _ hobject hcommit htaken =>
      obtain ⟨model', hobject', hstage, -⟩ := hstaging
      obtain rfl := Option.some.inj (hobject.symm.trans hobject')
      have hcontains := contains_of_commit hstage hcommit
      rw [eq_of_taken hcommit htaken] at hcontains
      exact ⟨_, hself _, .inl (howned (by simp)), fun _ => ⟨model, hobject, hcontains⟩⟩
  | @commit model committed held publication _ hobject hcommit _ =>
      obtain ⟨hsame, hconnected⟩ := howned (by simp)
      obtain ⟨model', hobject', hstage, hbridges⟩ := hstaging
      obtain rfl := Option.some.inj (hobject.symm.trans hobject')
      have hpublish : model.publish component = .ok committed :=
        Model.bind_eq_ok.mpr ⟨publication, hstage, hcommit⟩
      refine ⟨_, hself _, .inr ⟨rfl, model, committed, hsame ▸ hobject, hpublish, rfl, ?_⟩,
        fun _ => ⟨committed, rfl, contains_of_commit hstage hcommit⟩⟩
      rw [← ObjectModel.stage_bridges hstage, hbridges]
      exact hconnected
  | @disconnect bridge held result =>
      obtain ⟨hobject, hconnected⟩ := howned (by simp)
      refine ⟨_, hself _, .inl ⟨hobject, ?_⟩, hassert.success⟩
      show s.connected.erase bridge = ↑held + start.connected
      rw [hconnected]
      exact disconnect_held bridge held start.connected
  | unwound => exact ⟨_, hself _, .inl (howned (by simp)), hassert.success⟩
  | returning => cases hkept

theorem Course.step (h : start.Course c component s) (hstep : Step openssl send s action next)
    (hkept : next.holder = some c) : start.Course c component next := by
  refine ⟨h.intact.step hstep, hkept, ?_⟩
  obtain ⟨point, hpc, hassert⟩ := h.point
  rcases h.intact.own_or_frame h.holder hstep with ⟨component', point', hpc', hpublish⟩ | hframe
  · obtain ⟨rfl, rfl⟩ := Publisher.publish.inj (hpc.symm.trans hpc')
    exact hassert.step h.intact hpc hpublish hkept
  · obtain ⟨hobject, hconnected, hpublisher⟩ := hframe
    refine ⟨point, hpublisher.trans hpc, ?_, fun hpoint => ?_⟩
    · have heffect := hassert.effect
      unfold Entered at heffect ⊢
      rw [hobject, hconnected]
      exact heffect
    · obtain ⟨model, hmodel, hcontains⟩ := hassert.success hpoint
      exact ⟨model, hobject.trans hmodel, hcontains⟩

/-- The step leaves the lock to the publisher. -/
def Keeps (openssl : Bool) (send : Nat → Bool) (c : Nat) (s : Deployment) (action : Action) : Prop :=
  ∀ next, s.step openssl send action = some next → next.holder = some c

theorem Course.run {actions : List Action} {final : Deployment} (h : start.Course c component s)
    (hkept : Machine.Along (Deployment.step openssl send) (Keeps openssl send c) s actions)
    (hrun : Machine.run (Deployment.step openssl send) s actions = some final) :
    start.Course c component final :=
  Machine.run_invariant_of
    (fun _ _ _ hcourse hkeeps hstep => hcourse.step (step_cases hstep) (hkeeps _ hstep)) h hkept hrun

theorem course_of_guard (h : s.Intact) (hpc : s.publishers c = .publish component .guard) :
    s.Course c component s where
  intact := h
  holder := (h.holder hpc rfl).1
  point := ⟨.guard, hpc, .inl ⟨rfl, (zero_add _).symm⟩, fun h => by cases h⟩

/-- A call that is about to return false has left no trace. -/
theorem Course.refused (h : start.Course c component s) {message : String}
    (hpc : s.publishers c = .publish component (.returning (.error message))) :
    start.Unchanged s := by
  obtain ⟨point, hpoint, hassert⟩ := h.point
  obtain ⟨-, rfl⟩ := Publisher.publish.inj (hpoint.symm.trans hpc)
  rcases hassert.effect with ⟨hobject, hconnected⟩ | ⟨hpoint, -⟩
  · exact ⟨hobject, hconnected.trans (zero_add _)⟩
  · simp at hpoint

/-- A call that is about to return true has published its component, or found it there
and left no trace. -/
theorem Course.returned (h : start.Course c component s)
    (hpc : s.publishers c = .publish component (.returning (.ok ()))) :
    s.Contains component ∧ (start.Unchanged s ∨ start.Entered component s) := by
  obtain ⟨point, hpoint, hassert⟩ := h.point
  obtain ⟨-, rfl⟩ := Publisher.publish.inj (hpoint.symm.trans hpc)
  refine ⟨hassert.success rfl, ?_⟩
  rcases hassert.effect with ⟨hobject, hconnected⟩ | ⟨-, hentered⟩
  · exact .inl ⟨hobject, hconnected.trans (zero_add _)⟩
  · exact .inr hentered

/-- A call that is about to return stays where it is as long as it has the lock. -/
theorem Course.rest {result : Result} (h : start.Course c component s)
    (hpc : s.publishers c = .publish component (.returning result)) (hsame : start.Unchanged s)
    (hstep : Step openssl send s action next) (hkept : next.holder = some c) :
    next.publishers c = .publish component (.returning result) ∧ start.Unchanged next := by
  rcases h.intact.own_or_frame h.holder hstep with ⟨component', point, hpc', hpublish⟩ | hframe
  · obtain ⟨rfl, rfl⟩ := Publisher.publish.inj (hpc.symm.trans hpc')
    cases hpublish with
    | returning => cases hkept
    | abandon hpoint => rcases hpoint with ⟨_, _, hpoint⟩ | ⟨_, hpoint⟩ <;> cases hpoint
  · obtain ⟨hobject, hconnected, hpublisher⟩ := hframe
    exact ⟨hpublisher.trans hpc, hobject.trans hsame.1, hconnected.trans hsame.2⟩

/-- A component that is there already is not staged again. -/
theorem present_of_contains {failure : Option Failure} {model : ObjectModel TypeCodec}
    (hpc : s.publishers c = .publish component .guard) (hrunning : s.checkpoint.running = true)
    (hobject : s.object = some model)
    (hcontains : model.contains component.context.address = true)
    (hstep : s.step openssl send (.publisher c failure) = some next) :
    next.publishers c = .publish component (.returning (.ok ())) ∧ s.Unchanged next := by
  simp only [Deployment.step, hpc] at hstep
  cases publisherStep_cases hstep with
  | stopped hstopped =>
      rw [hrunning] at hstopped
      cases hstopped
  | present => exact ⟨Function.update_self _ _ _, rfl, rfl⟩
  | stage _ hobject' hcontains' =>
      obtain rfl := Option.some.inj (hobject.symm.trans hobject')
      rw [hcontains] at hcontains'
      cases hcontains'
  | abandon hpoint => rcases hpoint with ⟨_, _, hpoint⟩ | ⟨_, hpoint⟩ <;> cases hpoint

/-- Its call returns true and has left no trace. -/
theorem repeated_of_contains {model : ObjectModel TypeCodec} {failure : Option Failure}
    {actions : List Action} {final : Deployment} (h : s.Intact)
    (hpc : s.publishers c = .publish component .guard) (hrunning : s.checkpoint.running = true)
    (hobject : s.object = some model)
    (hcontains : model.contains component.context.address = true)
    (hkept : Machine.Along (Deployment.step openssl send) (Keeps openssl send c) s
      (.publisher c failure :: actions))
    (hrun : Machine.run (Deployment.step openssl send) s (.publisher c failure :: actions) =
      some final) :
    final.publishers c = .publish component (.returning (.ok ())) ∧ s.Unchanged final := by
  obtain ⟨next, hnext, hrest⟩ := Option.bind_eq_some_iff.mp hrun
  obtain ⟨hkeeps, htail⟩ := hkept
  rw [hnext] at htail
  have hcourse := (course_of_guard h hpc).step (step_cases hnext) (hkeeps next hnext)
  have hpresent := present_of_contains hpc hrunning hobject hcontains hnext
  have hstays : ∀ later action after, (s.Course c component later ∧
      later.publishers c = .publish component (.returning (.ok ())) ∧ s.Unchanged later) →
      Keeps openssl send c later action → later.step openssl send action = some after →
      s.Course c component after ∧
        after.publishers c = .publish component (.returning (.ok ())) ∧ s.Unchanged after := by
    intro later action after hlater hkeeps hstep
    obtain ⟨hcourse, hpoint, hsame⟩ := hlater
    exact ⟨hcourse.step (step_cases hstep) (hkeeps after hstep),
      hcourse.rest hpoint hsame (step_cases hstep) (hkeeps after hstep)⟩
  exact (Machine.run_invariant_of hstays ⟨hcourse, hpresent⟩ htail hrest).2

end Course

/-! ## From call to call -/

/-- The model is a later one, or final shutdown has dropped it. -/
def Continues (model : ObjectModel TypeCodec) (s : Deployment) : Prop :=
  (∃ later, s.object = some later ∧ Later model later) ∨ s.object = none ∧ s.impl.Settled

theorem Continues.step {model : ObjectModel TypeCodec} (h : s.Intact) (hmodel : s.Continues model)
    (hstep : Step openssl send s action next) : next.Continues model := by
  cases hstep with
  | impl himpl _ _ hnext =>
      have hstep := Impl.step_cases himpl
      have hchanges := h.lifecycle.model_of_step hstep
      cases hnext with
      | create hbefore hafter =>
          rcases hmodel with ⟨later, hlater, -⟩ | ⟨-, hsettled⟩
          · have hsome := h.object
            rw [hlater, hbefore] at hsome
            cases hsome
          · -- Once the server is settled, no `start` makes another model.
            rcases hchanges with hsame | ⟨-, ⟨-, hopen⟩ | ⟨hnone, -⟩⟩
            · rw [hsame, hbefore] at hafter
              cases hafter
            · exact absurd hsettled hopen
            · rw [hnone] at hafter
              cases hafter
      | destroy hbefore hafter =>
          refine .inr ⟨rfl, ?_⟩
          rcases hchanges with hsame | ⟨-, ⟨hnone, -⟩ | ⟨-, hsettled⟩⟩
          · rw [← hsame, hafter] at hbefore
            cases hbefore
          · rw [hnone] at hbefore
            cases hbefore
          · exact (h.lifecycle.keeps hstep).settled hsettled
      | keep =>
          rcases hmodel with hlater | ⟨hnone, hsettled⟩
          · exact .inl hlater
          · exact .inr ⟨hnone, (h.lifecycle.keeps hstep).settled hsettled⟩
  | publish => exact hmodel
  | @publisher c component point _ _ hpc hpublish =>
      have hstaging := h.staging c component point hpc
      cases hpublish with
      | @commit current committed held publication _ hobject hcommit _ =>
          obtain ⟨current', hobject', hstage, -⟩ := hstaging
          obtain rfl := Option.some.inj (hobject.symm.trans hobject')
          have hpublish : current.publish component = .ok committed :=
            Model.bind_eq_ok.mpr ⟨publication, hstage, hcommit⟩
          rcases hmodel with ⟨later, hlater, hgrew⟩ | ⟨hnone, -⟩
          · obtain rfl := Option.some.inj (hobject.symm.trans hlater)
            exact .inl ⟨committed, rfl, hgrew.trans (later_of_publish hpublish)⟩
          · rw [hobject] at hnone
            cases hnone
      | _ => exact hmodel
  | arrive => exact hmodel
  | visit _ hvisit => cases hvisit <;> exact hmodel

theorem Intact.continues {model : ObjectModel TypeCodec} {actions : List Action}
    {final : Deployment} (h : s.Intact) (hobject : s.object = some model)
    (hrun : Machine.run (Deployment.step openssl send) s actions = some final) :
    final.Continues model := by
  have hkept : ∀ (s : Deployment) (action : Action) (next : Deployment),
      s.Intact ∧ s.Continues model → s.step openssl send action = some next →
      next.Intact ∧ next.Continues model := by
    intro s action next hs hstep
    exact ⟨hs.1.step (step_cases hstep), hs.2.step hs.1 (step_cases hstep)⟩
  exact (Machine.run_invariant hkept ⟨h, .inl ⟨model, hobject, .refl model⟩⟩ hrun).2

/-- Somebody executes `finishShutdown` at the start of the run, or calls it on the way. -/
def FinishCalled (s : Deployment) (actions : List Action) : Prop :=
  (∃ c, (s.impl.callers c).shuttingDown = true) ∨
    ∃ c fresh, Action.impl (.call c .finishShutdown) fresh ∈ actions

/-- Only steps of the lifecycle move its callers and drop the model. -/
theorem lifecycle_of_step (hstep : Step openssl send s action next) :
    (∃ action' fresh impl, action = .impl action' fresh ∧
      s.impl.step openssl send action' = some impl ∧ ImplStep s impl next) ∨
    next.impl = s.impl ∧ (s.object.isSome = true → next.object.isSome = true) := by
  cases hstep with
  | impl himpl _ _ hnext => exact .inl ⟨_, _, _, rfl, himpl, hnext⟩
  | publisher _ hpublish =>
      cases hpublish with
      | commit => exact .inr ⟨rfl, fun _ => rfl⟩
      | _ => exact .inr ⟨rfl, id⟩
  | visit _ hvisit => cases hvisit <;> exact .inr ⟨rfl, id⟩
  | _ => exact .inr ⟨rfl, id⟩

theorem FinishCalled.of_step {rest : List Action} (hstep : Step openssl send s action next)
    (h : next.FinishCalled rest) : s.FinishCalled (action :: rest) := by
  rcases h with ⟨c, hshutting⟩ | ⟨c, fresh, hcall⟩
  · rcases lifecycle_of_step hstep with ⟨action', fresh, impl, rfl, himpl, hnext⟩ | ⟨hsame, -⟩
    · have hnextImpl : next.impl = impl := by cases hnext <;> rfl
      rw [hnextImpl] at hshutting
      rcases Impl.shuttingDown_of_step (Impl.step_cases himpl) hshutting with hbefore | rfl
      · exact .inl ⟨c, hbefore⟩
      · exact .inr ⟨c, fresh, List.mem_cons_self⟩
    · exact .inl ⟨c, hsame ▸ hshutting⟩
  · exact .inr ⟨c, fresh, List.mem_cons_of_mem _ hcall⟩

theorem shuttingDown_of_dropped (hstep : Step openssl send s action next)
    (hbefore : s.object.isSome = true) (hafter : next.object = none) :
    ∃ c, (s.impl.callers c).shuttingDown = true := by
  rcases lifecycle_of_step hstep with ⟨action', fresh, impl, -, himpl, hnext⟩ | ⟨-, hkept⟩
  · cases hnext with
    | create => cases hafter
    | destroy hsome hnone => exact Impl.shuttingDown_of_drop (Impl.step_cases himpl) hsome hnone
    | keep =>
        have hnone : s.object = none := hafter
        rw [hnone] at hbefore
        cases hbefore
  · have hsome := hkept hbefore
    rw [hafter] at hsome
    cases hsome

/-- Nothing but `finishShutdown` makes the model go away. -/
theorem Intact.finishCalled {actions : List Action} {final : Deployment} (h : s.Intact)
    (hrun : Machine.run (Deployment.step openssl send) s actions = some final)
    (hbefore : s.object.isSome = true) (hafter : final.object = none) : s.FinishCalled actions := by
  induction actions generalizing s with
  | nil =>
      cases hrun
      rw [hafter] at hbefore
      cases hbefore
  | cons action rest ih =>
      obtain ⟨next, hnext, hrest⟩ := Option.bind_eq_some_iff.mp hrun
      have hstep := step_cases hnext
      cases hobject : next.object with
      | none => exact .inl (shuttingDown_of_dropped hstep hbefore hobject)
      | some model => exact .of_step hstep (ih (h.step hstep) hrest (by rw [hobject]; rfl))

/-- `ObjectModel::resolve` on the model of the server. -/
def resolve (s : Deployment) (path : Bytes) : Option (Resource TypeCodec) :=
  s.object.bind (·.resolve path)

/-- A `finishShutdown` of this run has stopped the listener for good and has dropped the
model. -/
def Dropped (s : Deployment) (actions : List Action) (final : Deployment) : Prop :=
  s.FinishCalled actions ∧ final.object = none ∧ final.impl.Settled

/-- What publication promises in a reachable state. A call is looked at from the point
at which it has the lock, for as long as it keeps it. -/
structure PublicationSafe (openssl : Bool) (send : Nat → Bool) (s : Deployment) : Prop where
  present : s.checkpoint.running = true → s.object.isSome = true
  owned : s.holder = none → s.connected = s.published
  refused : ∀ c component message actions final,
    s.publishers c = .publish component .guard →
      Machine.Along (step openssl send) (Keeps openssl send c) s actions →
        Machine.run (step openssl send) s actions = some final →
          final.publishers c = .publish component (.returning (.error message)) →
            s.Unchanged final
  returned : ∀ c component actions final,
    s.publishers c = .publish component .guard →
      Machine.Along (step openssl send) (Keeps openssl send c) s actions →
        Machine.run (step openssl send) s actions = some final →
          final.publishers c = .publish component (.returning (.ok ())) →
            final.Contains component ∧ (s.Unchanged final ∨ s.Entered component final)
  repeated : ∀ c component model failure actions final,
    s.publishers c = .publish component .guard → s.checkpoint.running = true →
      s.object = some model → model.contains component.context.address = true →
        Machine.Along (step openssl send) (Keeps openssl send c) s
          (.publisher c failure :: actions) →
        Machine.run (step openssl send) s (.publisher c failure :: actions) = some final →
          final.publishers c = .publish component (.returning (.ok ())) ∧ s.Unchanged final
  appended : ∀ model actions final, s.object = some model →
    Machine.run (step openssl send) s actions = some final →
      (∃ later, final.object = some later ∧
        ∀ entry ∈ model.publications, entry ∈ later.publications) ∨ s.Dropped actions final
  stable : ∀ path resource actions final, path ≠ Route.root → s.resolve path = some resource →
    Machine.run (step openssl send) s actions = some final →
      final.resolve path = some resource ∨ s.Dropped actions final
  rechecked : ∀ request found outcome, .resolved request found outcome ∈ s.visits →
    Rechecks request found outcome
  answered : ∀ request found exit, .resolved request found (.error exit) ∈ s.visits →
    ∀ library, ∀ status ∈ [404, 405, 415], (caught library request exit).status ≠ some status

/-- A running server has its model. -/
theorem Intact.present (h : s.Intact) (hrunning : s.checkpoint.running = true) :
    s.object.isSome = true := by
  simp only [checkpoint, Checkpoint.running, Bool.and_eq_true, beq_iff_eq] at hrunning
  obtain ⟨-, -, -, hmodel, -⟩ := h.lifecycle.running hrunning.1
  exact h.object.trans hmodel

theorem Intact.appended {model : ObjectModel TypeCodec} {actions : List Action}
    {final : Deployment} (h : s.Intact) (hobject : s.object = some model)
    (hrun : Machine.run (Deployment.step openssl send) s actions = some final) :
    (∃ later, final.object = some later ∧ later.Sound ∧ model.Grows later) ∨
      s.Dropped actions final := by
  rcases h.continues hobject hrun with ⟨later, hlater, hgrew⟩ | ⟨hnone, hsettled⟩
  · exact .inl ⟨later, hlater, ((h.of_run hrun).grown later hlater).sound,
      hgrew.grows (h.grown model hobject)⟩
  · exact .inr ⟨h.finishCalled hrun (by rw [hobject]; rfl) hnone, hnone, hsettled⟩

/-- What a component route resolves to, it resolves to ever after. -/
theorem Intact.stable {path : Bytes} {resource : Resource TypeCodec} {actions : List Action}
    {final : Deployment} (h : s.Intact) (hpath : path ≠ Route.root)
    (hresolve : s.resolve path = some resource)
    (hrun : Machine.run (Deployment.step openssl send) s actions = some final) :
    final.resolve path = some resource ∨ s.Dropped actions final := by
  obtain ⟨model, hmodel, hfound⟩ := Option.bind_eq_some_iff.mp hresolve
  rcases h.appended hmodel hrun with ⟨later, hlater, hsound, hgrows⟩ | hdropped
  · left
    rw [resolve, hlater]
    exact hgrows.resolve (h.grown model hmodel).sound hsound hpath hfound
  · exact .inr hdropped

end Deployment

/-- The checks of `handle` are not where such a request meets with 404, 405 or 415. -/
theorem Rechecks.status {request : Request} {found : Resource TypeCodec} {exit : Exit}
    (h : Rechecks request found (.error exit)) (library : Library) {status : Nat}
    (h500 : status ≠ 500) (h503 : status ≠ 503) :
    (caught library request exit).status ≠ some status := by
  generalize houtcome : (.error exit : Except Exit (Resource TypeCodec)) = outcome at h
  cases h with
  | same | listing => cases houtcome
  | unavailable other =>
      cases houtcome
      rcases refusal_cases other request 503 none {} with
        ⟨thrown, response, hthrew⟩ | ⟨response, hreturned, hstatus⟩
      · rw [hthrew]
        exact status_caught_threw h500 thrown response
      · rw [hreturned]
        rcases hstatus with hstatus | hstatus <;>
          simp [caught, Exit.status, hstatus, h500.symm, h503.symm]
  | threw thrown =>
      cases houtcome
      exact status_caught_threw h500 thrown {}

namespace Deployment

/-- In every interleaving of publishers, requests and the lifecycle, publication is
append-only and atomic. -/
theorem publication_atomic [PortReader TypeCodec] (openssl : Bool) (send : Nat → Bool)
    (actions : List Action) (s : Deployment)
    (hrun : Machine.run (step openssl send) initial actions = some s) :
    s.PublicationSafe openssl send := by
  have h := intact_initial.of_run hrun
  refine {
    present := h.present
    owned := fun hholder => ?_
    refused := fun c component message actions final hpc hkept hrun hreturning =>
      ((course_of_guard h hpc).run hkept hrun).refused hreturning
    returned := fun c component actions final hpc hkept hrun hreturning =>
      ((course_of_guard h hpc).run hkept hrun).returned hreturning
    repeated := fun c component model failure actions final hpc hrunning hobject hcontains =>
      repeated_of_contains h hpc hrunning hobject hcontains
    appended := fun model actions final hobject hrun => ?_
    stable := fun path resource actions final => h.stable
    rechecked := fun request found outcome hvisit => h.visits _ hvisit
    answered := fun request found exit hvisit library status hstatus => ?_ }
  · rw [h.ledger, held, hholder]
    exact zero_add _
  · rcases h.appended hobject hrun with ⟨later, hlater, -, hgrows⟩ | hdropped
    · exact .inl ⟨later, hlater, hgrows.publications⟩
    · exact .inr hdropped
  · have hrechecks : Rechecks request found (.error exit) := h.visits _ hvisit
    apply hrechecks.status library
    · rintro rfl
      simp at hstatus
    · rintro rfl
      simp at hstatus

section Example

/-- The model of flags, as `start` makes it. -/
def freshFlags : FreshModel := ⟨flagModel, flagModel_created⟩

/-- A caller starts the server, which comes up. -/
def openingRun : List Action := (List.flatten
  [[.call 0 (.start {})], List.replicate 10 (.caller 0 none),
    [.run 0 .bind, .run 0 .publishListener, .run 0 .watched, .run 0 .startHandler,
      .caller 0 none, .caller 0 none]]).map (.impl · freshFlags)

/-- A request for the listing of all components is let through, and then the valve is
published. -/
def valveRun : List Action := List.flatten
  [openingRun, [.arrive 0 (jsonRequest "GET" "/api/v1/components" "")],
    List.replicate 2 (.visit 0 (parsedLibrary .null)),
    [.publish 0 valve], List.replicate 6 (.publisher 0 none)]

/-- The request is handled. -/
def listingRun : List Action := valveRun ++ List.replicate 3 (.visit 0 (parsedLibrary .null))

/-- The request is handled while memory is short. -/
def shortRun : List Action := valveRun ++ List.replicate 2
  (.visit 0 { parsedLibrary .null with throws := fun _ => some .badAlloc })

/-- The numbers of components that the first request found listed, and finds now. -/
def listed (s : Deployment) : Option (Option Nat × Option Nat) :=
  match s.visits with
  | .resolved _ found (.ok resource) :: _ =>
      some (found.items?.map List.length, resource.items?.map List.length)
  | _ => none

/-- The exception that the first request ended in. -/
def thrown (s : Deployment) : Option Http.Thrown :=
  match s.visits with
  | .resolved _ _ (.error (.threw thrown _)) :: _ => some thrown
  | _ => none

/-- A request that was let through is neither resolved to the same resource nor refused
when it gets a listing of its own, or an exception is thrown. -/
theorem recheck_not_same :
    (∃ s request found resource,
      Machine.run (step true fun _ => false) initial listingRun = some s ∧
        .resolved request found (.ok resource) ∈ s.visits ∧ resource ≠ found) ∧
      ∃ s request found thrown response,
        Machine.run (step true fun _ => false) initial shortRun = some s ∧
          .resolved request found (.error (.threw thrown response)) ∈ s.visits := by
  constructor
  · have hshape : (Machine.run (step true fun _ => false) initial listingRun).bind listed =
        some (some 0, some 1) := by decide +kernel
    obtain ⟨s, hrun, hlisted⟩ := Option.bind_eq_some_iff.mp hshape
    unfold listed at hlisted
    split at hlisted
    next request found resource rest hvisits =>
      refine ⟨s, request, found, resource, hrun, by simp [hvisits], fun hsame => ?_⟩
      rw [hsame] at hlisted
      simp only [Option.some.injEq, Prod.mk.injEq] at hlisted
      rw [hlisted.1] at hlisted
      cases hlisted.2
    next => cases hlisted
  · have hshape : (Machine.run (step true fun _ => false) initial shortRun).bind thrown =
        some .badAlloc := by decide +kernel
    obtain ⟨s, hrun, hthrown⟩ := Option.bind_eq_some_iff.mp hshape
    unfold thrown at hthrown
    split at hthrown
    next request found exception response rest hvisits =>
      exact ⟨s, request, found, exception, response, hrun, by simp [hvisits]⟩
    next => cases hthrown

/-- Another component with the name of the valve, behind it. -/
def impostorRun : List Action :=
  listingRun ++ .publish 1 { valve with context := { valve.context with address := 2 } } ::
    List.replicate 8 (.publisher 1 none)

/-- The other component is refused, and the connection of the valve is the only one. -/
theorem publication_atomic_impostor :
    ∃ s, Machine.run (step true fun _ => false) initial impostorRun = some s ∧
      s.connected.card = 1 ∧ (∃ component message,
        s.publishers 1 = .published component (.error message)) ∧
      s.PublicationSafe true fun _ => false := by
  have hshape : (Machine.run (step true fun _ => false) initial impostorRun).map (fun s =>
      (s.connected.card, match s.publishers 1 with
        | .published _ (.error message) => some message
        | _ => none)) =
      some (1, some "another RTT component instance has this published name") := by
    decide +kernel
  obtain ⟨s, hrun, hshape⟩ := Option.map_eq_some_iff.mp hshape
  obtain ⟨hconnected, hpublisher⟩ := Prod.mk.inj hshape
  split at hpublisher
  next component message hpublished =>
    exact ⟨s, hrun, hconnected, ⟨component, message, hpublished⟩,
      publication_atomic true _ impostorRun s hrun⟩
  next => cases hpublisher

end Example

end Deployment

end RttHttp.Server
