import RttHttp.Model.Bridges
import RttHttp.Model.Growth
import RttHttp.Server.Handle
import Mathlib.Algebra.Order.BigOperators.Group.Multiset

/-! # Publication as an interleaved machine

The lifecycle machine is extended by what its model holds, by any number of threads
that call `Server::publishComponent`, and by the requests that the listener serves,
as far as these look anything up. A publishing thread holds `Impl::control` from its
first step to its last, but takes `Impl::mutex` only for its two checks of the state;
in between it connects ports, and an exception may leave it at any point.

`NetworkPool::shutdown` joins the threads that serve requests, so a listener does
not return before its requests have been looked up for the last time.
-/

namespace RttHttp.Server

open Codec (TypeCodec)
open Http (Library Request)
open Model (Component ObjectModel PortBridge PortReader Publication Resource)
open Route (canonicalRequestPath)

/-- The text that the handlers of `publishComponent` leave in `*error`. -/
def Failure.message : Failure → String
  | .exception what => what
  | .other => "HTTP publication failed"

/-- Program points of `Server::publishComponent`. While the component is staged,
`pending` are the connections still to be made and `outcome` is how staging ends if
nothing else is thrown; `held` are the connections that the locals own. -/
inductive Publishing where
  | control
  | guard
  | staging (pending held : List PortBridge) (outcome : Except String (Publication TypeCodec))
  | commit (held : List PortBridge) (publication : Publication TypeCodec)
  | unwinding (held : List PortBridge) (result : Result)
  | returning (result : Result)

/-- What a thread that publishes is executing. -/
inductive Publisher where
  | idle
  | publish (component : Component) (point : Publishing)
  | published (component : Component) (result : Result)

/-- The connections that the locals of a publisher own. -/
def Publisher.held : Publisher → Multiset PortBridge
  | .publish _ point => match point with
    | .staging _ held _ | .commit held _ | .unwinding held _ => ↑held
    | _ => 0
  | _ => 0

/-- Points between locking and unlocking `Impl::control`. -/
def Publisher.holdsControl : Publisher → Bool
  | .publish _ point => match point with
    | .control => false
    | _ => true
  | _ => false

/-- Program points of one request, served by network thread `k`, up to the last of
its lookups. `found` is the resource that the pre-routing handler has found. -/
inductive Visit where
  | routing (k : Nat) (request : Request)
  | looking (k : Nat) (request : Request) (checkpoint : Checkpoint)
  | answered
  | accepted (k : Nat) (request : Request) (found : Resource TypeCodec)
  | rechecking (k : Nat) (request : Request) (found : Resource TypeCodec) (checkpoint : Checkpoint)
  | rechecked (k : Nat) (request : Request) (found : Resource TypeCodec)
  | resolved (request : Request) (found : Resource TypeCodec)
      (outcome : Except Exit (Resource TypeCodec))

/-- The network thread that the request keeps busy. -/
def Visit.thread : Visit → Option Nat
  | .routing k _ | .looking k _ _ | .accepted k _ _ | .rechecking k _ _ _ | .rechecked k _ _ => some k
  | .answered | .resolved _ _ _ => none

/-- The server with the contents of its model, the connections that are made and not
yet undone, the publisher that holds `control`, and all threads. -/
structure Deployment where
  impl : Impl
  object : Option (ObjectModel TypeCodec)
  connected : Multiset PortBridge
  holder : Option Nat
  publishers : Nat → Publisher
  visits : List Visit

/-- A model as `start` makes it. -/
abbrev FreshModel := { model : ObjectModel TypeCodec // model.Created }

/-- Steps of the lifecycle carry the model that `start` makes, if it makes one. -/
inductive Deployment.Action where
  | impl (action : Server.Action) (fresh : FreshModel)
  | publish (c : Nat) (component : Component)
  | publisher (c : Nat) (failure : Option Failure)
  | arrive (k : Nat) (request : Request)
  | visit (i : Nat) (library : Library)

/-- The step locks `Impl::control`. -/
def Impl.locks (s : Impl) : Action → Bool
  | .caller c _ => match s.callers c with
    | .start _ .control | .stop _ .control | .finish .control => true
    | _ => false
  | _ => false

/-- The step is the return of `listen_after_bind` on thread `k`, or an exception
on that thread. -/
def leaves (k : Nat) : Action → Bool
  | .run j (.listened _) | .run j (.failed _) => j == k
  | _ => false

namespace Deployment

def initial : Deployment where
  impl := .initial
  object := none
  connected := 0
  holder := none
  publishers := fun _ => .idle
  visits := []

@[simp] def setPublisher (s : Deployment) (c : Nat) (publisher : Publisher) : Deployment :=
  { s with publishers := Function.update s.publishers c publisher }

@[simp] def setVisit (s : Deployment) (i : Nat) (visit : Visit) : Deployment :=
  { s with visits := s.visits.set i visit }

/-- The connections that the publications own. -/
def published (s : Deployment) : Multiset PortBridge :=
  match s.object with
  | none => 0
  | some model => (model.publications.map (·.2.bridges)).sum

/-- `state` and `finalShutdown`, read under `Impl::mutex`. -/
def checkpoint (s : Deployment) : Checkpoint := ⟨s.impl.state, s.impl.finalShutdown⟩

/-- A step of the lifecycle. It waits for a publisher that holds `control`, and for
the requests of a listener that returns. Destroying the model destroys the
publications, whose bridges disconnect. -/
def implStep (openssl : Bool) (send : Nat → Bool) (s : Deployment) (action : Server.Action)
    (fresh : FreshModel) : Option Deployment :=
  if s.holder.isSome && s.impl.locks action ||
      s.visits.any (fun visit => visit.thread.any (leaves · action)) then none
  else (s.impl.step openssl send action).map fun impl =>
    match s.impl.model, impl.model with
    | none, some _ => { s with impl := impl, object := some fresh.1 }
    | some _, none =>
        { s with impl := impl, object := none, connected := s.connected - s.published }
    | _, _ => { s with impl := impl }

/-- `Server::publishComponent`. -/
def publisherStep [PortReader TypeCodec] (s : Deployment) (c : Nat) (component : Component)
    (point : Publishing) (failure : Option Failure) : Option Deployment :=
  let next := fun point => s.setPublisher c (.publish component point)
  match point, failure with
  | .control, none =>
      if s.impl.control = none ∧ s.holder = none then
        some ({ s with holder := some c }.setPublisher c (.publish component .guard))
      else none
  | .guard, none =>
      if !s.checkpoint.running then
        some (next (.returning (.error "HTTP publication requires a running service")))
      else s.object.map fun model =>
        if model.contains component.context.address then next (.returning (.ok ()))
        else next (.staging (model.stageBridges component.services component.context) []
          (model.stage component.services component.context))
  | .staging (bridge :: pending) held outcome, none =>
      some ({ s with connected := bridge ::ₘ s.connected }.setPublisher c
        (.publish component (.staging pending (bridge :: held) outcome)))
  | .staging [] held (.error message), none => some (next (.unwinding held (.error message)))
  | .staging [] held (.ok publication), none => some (next (.commit held publication))
  | .staging _ held _, some failure => some (next (.unwinding held (.error failure.message)))
  | .commit held publication, none =>
      if !s.checkpoint.running then
        some (next (.unwinding held (.error "HTTP stopped during publication")))
      else s.object.map fun model =>
        match model.commit component.context.name publication with
        | .error message => next (.unwinding held (.error message))
        | .ok committed =>
            -- `emplace` leaves the publication to its caller when the name is taken.
            if (model.publications.lookup component.context.name).isSome then
              next (.unwinding held (.ok ()))
            else
              { s with object := some committed }.setPublisher c
                (.publish component (.returning (.ok ())))
  | .commit held _, some failure => some (next (.unwinding held (.error failure.message)))
  -- PortBridge::~PortBridge
  | .unwinding (bridge :: held) result, none =>
      some ({ s with connected := s.connected.erase bridge }.setPublisher c
        (.publish component (.unwinding held result)))
  | .unwinding [] result, none => some (next (.returning result))
  | .returning result, none =>
      some ({ s with holder := none }.setPublisher c (.published component result))
  | _, some _ => none

/-- The second lookup of `Impl::handle`, behind its preflight. -/
def relookup (library : Library) (request : Request) (model : ObjectModel TypeCodec) :
    Except Exit (Resource TypeCodec) := do
  attempt library .lookup
  match (canonicalRequestPath request.target).bind model.resolve with
  | none => refuse library request 404 none {}
  | some resource => .ok resource

/-- One section of a request: the pre-routing handler and then `Impl::handle`, each of
which reads the state under `Impl::mutex` and looks into the model afterwards. -/
def visitStep (s : Deployment) (i : Nat) (library : Library) : Visit → Option Deployment
  | .routing k request => some (s.setVisit i (.looking k request s.checkpoint))
  | .looking k request checkpoint => s.object.bind fun model =>
      match preflight library s.impl.options request checkpoint model with
      | .error _ => some (s.setVisit i .answered)
      | .ok () => ((canonicalRequestPath request.target).bind model.resolve).map fun found =>
          s.setVisit i (.accepted k request found)
  | .accepted k request found => some (s.setVisit i (.rechecking k request found s.checkpoint))
  | .rechecking k request found checkpoint => s.object.map fun model =>
      match preflight library s.impl.options request checkpoint model with
      | .error exit => s.setVisit i (.resolved request found (.error exit))
      | .ok () => s.setVisit i (.rechecked k request found)
  | .rechecked _ request found => s.object.map fun model =>
      s.setVisit i (.resolved request found (relookup library request model))
  | .answered | .resolved _ _ _ => none

def step [PortReader TypeCodec] (openssl : Bool) (send : Nat → Bool) (s : Deployment) :
    Action → Option Deployment
  | .impl action fresh => s.implStep openssl send action fresh
  | .publish c component =>
      match s.publishers c with
      | .publish _ _ => none
      | _ => some (s.setPublisher c (.publish component .control))
  | .publisher c failure =>
      match s.publishers c with
      | .publish component point => s.publisherStep c component point failure
      | _ => none
  | .arrive k request =>
      if s.impl.runs k = .listen then some { s with visits := s.visits ++ [.routing k request] }
      else none
  | .visit i library => s.visits[i]?.bind (s.visitStep i library)

/-! ## The branches of a step -/

section Branches

variable {openssl : Bool} {send : Nat → Bool} {s next : Deployment}

/-- What a step of the lifecycle does to the model. -/
inductive ImplStep (s : Deployment) (impl : Impl) : Deployment → Prop
  | create {model : ObjectModel TypeCodec} (hbefore : s.impl.model = none)
      (hafter : impl.model.isSome = true) (hcreated : model.Created) :
      ImplStep s impl { s with impl := impl, object := some model }
  | destroy (hbefore : s.impl.model.isSome = true) (hafter : impl.model = none) :
      ImplStep s impl
        { s with impl := impl, object := none, connected := s.connected - s.published }
  | keep (hmodel : impl.model.isSome = s.impl.model.isSome) : ImplStep s impl { s with impl := impl }

theorem implStep_cases {action : Server.Action} {fresh : FreshModel}
    (hstep : s.implStep openssl send action fresh = some next) :
    ∃ impl, s.impl.step openssl send action = some impl ∧
      (s.holder ≠ none → s.impl.locks action = false) ∧
      (∀ visit ∈ s.visits, ∀ k, visit.thread = some k → leaves k action = false) ∧
      ImplStep s impl next := by
  unfold implStep at hstep
  split at hstep
  next => cases hstep
  next hguard =>
    obtain ⟨impl, himpl, hnext⟩ := Option.map_eq_some_iff.mp hstep
    simp only [Bool.or_eq_true, Bool.and_eq_true, Option.isSome_iff_ne_none, List.any_eq_true,
      not_or, not_and, not_exists, Bool.not_eq_true] at hguard
    obtain ⟨hlocks, hleaves⟩ := hguard
    refine ⟨impl, himpl, hlocks, fun visit hvisit k hk => ?_, ?_⟩
    · have hfree := hleaves visit hvisit
      rw [hk] at hfree
      simpa using hfree
    · split at hnext
      next hbefore hafter =>
        subst hnext
        exact .create hbefore (by simp [hafter]) fresh.2
      next hbefore hafter =>
        subst hnext
        exact .destroy (by simp [hbefore]) hafter
      next hcreate hdestroy =>
        subst hnext
        refine .keep ?_
        cases hbefore : s.impl.model with
        | none =>
            cases hafter : impl.model with
            | none => rfl
            | some ref => exact absurd hafter (hcreate ref hbefore)
        | some old =>
            cases hafter : impl.model with
            | none => exact absurd hafter (hdestroy old hbefore)
            | some ref => rfl

/-- The branches of `publisherStep`. -/
inductive PublishStep [PortReader TypeCodec] (s : Deployment) (c : Nat) (component : Component) :
    Publishing → Deployment → Prop
  | control (hfree : s.impl.control = none) (hholder : s.holder = none) :
      PublishStep s c component .control
        ({ s with holder := some c }.setPublisher c (.publish component .guard))
  | stopped {message : String} (hstopped : s.checkpoint.running = false) :
      PublishStep s c component .guard
        (s.setPublisher c (.publish component (.returning (.error message))))
  | present {model : ObjectModel TypeCodec} (hrunning : s.checkpoint.running = true)
      (hobject : s.object = some model)
      (hcontains : model.contains component.context.address = true) :
      PublishStep s c component .guard (s.setPublisher c (.publish component (.returning (.ok ()))))
  | stage {model : ObjectModel TypeCodec} (hrunning : s.checkpoint.running = true)
      (hobject : s.object = some model)
      (hcontains : model.contains component.context.address = false) :
      PublishStep s c component .guard (s.setPublisher c (.publish component
        (.staging (model.stageBridges component.services component.context) []
          (model.stage component.services component.context))))
  | connect {bridge : PortBridge} {pending held : List PortBridge}
      {outcome : Except String (Publication TypeCodec)} :
      PublishStep s c component (.staging (bridge :: pending) held outcome)
        ({ s with connected := bridge ::ₘ s.connected }.setPublisher c
          (.publish component (.staging pending (bridge :: held) outcome)))
  | staged {held : List PortBridge} {publication : Publication TypeCodec} :
      PublishStep s c component (.staging [] held (.ok publication))
        (s.setPublisher c (.publish component (.commit held publication)))
  | abandon {point : Publishing} {held : List PortBridge} {message : String}
      (hpoint : (∃ pending outcome, point = .staging pending held outcome) ∨
        ∃ publication, point = .commit held publication) :
      PublishStep s c component point
        (s.setPublisher c (.publish component (.unwinding held (.error message))))
  | taken {model committed : ObjectModel TypeCodec} {held : List PortBridge}
      {publication : Publication TypeCodec} (hrunning : s.checkpoint.running = true)
      (hobject : s.object = some model)
      (hcommit : model.commit component.context.name publication = .ok committed)
      (htaken : (model.publications.lookup component.context.name).isSome = true) :
      PublishStep s c component (.commit held publication)
        (s.setPublisher c (.publish component (.unwinding held (.ok ()))))
  | commit {model committed : ObjectModel TypeCodec} {held : List PortBridge}
      {publication : Publication TypeCodec} (hrunning : s.checkpoint.running = true)
      (hobject : s.object = some model)
      (hcommit : model.commit component.context.name publication = .ok committed)
      (hfree : model.publications.lookup component.context.name = none) :
      PublishStep s c component (.commit held publication)
        ({ s with object := some committed }.setPublisher c
          (.publish component (.returning (.ok ()))))
  | disconnect {bridge : PortBridge} {held : List PortBridge} {result : Result} :
      PublishStep s c component (.unwinding (bridge :: held) result)
        ({ s with connected := s.connected.erase bridge }.setPublisher c
          (.publish component (.unwinding held result)))
  | unwound {result : Result} :
      PublishStep s c component (.unwinding [] result)
        (s.setPublisher c (.publish component (.returning result)))
  | returning {result : Result} :
      PublishStep s c component (.returning result)
        ({ s with holder := none }.setPublisher c (.published component result))

theorem publisherStep_cases [PortReader TypeCodec] {c : Nat} {component : Component}
    {point : Publishing} {failure : Option Failure}
    (hstep : s.publisherStep c component point failure = some next) :
    PublishStep s c component point next := by
  revert hstep
  fun_cases publisherStep s c component point failure <;>
    simp only [Option.some.injEq, reduceCtorEq, false_implies, Option.map_eq_some_iff]
  case case1 hfree =>
    rintro rfl
    exact .control hfree.1 hfree.2
  case case3 hstopped =>
    rintro rfl
    exact .stopped (by simpa using hstopped)
  case case4 hrunning =>
    rintro ⟨model, hobject, hnext⟩
    replace hrunning : s.checkpoint.running = true := by simpa using hrunning
    split at hnext
    next hcontains =>
      subst hnext
      exact .present hrunning hobject hcontains
    next hcontains =>
      subst hnext
      exact .stage hrunning hobject (by simpa using hcontains)
  case case5 =>
    rintro rfl
    exact .connect
  case case6 =>
    rintro rfl
    exact .abandon (.inl ⟨_, _, rfl⟩)
  case case7 =>
    rintro rfl
    exact .staged
  case case8 =>
    rintro rfl
    exact .abandon (.inl ⟨_, _, rfl⟩)
  case case9 =>
    rintro rfl
    exact .abandon (.inr ⟨_, rfl⟩)
  case case10 hrunning =>
    rintro ⟨model, hobject, hnext⟩
    replace hrunning : s.checkpoint.running = true := by simpa using hrunning
    split at hnext
    next =>
      subst hnext
      exact .abandon (.inr ⟨_, rfl⟩)
    next committed hcommit =>
      split at hnext
      next htaken =>
        subst hnext
        exact .taken hrunning hobject hcommit htaken
      next hfree =>
        subst hnext
        exact .commit hrunning hobject hcommit (Option.not_isSome_iff_eq_none.mp hfree)
  case case11 =>
    rintro rfl
    exact .abandon (.inr ⟨_, rfl⟩)
  case case12 =>
    rintro rfl
    exact .disconnect
  case case13 =>
    rintro rfl
    exact .unwound
  case case14 =>
    rintro rfl
    exact .returning

/-- The branches of `visitStep`. -/
inductive VisitStep (s : Deployment) (i : Nat) : Visit → Deployment → Prop
  | route {k : Nat} {request : Request} :
      VisitStep s i (.routing k request) (s.setVisit i (.looking k request s.checkpoint))
  | decline {k : Nat} {request : Request} {checkpoint : Checkpoint} :
      VisitStep s i (.looking k request checkpoint) (s.setVisit i .answered)
  | accept {k : Nat} {request : Request} {checkpoint : Checkpoint} {library : Library}
      {model : ObjectModel TypeCodec} {found : Resource TypeCodec} (hobject : s.object = some model)
      (hpreflight : preflight library s.impl.options request checkpoint model = .ok ())
      (hfound : (canonicalRequestPath request.target).bind model.resolve = some found) :
      VisitStep s i (.looking k request checkpoint) (s.setVisit i (.accepted k request found))
  | handle {k : Nat} {request : Request} {found : Resource TypeCodec} :
      VisitStep s i (.accepted k request found)
        (s.setVisit i (.rechecking k request found s.checkpoint))
  | refuse {k : Nat} {request : Request} {found : Resource TypeCodec} {checkpoint : Checkpoint}
      {library : Library} {model : ObjectModel TypeCodec} {exit : Exit}
      (hobject : s.object = some model)
      (hpreflight : preflight library s.impl.options request checkpoint model = .error exit) :
      VisitStep s i (.rechecking k request found checkpoint)
        (s.setVisit i (.resolved request found (.error exit)))
  | pass {k : Nat} {request : Request} {found : Resource TypeCodec} {checkpoint : Checkpoint} :
      VisitStep s i (.rechecking k request found checkpoint)
        (s.setVisit i (.rechecked k request found))
  | resolve {k : Nat} {request : Request} {found : Resource TypeCodec} {library : Library}
      {model : ObjectModel TypeCodec} (hobject : s.object = some model) :
      VisitStep s i (.rechecked k request found)
        (s.setVisit i (.resolved request found (relookup library request model)))

theorem visitStep_cases {i : Nat} {library : Library} {visit : Visit}
    (hstep : s.visitStep i library visit = some next) : VisitStep s i visit next := by
  cases visit with
  | routing k request =>
      cases hstep
      exact .route
  | looking k request checkpoint =>
      obtain ⟨model, hobject, hstep⟩ := Option.bind_eq_some_iff.mp hstep
      split at hstep
      next =>
        cases hstep
        exact .decline
      next hpreflight =>
        obtain ⟨found, hfound, rfl⟩ := Option.map_eq_some_iff.mp hstep
        exact .accept hobject hpreflight hfound
  | accepted k request found =>
      cases hstep
      exact .handle
  | rechecking k request found checkpoint =>
      obtain ⟨model, hobject, hnext⟩ := Option.map_eq_some_iff.mp hstep
      split at hnext
      next exit hpreflight =>
        subst hnext
        exact .refuse hobject hpreflight
      next =>
        subst hnext
        exact .pass
  | rechecked k request found =>
      obtain ⟨model, hobject, rfl⟩ := Option.map_eq_some_iff.mp hstep
      exact .resolve hobject
  | answered => cases hstep
  | resolved request found outcome => cases hstep

/-- Every step of the whole machine. -/
inductive Step [PortReader TypeCodec] (openssl : Bool) (send : Nat → Bool) (s : Deployment) :
    Action → Deployment → Prop
  | impl {action : Server.Action} {fresh : FreshModel} {impl : Impl} {next : Deployment}
      (himpl : s.impl.step openssl send action = some impl)
      (hlocks : s.holder ≠ none → s.impl.locks action = false)
      (hleaves : ∀ visit ∈ s.visits, ∀ k, visit.thread = some k → leaves k action = false)
      (hnext : ImplStep s impl next) : Step openssl send s (.impl action fresh) next
  | publish {c : Nat} {component : Component}
      (hpc : (s.publishers c).holdsControl = false) :
      Step openssl send s (.publish c component) (s.setPublisher c (.publish component .control))
  | publisher {c : Nat} {component : Component} {point : Publishing} {failure : Option Failure}
      {next : Deployment} (hpc : s.publishers c = .publish component point)
      (hstep : PublishStep s c component point next) :
      Step openssl send s (.publisher c failure) next
  | arrive {k : Nat} {request : Request} (hlisten : s.impl.runs k = .listen) :
      Step openssl send s (.arrive k request) { s with visits := s.visits ++ [.routing k request] }
  | visit {i : Nat} {library : Library} {visit : Visit} {next : Deployment}
      (hvisit : visit ∈ s.visits) (hstep : VisitStep s i visit next) :
      Step openssl send s (.visit i library) next

theorem step_cases [PortReader TypeCodec] {action : Action}
    (hstep : s.step openssl send action = some next) : Step openssl send s action next := by
  cases action with
  | impl action fresh =>
      obtain ⟨impl, himpl, hlocks, hleaves, hnext⟩ := implStep_cases hstep
      exact .impl himpl hlocks hleaves hnext
  | publish c component =>
      simp only [step] at hstep
      split at hstep
      next => cases hstep
      next hpc =>
        cases hstep
        refine .publish ?_
        cases hpublisher : s.publishers c with
        | idle => rfl
        | published component result => rfl
        | publish component point => exact absurd hpublisher (hpc component point)
  | publisher c failure =>
      simp only [step] at hstep
      split at hstep
      next component point hpc => exact .publisher hpc (publisherStep_cases hstep)
      next => cases hstep
  | arrive k request =>
      simp only [step, Option.ite_none_right_eq_some, Option.some.injEq] at hstep
      obtain ⟨hlisten, rfl⟩ := hstep
      exact .arrive hlisten
  | visit i library =>
      obtain ⟨visit, hvisit, hstep⟩ := Option.bind_eq_some_iff.mp hstep
      exact .visit (List.mem_of_getElem? hvisit) (visitStep_cases hstep)

end Branches

end Deployment

end RttHttp.Server
