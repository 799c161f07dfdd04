import RttHttp.Model.Unfold
import Mathlib.Algebra.Order.Group.Multiset

/-! # The connections of a staging

Staging connects a port of its own to every port that it describes, before it is
clear that the publication comes about. The connections are listed here beside the
description, in the order in which they are made and up to the point at which the
description throws. When it does not throw, they are those that the publication owns.
-/

namespace RttHttp.Model

open Route (slash childPath)

variable {Codec : Type}

/-- The connections that a publication owns: those behind its routes, and the
observers. -/
def Publication.bridges (publication : Publication Codec) : Multiset PortBridge :=
  ↑(publication.routes.filterMap (·.2.bridge)) + ↑publication.observers

/-- The connections of a loop: those of every round up to the first that throws. -/
def loopBridges {σ ι : Type} (f : σ → ι → Except String σ) (bridges : σ → ι → List PortBridge) :
    σ → List ι → List PortBridge
  | _, [] => []
  | state, x :: rest =>
      bridges state x ++ match f state x with
        | .ok next => loopBridges f bridges next rest
        | .error _ => []

/-- The connection to one port. Entering it among the routes may still throw. -/
def portBridges (service : Service) (path memberName : Bytes) : List PortBridge :=
  match childPath (path ++ slash :: bytes "ports") memberName, service.getPort memberName with
  | .ok base, some port =>
      if port.output ≠ port.input ∧ (summary memberName port.description base).isOk ∧
          port.connects then [⟨port⟩]
      else []
  | _, _ => []

/-- The connections below one child service, which `bridges` lists. -/
def childBridges (bridges : ObjectModel.Staging Codec → Option Nat → Bytes → Bytes → List PortBridge)
    (service : Service) (path : Bytes) (listing : Listing Codec) (childName : Bytes) :
    List PortBridge :=
  if childName = bytes "this" then []
  else match childPath (path ++ slash :: bytes "services") childName with
    | .ok href =>
        bridges ⟨listing.publication, listing.ancestry⟩ (service.getService childName) childName href
    | .error _ => []

/-- The connections of one member. -/
def memberBridges (bridges : ObjectModel.Staging Codec → Option Nat → Bytes → Bytes → List PortBridge)
    (service : Service) (path : Bytes) : Category → Listing Codec → Bytes → List PortBridge
  | .services => childBridges bridges service path
  | .ports => fun _ => portBridges service path
  | .properties | .attributes | .operations => fun _ _ => []

namespace ObjectModel

variable [PortReader Codec] (model : ObjectModel Codec) (services : Nat → Service)

/-- The connections of one category. -/
def categoryBridges
    (describe : Staging Codec → Option Nat → Bytes → Bytes →
      Except String (Staging Codec × JsonObject))
    (bridges : Staging Codec → Option Nat → Bytes → Bytes → List PortBridge) (id : Nat)
    (path : Bytes) (state : Staging Codec × JsonObject × List Bytes) (category : Category) :
    List PortBridge :=
  loopBridges (model.describeMember services describe id path category)
    (memberBridges bridges (services id) path category)
    { publication := state.1.publication, ancestry := state.1.ancestry }
    (memberNames (services id) category)

/-- The connections of `describeService`. -/
def serviceBridges : (fuel : Nat) → Staging Codec → Option Nat → (name path : Bytes) →
    List PortBridge
  | 0, _, _, _, _ => []
  | _ + 1, _, none, _, _ => []
  | fuel + 1, staging, some id, name, path =>
      if id ∈ staging.ancestry then []
      else match summary name (services id).doc path with
        | .error _ => []
        | .ok description =>
            loopBridges (model.describeCategory services (model.describeService services fuel) id path)
              (model.categoryBridges services (model.describeService services fuel)
                (serviceBridges fuel) id path)
              (⟨staging.publication, id :: staging.ancestry⟩, description, []) Category.all

/-- The connections of `stage`. -/
def stageBridges (component : TaskContext) : List PortBridge :=
  match childPath Route.root component.name with
  | .error _ => []
  | .ok path =>
      model.serviceBridges services 65
        ⟨{ component := component.address, service := component.provides }, []⟩ component.provides
        component.name path

end ObjectModel

/-! ## A staging that succeeds -/

theorem loopBridges_owned {σ ι : Type} {f : σ → ι → Except String σ}
    {bridges : σ → ι → List PortBridge} (owned : σ → Multiset PortBridge) {xs : List ι}
    (hround : ∀ x state next, f state x = .ok next → owned next = owned state + ↑(bridges state x))
    {state final : σ} (hfold : xs.foldlM f state = .ok final) :
    owned final = owned state + ↑(loopBridges f bridges state xs) := by
  induction xs generalizing state with
  | nil =>
      cases hfold
      simp [loopBridges]
  | cons x rest ih =>
      rw [List.foldlM_cons, bind_eq_ok] at hfold
      obtain ⟨next, hnext, hrest⟩ := hfold
      rw [ih hrest, hround x state next hnext, loopBridges, hnext]
      simp only [← Multiset.coe_add]
      exact add_assoc _ _ _

theorem insert_bridges {publication next : Publication Codec} {path : Bytes}
    {resource : Resource Codec} (h : insert publication path resource = .ok next) :
    next.bridges = publication.bridges + ↑resource.bridge.toList := by
  unfold insert at h
  split at h
  next => cases h
  next =>
    cases h
    have hroute : [(path, resource)].filterMap (·.2.bridge) = resource.bridge.toList := by
      cases hbridge : resource.bridge <;> simp [hbridge]
    simp only [Publication.bridges, List.filterMap_append, hroute, ← Multiset.coe_add]
    exact add_right_comm _ _ _

theorem Listing.insert_bridges {listing next : Listing Codec} {path : Bytes}
    {resource : Resource Codec} (h : listing.insert path resource = .ok next) :
    next.publication.bridges = listing.publication.bridges + ↑resource.bridge.toList := by
  obtain ⟨publication, hinsert, h⟩ := bind_eq_ok.mp h
  cases h
  exact Model.insert_bridges hinsert

/-- Describing a service adds the connections that are listed for it to those of the
publication. -/
def Connects (describe : ObjectModel.Staging Codec → Option Nat → Bytes → Bytes →
      Except String (ObjectModel.Staging Codec × JsonObject))
    (bridges : ObjectModel.Staging Codec → Option Nat → Bytes → Bytes → List PortBridge) : Prop :=
  ∀ staging service name path result, describe staging service name path = .ok result →
    result.1.publication.bridges =
      staging.publication.bridges + ↑(bridges staging service name path)

namespace ObjectModel

section Bridges

variable {model : ObjectModel Codec} {services : Nat → Service} {id : Nat} {path name : Bytes}
  {listing next : Listing Codec} {describe : Staging Codec → Option Nat → Bytes → Bytes →
    Except String (Staging Codec × JsonObject)}
  {bridges : Staging Codec → Option Nat → Bytes → Bytes → List PortBridge}

theorem describeValue_bridges {category : Bytes}
    {member : Bytes → Except String (Option DataSource × Bytes)}
    (h : model.describeValue category path member listing name = .ok next) :
    next.publication.bridges = listing.publication.bridges := by
  obtain ⟨href, -, h⟩ := bind_eq_ok.mp h
  obtain ⟨⟨source, doc⟩, -, h⟩ := bind_eq_ok.mp h
  cases source with
  | none => cases h
  | some source =>
      obtain ⟨metadata, -, h⟩ := bind_eq_ok.mp h
      have howned := Listing.insert_bridges h
      exact howned.trans (add_zero _)

theorem describeOperation_bridges {service : Service}
    (h : model.describeOperation id service path listing name = .ok next) :
    next.publication.bridges = listing.publication.bridges := by
  obtain ⟨href, -, h⟩ := bind_eq_ok.mp h
  cases hoperation : service.getOperation name with
  | none =>
      rw [hoperation] at h
      cases h
  | some part =>
      rw [hoperation] at h
      obtain ⟨metadata, -, h⟩ := bind_eq_ok.mp h
      obtain ⟨signature, -, h⟩ := bind_eq_ok.mp h
      have howned := Listing.insert_bridges h
      exact howned.trans (add_zero _)

/-- A port that is described is connected, with or without a route. -/
theorem describePort_bridges [PortReader Codec] {service : Service}
    (h : model.describePort service path listing name = .ok next) :
    next.publication.bridges =
      listing.publication.bridges + ↑(portBridges service path name) := by
  obtain ⟨base, hbase, h⟩ := bind_eq_ok.mp h
  unfold portBridges
  rw [hbase]
  cases hport : service.getPort name with
  | none =>
      rw [hport] at h
      cases h
  | some port =>
      rw [hport] at h
      dsimp only at h ⊢
      split at h
      next => cases h
      next hdirection =>
        obtain ⟨metadata, hmetadata, h⟩ := bind_eq_ok.mp h
        split at h
        next => cases h
        next hconnects =>
          have hconnected : port.output ≠ port.input ∧
              (summary name port.description base).isOk = true ∧ port.connects = true :=
            ⟨hdirection, by rw [hmetadata]; rfl, by simpa using hconnects⟩
          rw [if_pos hconnected]
          split at h
          next => exact Listing.insert_bridges h
          next =>
            cases h
            simp only [Publication.bridges, ← Multiset.coe_add]
            exact (add_assoc _ _ _).symm

theorem describeChild_bridges (hspec : Connects describe bridges) {service : Service}
    (h : describeChild services describe service path listing name = .ok next) :
    next.publication.bridges =
      listing.publication.bridges + ↑(childBridges bridges service path listing name) := by
  unfold describeChild at h
  unfold childBridges
  split at h
  next hthis =>
    cases h
    simp [if_pos hthis]
  next hthis =>
    obtain ⟨href, hhref, h⟩ := bind_eq_ok.mp h
    obtain ⟨⟨staging, description⟩, hdescribe, h⟩ := bind_eq_ok.mp h
    have hkept := hspec _ _ _ _ _ hdescribe
    rw [if_neg hthis, hhref]
    cases hchild : service.getService name with
    | none =>
        rw [hchild] at h
        cases h
    | some child =>
        rw [hchild] at h hkept
        obtain ⟨item, -, h⟩ := bind_eq_ok.mp h
        cases h
        exact hkept

variable [PortReader Codec]

theorem describeMember_bridges (hspec : Connects describe bridges) {category : Category}
    (h : model.describeMember services describe id path category listing name = .ok next) :
    next.publication.bridges = listing.publication.bridges +
      ↑(memberBridges bridges (services id) path category listing name) := by
  cases category with
  | services => exact describeChild_bridges hspec h
  | properties | attributes => exact (describeValue_bridges h).trans (add_zero _).symm
  | operations => exact (describeOperation_bridges h).trans (add_zero _).symm
  | ports => exact describePort_bridges h

theorem describeCategory_bridges (hspec : Connects describe bridges) {category : Category}
    {state after : Staging Codec × JsonObject × List Bytes}
    (h : model.describeCategory services describe id path state category = .ok after) :
    after.1.publication.bridges = state.1.publication.bridges +
      ↑(model.categoryBridges services describe bridges id path state category) := by
  obtain ⟨listing, hmembers, h⟩ := bind_eq_ok.mp h
  obtain ⟨publication, hinsert, h⟩ := bind_eq_ok.mp h
  cases h
  rw [describeMembers_eq] at hmembers
  have hlisting := loopBridges_owned (fun listing : Listing Codec => listing.publication.bridges)
    (fun _ _ _ hround => describeMember_bridges hspec hround) hmembers
  rw [insert_bridges hinsert, hlisting]
  exact add_zero _

/-- Each level adds the connections of its categories; its description adds none. -/
theorem describeService_bridges (fuel : Nat) :
    Connects (model.describeService services fuel) (model.serviceBridges services fuel) := by
  induction fuel with
  | zero =>
      intro staging service name path result h
      cases h
  | succ fuel ih =>
      intro staging service name path result h
      cases service with
      | none => cases h
      | some id =>
          unfold describeService at h
          unfold serviceBridges
          split at h
          next => cases h
          next hcycle =>
            obtain ⟨description, hsummary, h⟩ := bind_eq_ok.mp h
            obtain ⟨⟨after, members, allTypes⟩, hfold, h⟩ := bind_eq_ok.mp h
            obtain ⟨publication, hinsert, h⟩ := bind_eq_ok.mp h
            cases h
            rw [if_neg hcycle, hsummary]
            have hafter := loopBridges_owned
              (fun state : Staging Codec × JsonObject × List Bytes => state.1.publication.bridges)
              (fun _ _ _ hround => describeCategory_bridges ih hround) hfold
            rw [insert_bridges hinsert, hafter]
            exact add_zero _

/-- What a staging that succeeds has connected is owned by the publication. -/
theorem stage_bridges {component : TaskContext} {publication : Publication Codec}
    (h : model.stage services component = .ok publication) :
    publication.bridges = ↑(model.stageBridges services component) := by
  obtain ⟨path, hpath, h⟩ := bind_eq_ok.mp h
  obtain ⟨⟨staging, description⟩, hdescribe, h⟩ := bind_eq_ok.mp h
  have howned := describeService_bridges 65 _ _ _ _ _ hdescribe
  unfold stageBridges
  rw [hpath]
  cases hprovides : component.provides with
  | none =>
      rw [hprovides] at h
      cases h
  | some id =>
      rw [hprovides] at h howned
      obtain ⟨item, -, h⟩ := bind_eq_ok.mp h
      cases h
      exact howned.trans (zero_add _)

end Bridges

end ObjectModel

end RttHttp.Model
