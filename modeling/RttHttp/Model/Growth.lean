import RttHttp.Model.Ledger
import RttHttp.Registry.Passes

/-! # Growth of the object model

A model only ever gains publications, and each of them was staged by the model
itself from a component of its name. A route therefore keeps its resource from the
commit of its publication on.
-/

namespace RttHttp.Model

open Route (render)

variable {Codec : Type}

/-! ## The component of a publication -/

theorem insert_component {publication next : Publication Codec} {path : Bytes}
    {resource : Resource Codec} (h : insert publication path resource = .ok next) :
    next.component = publication.component := by
  unfold insert at h
  split at h
  next => cases h
  next =>
    cases h
    rfl

theorem Listing.insert_component {listing next : Listing Codec} {path : Bytes}
    {resource : Resource Codec} (h : listing.insert path resource = .ok next) :
    next.publication.component = listing.publication.component := by
  obtain ⟨publication, hinsert, h⟩ := bind_eq_ok.mp h
  cases h
  exact Model.insert_component hinsert

/-- Describing a service leaves the component of the publication alone. -/
def KeepsComponent (describe : ObjectModel.Staging Codec → Option Nat → Bytes → Bytes →
    Except String (ObjectModel.Staging Codec × JsonObject)) : Prop :=
  ∀ staging service name path result, describe staging service name path = .ok result →
    result.1.publication.component = staging.publication.component

namespace ObjectModel

section Component

variable {model : ObjectModel Codec} {services : Nat → Service} {id : Nat} {path name : Bytes}
  {listing next : Listing Codec} {describe : Staging Codec → Option Nat → Bytes → Bytes →
    Except String (Staging Codec × JsonObject)}

theorem describeValue_component {category : Bytes}
    {member : Bytes → Except String (Option DataSource × Bytes)}
    (h : model.describeValue category path member listing name = .ok next) :
    next.publication.component = listing.publication.component := by
  obtain ⟨href, -, h⟩ := bind_eq_ok.mp h
  obtain ⟨⟨source, doc⟩, -, h⟩ := bind_eq_ok.mp h
  cases source with
  | none => cases h
  | some source =>
      obtain ⟨metadata, -, h⟩ := bind_eq_ok.mp h
      have hkept := Listing.insert_component h
      exact hkept

theorem describeOperation_component {service : Service}
    (h : model.describeOperation id service path listing name = .ok next) :
    next.publication.component = listing.publication.component := by
  obtain ⟨href, -, h⟩ := bind_eq_ok.mp h
  cases hoperation : service.getOperation name with
  | none =>
      rw [hoperation] at h
      cases h
  | some part =>
      rw [hoperation] at h
      obtain ⟨metadata, -, h⟩ := bind_eq_ok.mp h
      obtain ⟨signature, -, h⟩ := bind_eq_ok.mp h
      have hkept := Listing.insert_component h
      exact hkept

theorem describePort_component [PortReader Codec] {service : Service}
    (h : model.describePort service path listing name = .ok next) :
    next.publication.component = listing.publication.component := by
  obtain ⟨base, -, h⟩ := bind_eq_ok.mp h
  cases hport : service.getPort name with
  | none =>
      rw [hport] at h
      cases h
  | some port =>
      rw [hport] at h
      dsimp only at h
      split at h
      next => cases h
      next =>
        obtain ⟨metadata, -, h⟩ := bind_eq_ok.mp h
        split at h
        next => cases h
        next =>
          split at h
          next =>
            have hkept := Listing.insert_component h
            exact hkept
          next =>
            cases h
            rfl

theorem describeChild_component (hspec : KeepsComponent describe) {service : Service}
    (h : describeChild services describe service path listing name = .ok next) :
    next.publication.component = listing.publication.component := by
  unfold describeChild at h
  split at h
  next =>
    cases h
    rfl
  next =>
    obtain ⟨href, -, h⟩ := bind_eq_ok.mp h
    obtain ⟨⟨staging, description⟩, hdescribe, h⟩ := bind_eq_ok.mp h
    have hkept := hspec _ _ _ _ _ hdescribe
    cases hchild : service.getService name with
    | none =>
        rw [hchild] at h
        cases h
    | some child =>
        rw [hchild] at h
        obtain ⟨item, -, h⟩ := bind_eq_ok.mp h
        cases h
        exact hkept

variable [PortReader Codec]

theorem describeMember_component (hspec : KeepsComponent describe) {category : Category}
    (h : model.describeMember services describe id path category listing name = .ok next) :
    next.publication.component = listing.publication.component := by
  cases category with
  | services => exact describeChild_component hspec h
  | properties | attributes => exact describeValue_component h
  | operations => exact describeOperation_component h
  | ports => exact describePort_component h

theorem describeCategory_component (hspec : KeepsComponent describe) {category : Category}
    {state after : Staging Codec × JsonObject × List Bytes}
    (h : model.describeCategory services describe id path state category = .ok after) :
    after.1.publication.component = state.1.publication.component := by
  obtain ⟨listing, hmembers, h⟩ := bind_eq_ok.mp h
  obtain ⟨publication, hinsert, h⟩ := bind_eq_ok.mp h
  cases h
  rw [describeMembers_eq] at hmembers
  have hlisting : listing.publication.component = state.1.publication.component := by
    refine foldlM_invariant
      (p := fun listing => listing.publication.component = state.1.publication.component) ?_ rfl
      hmembers
    intro member _ listing next hlisting hnext
    rw [describeMember_component hspec hnext, hlisting]
  exact (insert_component hinsert).trans hlisting

theorem describeService_component (fuel : Nat) :
    KeepsComponent (model.describeService services fuel) := by
  induction fuel with
  | zero =>
      intro staging service name path result h
      cases h
  | succ fuel ih =>
      intro staging service name path result h
      cases service with
      | none => cases h
      | some id =>
          unfold describeService at h
          split at h
          next => cases h
          next =>
            obtain ⟨description, -, h⟩ := bind_eq_ok.mp h
            obtain ⟨⟨after, members, allTypes⟩, hfold, h⟩ := bind_eq_ok.mp h
            obtain ⟨publication, hinsert, h⟩ := bind_eq_ok.mp h
            cases h
            have hafter : after.publication.component = staging.publication.component :=
              foldlM_invariant (p := fun state : Staging Codec × JsonObject × List Bytes =>
                  state.1.publication.component = staging.publication.component)
                (fun _ _ _ _ hstate hstep => (describeCategory_component ih hstep).trans hstate)
                rfl hfold
            exact (insert_component hinsert).trans hafter

theorem stage_component {component : TaskContext} {publication : Publication Codec}
    (h : model.stage services component = .ok publication) :
    publication.component = component.address := by
  obtain ⟨path, -, h⟩ := bind_eq_ok.mp h
  obtain ⟨⟨staging, description⟩, hdescribe, h⟩ := bind_eq_ok.mp h
  have hkept := describeService_component 65 _ _ _ _ _ hdescribe
  cases hprovides : component.provides with
  | none =>
      rw [hprovides] at h
      cases h
  | some id =>
      rw [hprovides] at h
      obtain ⟨item, -, h⟩ := bind_eq_ok.mp h
      cases h
      exact hkept

end Component

/-! ## Commits -/

/-- What a later state of a model keeps. -/
structure Grows (before after : ObjectModel Codec) : Prop where
  catalog : after.catalog = before.catalog
  diagnostics : after.diagnostics = before.diagnostics
  publications : ∀ entry ∈ before.publications, entry ∈ after.publications

section Commit

variable {before middle after model next : ObjectModel Codec} {name : Bytes}
  {publication : Publication Codec}

theorem Grows.refl (model : ObjectModel Codec) : Grows model model :=
  ⟨rfl, rfl, fun _ hentry => hentry⟩

theorem Grows.trans (hfirst : Grows before middle) (hsecond : Grows middle after) :
    Grows before after where
  catalog := hsecond.catalog.trans hfirst.catalog
  diagnostics := hsecond.diagnostics.trans hfirst.diagnostics
  publications entry hentry := hsecond.publications entry (hfirst.publications entry hentry)

theorem Grows.explained (hgrows : Grows before after) (h : before.Explained) : after.Explained := by
  unfold Explained
  rw [hgrows.diagnostics]
  exact h

/-- A commit that succeeds finds the component under its name, or enters it there. -/
theorem commit_eq_ok (h : model.commit name publication = .ok next) :
    (∃ existing, (name, existing) ∈ model.publications ∧
      existing.component = publication.component ∧ next = model) ∨
    model.publications.lookup name = none ∧
      next = { model with
        publications := OrderedMap.emplace bytesLt model.publications name publication } := by
  unfold commit at h
  cases hlookup : model.publications.lookup name with
  | some existing =>
      rw [hlookup] at h
      dsimp only at h
      split at h
      next hsame =>
        cases h
        exact .inl ⟨existing, mem_of_lookup hlookup, hsame, rfl⟩
      next => cases h
  | none =>
      rw [hlookup] at h
      cases h
      exact .inr ⟨rfl, rfl⟩

theorem commit_grows (h : model.commit name publication = .ok next) : Grows model next := by
  rcases commit_eq_ok h with ⟨existing, -, -, rfl⟩ | ⟨hfresh, rfl⟩
  · exact .refl _
  · refine ⟨rfl, rfl, fun entry hentry => ?_⟩
    exact (OrderedMap.emplace_perm hfresh).mem_iff.mpr (List.mem_cons_of_mem _ hentry)

end Commit

/-! ## Models of staged publications -/

/-- Every publication was staged by this model from a component of its name. -/
structure Sound [PortReader Codec] (model : ObjectModel Codec) : Prop where
  staged : ∀ entry ∈ model.publications, ∃ c : Component, c.context.name = entry.1 ∧
    model.stage c.services c.context = .ok entry.2
  sorted : Ascending model.publications

section Sound

variable [PortReader Codec] {before after model next : ObjectModel Codec}

theorem sound_of_empty (h : model.publications = []) : model.Sound where
  staged entry hentry := by
    rw [h] at hentry
    cases hentry
  sorted := by
    rw [h]
    exact .nil

theorem Sound.commit (hsound : model.Sound) {c : Component} {publication : Publication Codec}
    (hstage : model.stage c.services c.context = .ok publication)
    (h : model.commit c.context.name publication = .ok next) : next.Sound := by
  rcases commit_eq_ok h with ⟨existing, -, -, rfl⟩ | ⟨-, rfl⟩
  · exact hsound
  · refine ⟨fun entry hentry => ?_, ascending_emplace publication hsound.sorted⟩
    simp only [stage_publications]
    rcases OrderedMap.mem_emplace hentry with rfl | hold
    · exact ⟨c, rfl, hstage⟩
    · exact hsound.staged entry hold

/-- A path is a route of at most one publication. -/
theorem Sound.unique (hsound : model.Sound) {first second : Bytes × Publication Codec}
    (hfirst : first ∈ model.publications) (hsecond : second ∈ model.publications) {path : Bytes}
    {resource other : Resource Codec} (hresource : (path, resource) ∈ first.2.routes)
    (hother : (path, other) ∈ second.2.routes) : resource = other := by
  obtain ⟨c, hc, hstage⟩ := hsound.staged first hfirst
  obtain ⟨d, hd, hstage'⟩ := hsound.staged second hsecond
  have hofFirst : ∀ e ∈ [c], model.stage e.services e.context = .ok first.2 := by
    simpa using hstage
  have hofSecond : ∀ e ∈ [d], model.stage e.services e.context = .ok second.2 := by
    simpa using hstage'
  obtain ⟨rest, -, hpath, -⟩ :=
    route_address hofFirst (List.mem_singleton_self c) hresource
  obtain ⟨rest', -, hpath', -⟩ :=
    route_address hofSecond (List.mem_singleton_self d) hother
  have hnames := Route.render_injective (hpath.symm.trans hpath')
  have hname : first.1 = second.1 := by
    rw [← hc, ← hd]
    simp only [Component.names, List.cons_append, List.cons.injEq] at hnames
    exact hnames.2.2.2.1
  -- Names are in strictly ascending order, so the two publications are one.
  have hdistinct : (model.publications.map Prod.fst).Nodup :=
    List.pairwise_map.mpr (hsound.sorted.imp fun {a b} hlt (heq : a.1 = b.1) =>
      Std.lt_irrefl (heq ▸ hlt))
  obtain rfl : first = second := List.inj_on_of_nodup_map hdistinct hfirst hsecond hname
  have hnodup := routes_nodup hofFirst (List.mem_singleton_self c)
  have hlookup := lookup_of_mem hnodup hresource
  rw [lookup_of_mem hnodup hother] at hlookup
  exact (Option.some.inj hlookup).symm

/-- What a path other than the root resolves to. -/
theorem Sound.resolve_iff (hsound : model.Sound) {path : Bytes} (hpath : path ≠ Route.root)
    {resource : Resource Codec} : model.resolve path = some resource ↔
      ∃ entry ∈ model.publications, (path, resource) ∈ entry.2.routes := by
  unfold resolve
  rw [if_neg hpath]
  constructor
  · intro h
    obtain ⟨entry, hentry, hlookup⟩ := List.exists_of_findSome?_eq_some h
    exact ⟨entry, hentry, mem_of_lookup hlookup⟩
  · rintro ⟨entry, hentry, hroute⟩
    cases hfind : model.publications.findSome? (fun entry => entry.2.routes.lookup path) with
    | none =>
        have hnone := List.findSome?_eq_none_iff.mp hfind entry hentry
        have habsent := List.lookup_eq_none_iff.mp hnone _ hroute
        simp at habsent
    | some found =>
        obtain ⟨other, hother, hlookup⟩ := List.exists_of_findSome?_eq_some hfind
        rw [hsound.unique hother hentry (mem_of_lookup hlookup) hroute]

/-- A route keeps its resource while the model grows. -/
theorem Grows.resolve (hgrows : Grows before after) (hbefore : before.Sound) (hafter : after.Sound)
    {path : Bytes} (hpath : path ≠ Route.root) {resource : Resource Codec}
    (h : before.resolve path = some resource) : after.resolve path = some resource := by
  obtain ⟨entry, hentry, hroute⟩ := (hbefore.resolve_iff hpath).mp h
  exact (hafter.resolve_iff hpath).mpr ⟨entry, hgrows.publications entry hentry, hroute⟩

/-- What a request path resolves to was made as its kind requires. -/
theorem Sound.published (hsound : model.Sound) (hmodel : model.Explained) {path : Bytes}
    {resource : Resource Codec} (h : model.resolve path = some resource) :
    resource.Published model := by
  by_cases hpath : path = Route.root
  · rw [resolve, if_pos hpath] at h
    cases h
    exact published_description model _
  · obtain ⟨entry, hentry, hroute⟩ := (hsound.resolve_iff hpath).mp h
    obtain ⟨c, -, hstage⟩ := hsound.staged entry hentry
    exact stage_published hmodel hstage _ hroute

/-- A path that is published stays published, with the same methods. -/
theorem Grows.allow (hgrows : Grows before after) (hbefore : before.Sound) (hafter : after.Sound)
    {path : Bytes} {resource : Resource Codec} (h : before.resolve path = some resource) :
    ∃ later, after.resolve path = some later ∧ later.allow = resource.allow := by
  by_cases hpath : path = Route.root
  · rw [ObjectModel.resolve, if_pos hpath] at h
    cases h
    exact ⟨rootResource after.publications, if_pos hpath, rfl⟩
  · exact ⟨resource, hgrows.resolve hbefore hafter hpath h, rfl⟩

end Sound

/-! ## Models of the server -/

/-- A model as `start` makes it: nothing is published, and the diagnostics are
those of automatic reflection, or none where the catalog was frozen before. -/
structure Created (model : ObjectModel Codec) : Prop where
  publications : model.publications = []
  diagnostics : model.diagnostics = [] ∨
    ∃ (formatter : Registry.Formatter) (T : Type) (world : Registry.World T)
      (state after : Registry.State formatter T) (types : List (Option Registry.TypeId)),
      Registry.registerReflectedTypeProtocols world state types = .returned after model.diagnostics

theorem Created.explained {model : ObjectModel Codec} (h : model.Created) : model.Explained := by
  rcases h.diagnostics with hnone | ⟨formatter, T, world, state, after, types, hreturned⟩
  · intro entry hentry
    rw [hnone] at hentry
    cases hentry
  · exact Registry.registerReflectedTypeProtocols_explained hreturned

/-- Publishing further components lets a model grow. -/
theorem grows_of_publish [PortReader Codec] {components : List Component}
    {model after : ObjectModel Codec} (hsound : model.Sound)
    (h : components.foldlM publish model = .ok after) : after.Sound ∧ Grows model after := by
  induction components generalizing model with
  | nil =>
      cases h
      exact ⟨hsound, .refl _⟩
  | cons c rest ih =>
      rw [List.foldlM_cons, bind_eq_ok] at h
      obtain ⟨next, hpublish, hrest⟩ := h
      obtain ⟨publication, hstage, hcommit⟩ := bind_eq_ok.mp hpublish
      obtain ⟨hafter, hgrows⟩ := ih (hsound.commit hstage hcommit) hrest
      exact ⟨hafter, (commit_grows hcommit).trans hgrows⟩

end ObjectModel

end RttHttp.Model
