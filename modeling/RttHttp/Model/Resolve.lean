import RttHttp.Model.Addressing

/-! # Resolution of request paths

Components are staged and committed one after the other. A canonical request
path then resolves to the resource whose address the decoded request target
spells, and to nothing else.
-/

namespace RttHttp.Model

open Route (slash childPath encodeSegment render validName segments canonicalRequestPath)

variable {Codec : Type}

/-! ## The order of published names -/

theorem bytesLt_iff {a b : Bytes} : bytesLt a b = true ↔ a < b := by
  simp [bytesLt]

theorem bytesLt_eq_false_iff {a b : Bytes} : bytesLt b a = false ↔ a ≤ b := by
  rw [← Std.not_lt, ← bytesLt_iff, Bool.not_eq_true]

/-- `std::sort` of byte strings sorts them. -/
theorem pairwise_sort_bytes (names : List Bytes) :
    (names.insertionSort fun a b => bytesLt b a = false).Pairwise fun a b =>
      bytesLt b a = false := by
  have htotal : Std.Total fun a b : Bytes => bytesLt b a = false := by
    refine ⟨fun a b => ?_⟩
    rw [bytesLt_eq_false_iff, bytesLt_eq_false_iff]
    exact Std.le_total
  have htrans : IsTrans Bytes fun a b => bytesLt b a = false := by
    refine ⟨fun a b c hab hbc => ?_⟩
    rw [bytesLt_eq_false_iff] at hab hbc ⊢
    exact Std.le_trans hab hbc
  exact List.pairwise_insertionSort _ _

/-- The keys of a `std::map`, in the order of iteration. -/
def Ascending {α : Type} (entries : List (Bytes × α)) : Prop :=
  entries.Pairwise fun a b => a.1 < b.1

section Emplace

variable {α : Type} {entries : List (Bytes × α)} {name : Bytes}

/-- Emplacing keeps the entries in order. -/
theorem ascending_emplace (value : α) (hsorted : Ascending entries) :
    Ascending (OrderedMap.emplace bytesLt entries name value) := by
  induction entries with
  | nil => exact List.pairwise_singleton _ _
  | cons entry rest ih =>
      obtain ⟨hentry, hrest⟩ := List.pairwise_cons.mp hsorted
      cases hfound : (entry :: rest).lookup name with
      | some found => rwa [OrderedMap.emplace, if_pos (by simp [hfound])]
      | none =>
          have hne := List.lookup_eq_none_iff.mp hfound
          have htail : rest.lookup name = none :=
            List.lookup_eq_none_iff.mpr fun other hother => hne other (List.mem_cons_of_mem _ hother)
          by_cases hlt : entry.1 < name
          · have hunfold : OrderedMap.emplace bytesLt (entry :: rest) name value =
                entry :: OrderedMap.emplace bytesLt rest name value := by
              simp [OrderedMap.emplace, hfound, htail, bytesLt_iff.mpr hlt]
            rw [hunfold]
            refine List.pairwise_cons.mpr ⟨fun other hother => ?_, ih hrest⟩
            rcases OrderedMap.mem_emplace hother with rfl | hmem
            · exact hlt
            · exact hentry other hmem
          · have hunfold : OrderedMap.emplace bytesLt (entry :: rest) name value =
                (name, value) :: entry :: rest := by
              have hnot : bytesLt entry.1 name = false := by simpa [← bytesLt_iff] using hlt
              simp [OrderedMap.emplace, hfound, hnot]
            rw [hunfold]
            have hother : name ≠ entry.1 := by simpa using hne entry List.mem_cons_self
            have hname : name < entry.1 := Std.lt_of_le_of_ne (Std.not_lt.mp hlt) hother
            refine List.pairwise_cons.mpr ⟨fun other hother => ?_, hsorted⟩
            rcases List.mem_cons.mp hother with rfl | hmem
            · exact hname
            · exact Std.lt_trans hname (hentry other hmem)

/-- The order of iteration is determined by the entries. -/
theorem Ascending.eq_of_perm {other : List (Bytes × α)} (hsorted : Ascending entries)
    (hother : Ascending other) (hperm : entries.Perm other) : entries = other :=
  hperm.eq_of_pairwise (fun _ _ _ _ hab hba => absurd hba (Std.not_gt_of_lt hab)) hsorted hother

end Emplace

namespace ObjectModel

/-! ## Staging does not look at the publications -/

section Staging

variable (model : ObjectModel Codec) (publications : List (Bytes × Publication Codec))

theorem typesLoop_publications (fuel : Nat) (pending : List Bytes) (result : JsonObject) :
    typesLoop { model with publications := publications } fuel pending result =
      model.typesLoop fuel pending result := by
  induction fuel generalizing pending result with
  | zero => rfl
  | succ fuel ih =>
      cases pending with
      | nil => rfl
      | cons name pending =>
          simp only [typesLoop, ih]

variable [PortReader Codec] (services : Nat → Service)

theorem describeCategory_publications
    (describe : Staging Codec → Option Nat → Bytes → Bytes →
      Except String (Staging Codec × JsonObject)) (id : Nat) (path : Bytes) :
    describeCategory { model with publications := publications } services describe id path =
      model.describeCategory services describe id path := by
  have htypes : types { model with publications := publications } = model.types := by
    funext references
    exact typesLoop_publications model publications _ _ _
  funext state category
  unfold describeCategory
  rw [htypes]
  cases category <;> rfl

theorem describeService_publications (fuel : Nat) :
    describeService { model with publications := publications } services fuel =
      model.describeService services fuel := by
  have htypes : types { model with publications := publications } = model.types := by
    funext references
    exact typesLoop_publications model publications _ _ _
  induction fuel with
  | zero => rfl
  | succ fuel ih =>
      funext staging service name path
      cases service with
      | none => rfl
      | some id =>
          simp only [describeService, ih, htypes, describeCategory_publications]

theorem stage_publications (component : TaskContext) :
    stage { model with publications := publications } services component =
      model.stage services component := by
  unfold stage
  rw [describeService_publications]

end Staging

/-! ## Publishing several components -/

end ObjectModel

/-- A component with the service graph it is staged from. -/
structure Component where
  context : TaskContext
  services : Nat → Service

namespace Component

/-- The names in front of every address of a component. -/
def names (component : Component) : List Bytes :=
  [bytes "api", bytes "v1", bytes "components", component.context.name]

end Component

namespace ObjectModel

theorem commit_fresh {model : ObjectModel Codec} {name : Bytes} {value : Publication Codec}
    (hfresh : model.publications.lookup name = none) :
    model.commit name value =
      .ok { model with
        publications := OrderedMap.emplace bytesLt model.publications name value } := by
  unfold commit
  rw [hfresh]

variable [PortReader Codec]

/-- Stage a component and commit the publication. -/
def publish (model : ObjectModel Codec) (component : Component) :
    Except String (ObjectModel Codec) := do
  let publication ← model.stage component.services component.context
  model.commit component.context.name publication

variable {model : ObjectModel Codec} {components : List Component}
  {publication : Component → Publication Codec}

/-- What is published under each name. -/
def entry (publication : Component → Publication Codec) (component : Component) :
    Bytes × Publication Codec :=
  (component.context.name, publication component)

/-- Publishing components under fresh names enters all of them, in the order of
their names. -/
theorem publish_all (hsorted : Ascending model.publications)
    (hstage : ∀ c ∈ components, model.stage c.services c.context = .ok (publication c))
    (hdistinct : (components.map (·.context.name)).Nodup)
    (hfresh : ∀ c ∈ components, ∀ entry ∈ model.publications, entry.1 ≠ c.context.name) :
    ∃ publications, Ascending publications ∧
      publications.Perm (components.map (entry publication) ++ model.publications) ∧
      components.foldlM publish model = .ok { model with publications := publications } := by
  induction components generalizing model with
  | nil => exact ⟨model.publications, hsorted, List.Perm.refl _, rfl⟩
  | cons c rest ih =>
      obtain ⟨hc, hrest⟩ := List.nodup_cons.mp hdistinct
      have hfreshc : model.publications.lookup c.context.name = none := by
        rw [List.lookup_eq_none_iff]
        intro entry hentry
        simpa using (hfresh c List.mem_cons_self entry hentry).symm
      let entered := OrderedMap.emplace bytesLt model.publications c.context.name (publication c)
      have hperm : entered.Perm (entry publication c :: model.publications) :=
        OrderedMap.emplace_perm hfreshc
      let next : ObjectModel Codec := { model with publications := entered }
      have hpublish : model.publish c = .ok next := by
        rw [publish, hstage c List.mem_cons_self]
        exact commit_fresh hfreshc
      obtain ⟨publications, hordered, hall, hfold⟩ :=
        @ih next (ascending_emplace (publication c) hsorted)
          (fun d hd => by
            rw [stage_publications]
            exact hstage d (List.mem_cons_of_mem _ hd))
          hrest
          (fun d hd other hother => by
            rcases List.mem_cons.mp (hperm.mem_iff.mp hother) with rfl | hmem
            · intro hname
              exact hc (List.mem_map.mpr ⟨d, hd, hname.symm⟩)
            · exact hfresh d (List.mem_cons_of_mem _ hd) other hmem)
      refine ⟨publications, hordered, hall.trans ?_, ?_⟩
      · calc rest.map (entry publication) ++ entered
            |>.Perm (rest.map (entry publication) ++ entry publication c :: model.publications) :=
              hperm.append_left _
          _ |>.Perm ((c :: rest).map (entry publication) ++ model.publications) :=
              List.perm_middle
      · rw [List.foldlM_cons, hpublish]
        exact hfold

/-- Staging enters exactly the routes of the addresses of the component. -/
theorem stage_covers {c : Component} {staged : Publication Codec}
    (h : model.stage c.services c.context = .ok staged) :
    ∃ id, c.context.provides = some id ∧ validName c.context.name = true ∧
      (staged.routes.map Prod.fst).Nodup ∧
      Covers c.services id c.names (fun _ => True) staged.routes := by
  obtain ⟨path, hpath, h⟩ := bind_eq_ok.mp h
  obtain ⟨⟨staging, description⟩, hdescribe, h⟩ := bind_eq_ok.mp h
  obtain ⟨hvalid, heq, hlen⟩ := childPath_eq_ok hpath
  have hrender : path = render c.names := by
    have hroot : Route.root = render [bytes "api", bytes "v1", bytes "components"] := by decide
    rw [heq, hroot]
    simp [Component.names]
  rw [hrender] at hdescribe hlen
  obtain ⟨id, entries, hid, hextends, hcovers⟩ :=
    describeService_covers 65 _ _ _ _ _ hlen hdescribe
  rw [hid] at h
  obtain ⟨item, -, h⟩ := bind_eq_ok.mp h
  cases h
  have hroutes : staging.publication.routes = entries := hextends.eq
  refine ⟨id, hid, hvalid, hextends.nodup List.nodup_nil, ?_⟩
  rw [← hroutes] at hcovers
  exact hcovers

end ObjectModel

/-! ## Addresses are unique -/

theorem Addresses.unique {services : Nat → Service} {id : Nat} {rest : List Bytes}
    {first second : Target} (hfirst : Addresses services id rest first)
    (hsecond : Addresses services id rest second) : first = second := by
  induction hfirst with
  | service =>
      rcases hsecond.shape with ⟨-, htarget⟩ | ⟨other, ⟨hlist, -⟩ | ⟨_, _, hlist⟩⟩
      · exact htarget.symm
      · cases hlist
      · cases hlist
  | collection category =>
      rcases hsecond.shape with ⟨hlist, -⟩ | ⟨other, ⟨hlist, htarget⟩ | ⟨_, _, hlist⟩⟩
      · cases hlist
      · rw [htarget, Category.text_injective (List.cons.inj hlist).1]
      · simp at hlist
  | property => exact hsecond.member_cases.2.2.symm
  | attr => exact hsecond.member_cases.2.2.symm
  | operation => exact hsecond.member_cases.2.2.symm
  | samples =>
      obtain ⟨-, port, -, ⟨-, -, htarget⟩ | ⟨hlist, -⟩⟩ := hsecond.member_cases
      · exact htarget.symm
      · exact absurd hlist (by decide)
  | latest =>
      obtain ⟨-, port, -, ⟨hlist, -⟩ | ⟨-, -, -, htarget⟩⟩ := hsecond.member_cases
      · exact absurd hlist (by decide)
      · exact htarget.symm
  | child hname hthis hchild hrest ih =>
      obtain ⟨-, -, child, hchild', hrest'⟩ := hsecond.member_cases
      obtain rfl := Option.some.inj (hchild.symm.trans hchild')
      exact ih hrest'

/-! ## Resolution -/

/-- Component `c` has a resource at the names `c.names ++ rest`, and it is `target`. -/
def Component.HasAddress (c : Component) (rest : List Bytes) (target : Target) : Prop :=
  ∃ id, c.context.provides = some id ∧ Addresses c.services id rest target

/-- What holds of every model in which `components` are published. -/
structure Addressed (components : List Component) (publication : Component → Publication Codec)
    (model : ObjectModel Codec) : Prop where
  /-- A request reaches a resource of a component exactly when its target spells
  the address of that resource. -/
  exact : ∀ target path, canonicalRequestPath target = some path → ∀ c ∈ components, ∀ resource,
    (model.resolve path = some resource ∧ (path, resource) ∈ (publication c).routes) ↔
      ∃ rest object, segments target = some (c.names ++ rest) ∧ c.HasAddress rest object ∧
        (render (c.names ++ rest), resource) ∈ (publication c).routes ∧
        Presents c.services resource object
  /-- Every address of a component has a resource. -/
  total : ∀ c ∈ components, ∀ rest object, c.HasAddress rest object →
    ∃ resource, (render (c.names ++ rest), resource) ∈ (publication c).routes ∧
      Presents c.services resource object
  /-- An address names one object. -/
  functional : ∀ c ∈ components, ∀ rest first second, c.HasAddress rest first →
    c.HasAddress rest second → first = second
  /-- Nothing but published components and the root is reached. -/
  only : ∀ path resource, model.resolve path = some resource → path ≠ Route.root →
    ∃ c ∈ components, (path, resource) ∈ (publication c).routes
  /-- The root is the listing, and no component has a route there. -/
  root : (∀ target, canonicalRequestPath target = some Route.root ↔
      target.head? = some slash ∧ target.length ≤ 8192 ∧ Route.hash ∉ target ∧
        segments target = some [bytes "api", bytes "v1", bytes "components"]) ∧
    model.resolve Route.root = some (ObjectModel.rootResource model.publications) ∧
    ∀ c ∈ components, ∀ resource, (Route.root, resource) ∉ (publication c).routes
  /-- Two resources never share a route. -/
  disjoint : ∀ c ∈ components, ∀ d ∈ components, ∀ path first second,
    (path, first) ∈ (publication c).routes → (path, second) ∈ (publication d).routes →
    c = d ∧ first = second
  /-- Every route is reachable as it is listed. -/
  reachable : ∀ c ∈ components, ∀ path resource, (path, resource) ∈ (publication c).routes →
    canonicalRequestPath path = some path ∧ model.resolve path = some resource
  /-- The search does not depend on the order of the publications. -/
  unordered : ∀ publications, publications.Perm model.publications → ∀ path, path ≠ Route.root →
    ObjectModel.resolve { model with publications := publications } path = model.resolve path

theorem lookup_of_mem {α : Type} {entries : List (Bytes × α)} {path : Bytes} {value : α}
    (hnodup : (entries.map Prod.fst).Nodup) (hmem : (path, value) ∈ entries) :
    entries.lookup path = some value := by
  obtain ⟨before, after, rfl⟩ := List.append_of_mem hmem
  refine List.lookup_eq_some_iff.mpr ⟨before, after, rfl, fun entry hentry => ?_⟩
  rw [List.map_append, List.nodup_append] at hnodup
  have hne := hnodup.2.2 entry.1 (List.mem_map_of_mem hentry) path (by simp)
  simpa using hne.symm

theorem mem_of_lookup {α : Type} {entries : List (Bytes × α)} {path : Bytes} {value : α}
    (h : entries.lookup path = some value) : (path, value) ∈ entries := by
  obtain ⟨before, after, rfl, -⟩ := List.lookup_eq_some_iff.mp h
  simp

section Published

variable [PortReader Codec] {model : ObjectModel Codec} {components : List Component}
  {publication : Component → Publication Codec}
  (hstage : ∀ c ∈ components, model.stage c.services c.context = .ok (publication c))
  (hdistinct : (components.map (·.context.name)).Nodup)

include hstage

/-- A route of a component is the rendering of one of its addresses. -/
theorem route_address {c : Component} (hc : c ∈ components) {path : Bytes}
    {resource : Resource Codec} (hroute : (path, resource) ∈ (publication c).routes) :
    ∃ rest object, path = render (c.names ++ rest) ∧ c.HasAddress rest object ∧
      (∀ name ∈ c.names ++ rest, validName name = true) ∧ path.length ≤ routeLimit ∧
      Presents c.services resource object := by
  obtain ⟨id, hid, hvalid, -, hcovers⟩ := ObjectModel.stage_covers (hstage c hc)
  obtain ⟨rest, object, -, haddress, hrest, hpath, hlen, hpresents⟩ := hcovers.sound _ hroute
  refine ⟨rest, object, hpath, ⟨id, hid, haddress⟩, ?_, hlen, hpresents⟩
  intro name hname
  rcases List.mem_append.mp hname with hname | hname
  · have hbase : ∀ word ∈ [bytes "api", bytes "v1", bytes "components"],
        validName word = true := by decide
    rcases List.mem_append.mp (show name ∈ [_, _, _] ++ [c.context.name] from hname) with h | h
    · exact hbase name h
    · rw [List.mem_singleton.mp h]
      exact hvalid
  · exact hrest name hname

theorem address_route {c : Component} (hc : c ∈ components) {rest : List Bytes} {object : Target}
    (haddress : c.HasAddress rest object) :
    ∃ resource, (render (c.names ++ rest), resource) ∈ (publication c).routes ∧
      Presents c.services resource object := by
  obtain ⟨id, hid, -, -, hcovers⟩ := ObjectModel.stage_covers (hstage c hc)
  obtain ⟨id', hid', haddress⟩ := haddress
  obtain rfl := Option.some.inj (hid.symm.trans hid')
  exact hcovers.complete rest object trivial haddress

theorem routes_nodup {c : Component} (hc : c ∈ components) :
    ((publication c).routes.map Prod.fst).Nodup := by
  obtain ⟨_, _, _, hnodup, _⟩ := ObjectModel.stage_covers (hstage c hc)
  exact hnodup

theorem route_ne_root {c : Component} (hc : c ∈ components) {path : Bytes}
    {resource : Resource Codec} (hroute : (path, resource) ∈ (publication c).routes) :
    path ≠ Route.root := by
  obtain ⟨rest, _, hpath, -⟩ := route_address hstage hc hroute
  have hroot : Route.root = render [bytes "api", bytes "v1", bytes "components"] := by decide
  rw [hpath, hroot]
  intro heq
  have hlength := congrArg List.length (Route.render_injective heq)
  simp [Component.names] at hlength

include hdistinct

theorem routes_disjoint {c d : Component} (hc : c ∈ components) (hd : d ∈ components) {path : Bytes}
    {first second : Resource Codec} (hfirst : (path, first) ∈ (publication c).routes)
    (hsecond : (path, second) ∈ (publication d).routes) : c = d ∧ first = second := by
  obtain ⟨rest, -, hpath, -⟩ := route_address hstage hc hfirst
  obtain ⟨rest', -, hpath', -⟩ := route_address hstage hd hsecond
  have hnames := Route.render_injective (hpath.symm.trans hpath')
  have hname : c.context.name = d.context.name := by
    simp only [Component.names, List.cons_append, List.cons.injEq] at hnames
    exact hnames.2.2.2.1
  obtain rfl : c = d := List.inj_on_of_nodup_map hdistinct hc hd hname
  have hlookup := lookup_of_mem (routes_nodup hstage hc) hfirst
  rw [lookup_of_mem (routes_nodup hstage hc) hsecond] at hlookup
  exact ⟨rfl, (Option.some.inj hlookup).symm⟩

/-- The first publication that has the path is the only one. -/
theorem resolve_eq_some {publications : List (Bytes × Publication Codec)}
    (hperm : publications.Perm (components.map (ObjectModel.entry publication))) {path : Bytes}
    (hpath : path ≠ Route.root) (resource : Resource Codec) :
    ObjectModel.resolve { model with publications := publications } path = some resource ↔
      ∃ c ∈ components, (path, resource) ∈ (publication c).routes := by
  unfold ObjectModel.resolve
  rw [if_neg hpath]
  have hfound : ∀ found, publications.findSome? (fun entry => entry.2.routes.lookup path) =
      some found → ∃ c ∈ components, (path, found) ∈ (publication c).routes := by
    intro found h
    obtain ⟨entry, hentry, hlookup⟩ := List.exists_of_findSome?_eq_some h
    obtain ⟨c, hc, rfl⟩ := List.mem_map.mp (hperm.mem_iff.mp hentry)
    exact ⟨c, hc, mem_of_lookup hlookup⟩
  constructor
  · exact hfound resource
  · rintro ⟨c, hc, hroute⟩
    cases hfind : publications.findSome? (fun entry => entry.2.routes.lookup path) with
    | none =>
        have hnone := List.findSome?_eq_none_iff.mp hfind (ObjectModel.entry publication c)
          (hperm.mem_iff.mpr (List.mem_map_of_mem hc))
        have hlookup := lookup_of_mem (routes_nodup hstage hc) hroute
        exact absurd (hnone.symm.trans hlookup) (by simp)
    | some found =>
        obtain ⟨d, hd, hfoundRoute⟩ := hfound found hfind
        rw [(routes_disjoint hstage hdistinct hc hd hroute hfoundRoute).2]

theorem resolve_perm {first second : List (Bytes × Publication Codec)}
    (hfirst : first.Perm (components.map (ObjectModel.entry publication)))
    (hsecond : second.Perm (components.map (ObjectModel.entry publication))) {path : Bytes}
    (hpath : path ≠ Route.root) :
    ObjectModel.resolve { model with publications := first } path =
      ObjectModel.resolve { model with publications := second } path := by
  ext resource
  rw [resolve_eq_some hstage hdistinct hfirst hpath, resolve_eq_some hstage hdistinct hsecond hpath]

theorem addressed_of_perm {publications : List (Bytes × Publication Codec)}
    (hperm : publications.Perm (components.map (ObjectModel.entry publication))) :
    Addressed components publication { model with publications := publications } where
  exact target path htarget c hc resource := by
    obtain ⟨-, -, -, names, hnames, -, rfl⟩ := Route.canonicalRequestPath_eq_some.mp htarget
    constructor
    · rintro ⟨-, hroute⟩
      obtain ⟨rest, object, hpath, haddress, -, -, hpresents⟩ := route_address hstage hc hroute
      obtain rfl := Route.render_injective hpath
      exact ⟨rest, object, hnames, haddress, hroute, hpresents⟩
    · rintro ⟨rest, object, hsegments, -, hroute, -⟩
      obtain rfl : names = c.names ++ rest := Option.some.inj (hnames.symm.trans hsegments)
      have hne := route_ne_root hstage hc hroute
      exact ⟨(resolve_eq_some hstage hdistinct hperm hne resource).mpr ⟨c, hc, hroute⟩, hroute⟩
  total c hc rest object haddress := address_route hstage hc haddress
  functional c hc rest first second hfirst hsecond := by
    obtain ⟨id, hid, hfirst⟩ := hfirst
    obtain ⟨id', hid', hsecond⟩ := hsecond
    obtain rfl := Option.some.inj (hid.symm.trans hid')
    exact hfirst.unique hsecond
  only path resource hresolve hpath :=
    (resolve_eq_some hstage hdistinct hperm hpath resource).mp hresolve
  root := by
    have hroot : Route.root = render [bytes "api", bytes "v1", bytes "components"] := by decide
    refine ⟨fun target => ?_, if_pos rfl, fun c hc resource hroute => ?_⟩
    · rw [Route.canonicalRequestPath_eq_some]
      constructor
      · rintro ⟨hhead, hlen, hhash, names, hnames, -, hpath⟩
        rw [hroot] at hpath
        rw [← Route.render_injective hpath] at hnames
        exact ⟨hhead, hlen, hhash, hnames⟩
      · rintro ⟨hhead, hlen, hhash, hnames⟩
        exact ⟨hhead, hlen, hhash, _, hnames, by decide, hroot⟩
    · exact route_ne_root hstage hc hroute rfl
  disjoint c hc d hd path first second := routes_disjoint hstage hdistinct hc hd
  reachable c hc path resource hroute := by
    obtain ⟨rest, object, hpath, -, hvalid, hlen, -⟩ := route_address hstage hc hroute
    have hne := route_ne_root hstage hc hroute
    refine ⟨?_, (resolve_eq_some hstage hdistinct hperm hne resource).mpr ⟨c, hc, hroute⟩⟩
    rw [hpath] at hlen ⊢
    refine Route.canonicalRequestPath_render (by simp [Component.names]) hvalid ?_
    unfold routeLimit at hlen
    omega
  unordered others hothers path hpath :=
    resolve_perm hstage hdistinct (hothers.trans hperm) hperm hpath

/-- Publishing components with distinct names succeeds, gives the same model in
every order, and addresses are a bijection in it. -/
theorem addressing_bijection (hempty : model.publications = []) :
    ∃ final, (∀ order : List Component, order.Perm components →
        order.foldlM ObjectModel.publish model = .ok final) ∧
      Addressed components publication final := by
  have hrun : ∀ order : List Component, order.Perm components → ∃ publications,
      Ascending publications ∧
      publications.Perm (components.map (ObjectModel.entry publication)) ∧
      order.foldlM ObjectModel.publish model =
        .ok { model with publications := publications } := by
    intro order horder
    obtain ⟨publications, hsorted, hperm, hfold⟩ :=
      ObjectModel.publish_all (by rw [hempty]; exact .nil)
        (fun c (hc : c ∈ order) => hstage c (horder.mem_iff.mp hc))
        ((horder.map _).nodup_iff.mpr hdistinct) (by simp [hempty])
    rw [hempty, List.append_nil] at hperm
    exact ⟨publications, hsorted, hperm.trans (horder.map _), hfold⟩
  obtain ⟨publications, hsorted, hperm, -⟩ := hrun components (List.Perm.refl _)
  refine ⟨{ model with publications := publications }, fun order horder => ?_,
    addressed_of_perm hstage hdistinct hperm⟩
  obtain ⟨others, hothersSorted, hothersPerm, hfold⟩ := hrun order horder
  rw [hfold, hsorted.eq_of_perm hothersSorted (hperm.trans hothersPerm.symm)]

end Published

/-! ## Two components -/

section Example

/-- A codec of which only the port reader matters. -/
inductive AnyCodec where
  | typed

instance : PortReader AnyCodec := ⟨fun _ => true⟩

def emptyService : Service where
  doc := []
  providerNames := []
  getService _ := none
  propertyNames := []
  getProperty _ := none
  attributeNames := []
  getValue _ := none
  operationNames := []
  getOperation _ := none
  portNames := []
  getPort _ := none

/-- A component with the service `motion/raw`, which has the property `speed`,
and an output port `latest` that keeps its value. -/
def armServices : Nat → Service
  | 0 => { emptyService with
      providerNames := [bytes "this", bytes "motion/raw"]
      getService := fun name => if name = bytes "motion/raw" then some 1 else none
      portNames := [bytes "latest"]
      getPort := fun _ => some
        { address := 7, description := [], output := true, input := false, typeInfo := none
          keepsLastWrittenValue := true, connects := true } }
  | _ => { emptyService with
      propertyNames := [bytes "speed"]
      getProperty := fun _ => some ⟨some ⟨3, none, true⟩, bytes "m/s"⟩ }

def arm : Component := ⟨⟨1, bytes "arm", some 0⟩, armServices⟩

def namedServices : Component := ⟨⟨2, bytes "services", some 5⟩, fun _ => emptyService⟩

def emptyModel : ObjectModel AnyCodec where
  catalog := ⟨[], []⟩
  diagnostics := []

/-- The publication of a component, where there is one. -/
def published (c : Component) : Publication AnyCodec :=
  match emptyModel.stage c.services c.context with
  | .ok publication => publication
  | .error _ => { component := 0, service := none }

theorem addressing_bijection_arm :
    ∃ final, [namedServices, arm].foldlM ObjectModel.publish emptyModel = .ok final ∧
      Addressed [arm, namedServices] published final ∧
      arm.HasAddress [bytes "services", bytes "motion/raw", bytes "properties", bytes "speed"]
        (.property 1 (bytes "speed")) := by
  have hstage : ∀ c ∈ [arm, namedServices],
      emptyModel.stage c.services c.context = .ok (published c) := by
    have hok : ∀ c ∈ [arm, namedServices],
        (emptyModel.stage c.services c.context).toOption.isSome = true := by decide +kernel
    intro c hc
    have hsome := hok c hc
    unfold published
    cases h : emptyModel.stage c.services c.context with
    | ok publication => rfl
    | error message => rw [h] at hsome; cases hsome
  obtain ⟨final, hrun, haddressed⟩ := addressing_bijection hstage (by decide) rfl
  refine ⟨final, hrun _ (List.Perm.swap _ _ _), haddressed, 0, rfl, ?_⟩
  exact .child (by decide) (by decide) rfl (.property (by decide))

end Example

end RttHttp.Model
