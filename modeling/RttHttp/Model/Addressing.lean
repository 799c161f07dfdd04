import RttHttp.Model.Describe
import RttHttp.Route.Grammar

/-! # Addresses of published resources

An address is the list of names below a service: a chain of child services, then
nothing, a category, or a category with a member and its suffix. Publication
enters exactly one route for every address of the component, and the route is
the rendered address.
-/

namespace RttHttp.Model

open Route (slash childPath encodeSegment render validName)

variable {Codec : Type}

/-- The RTT object, or the listing, that an address names. -/
inductive Target where
  | service (id : Nat)
  | collection (id : Nat) (category : Category)
  | property (id : Nat) (name : Bytes)
  | attr (id : Nat) (name : Bytes)
  | operation (id : Nat) (name : Bytes)
  | samples (id : Nat) (name : Bytes)
  | latest (id : Nat) (name : Bytes)
  deriving DecidableEq, Repr

/-- The addresses below service `id`. -/
inductive Addresses (services : Nat → Service) : Nat → List Bytes → Target → Prop
  | service {id : Nat} : Addresses services id [] (.service id)
  | collection {id : Nat} (category : Category) :
      Addresses services id [category.text] (.collection id category)
  | property {id : Nat} {name : Bytes} (hname : name ∈ (services id).propertyNames) :
      Addresses services id [Category.text .properties, name] (.property id name)
  | attr {id : Nat} {name : Bytes} (hname : name ∈ (services id).attributeNames) :
      Addresses services id [Category.text .attributes, name] (.attr id name)
  | operation {id : Nat} {name : Bytes} (hname : name ∈ (services id).operationNames) :
      Addresses services id [Category.text .operations, name] (.operation id name)
  | samples {id : Nat} {name : Bytes} {port : Port} (hname : name ∈ (services id).portNames)
      (hport : (services id).getPort name = some port) (hinput : port.input = true) :
      Addresses services id [Category.text .ports, name, bytes "samples"] (.samples id name)
  | latest {id : Nat} {name : Bytes} {port : Port} (hname : name ∈ (services id).portNames)
      (hport : (services id).getPort name = some port) (houtput : port.output = true)
      (hretains : port.keepsLastWrittenValue = true) :
      Addresses services id [Category.text .ports, name, bytes "latest"] (.latest id name)
  | child {id child : Nat} {name : Bytes} {rest : List Bytes} {target : Target}
      (hname : name ∈ (services id).providerNames) (hthis : name ≠ bytes "this")
      (hchild : (services id).getService name = some child)
      (hrest : Addresses services child rest target) :
      Addresses services id (Category.text .services :: name :: rest) target

/-- A resource gives access to its target. -/
def Presents (services : Nat → Service) (resource : Resource Codec) : Target → Prop
  | .service id => resource.kind = .description ∧ ∃ members, resource.description = .object members ∧
      JsonObject.find? members (bytes "description") = some (.string (services id).doc)
  | .collection _ _ => resource.kind = .description
  | .property id name => resource.kind = .value ∧
      ∃ property, (services id).getProperty name = some property ∧ resource.source = property.source
  | .attr id name => resource.kind = .value ∧
      ∃ value, (services id).getValue name = some value ∧ resource.source = value.source
  | .operation id name => resource.kind = .operation ∧ ∃ operation,
      resource.operation = some operation ∧ operation.service = id ∧
        (services id).getOperation name = some operation.part
  | .samples id name => resource.kind = .samples ∧ ∃ port,
      (services id).getPort name = some port ∧ resource.bridge = some ⟨port⟩
  | .latest id name => resource.kind = .latest ∧ ∃ port,
      (services id).getPort name = some port ∧ resource.output = some port

theorem Category.text_injective {a b : Category} (h : a.text = b.text) : a = b := by
  revert h
  cases a <;> cases b <;> decide

theorem Category.text_valid (category : Category) : validName category.text = true := by
  cases category <;> decide

section Inversion

variable {services : Nat → Service} {id : Nat} {rest : List Bytes} {target : Target}

/-- What an address below a member of a category names. -/
def MemberAddress (services : Nat → Service) (id : Nat) (name : Bytes) (rest : List Bytes)
    (target : Target) : Category → Prop
  | .services => name ∈ (services id).providerNames ∧ name ≠ bytes "this" ∧
      ∃ child, (services id).getService name = some child ∧ Addresses services child rest target
  | .properties => name ∈ (services id).propertyNames ∧ rest = [] ∧ target = .property id name
  | .attributes => name ∈ (services id).attributeNames ∧ rest = [] ∧ target = .attr id name
  | .operations => name ∈ (services id).operationNames ∧ rest = [] ∧ target = .operation id name
  | .ports => name ∈ (services id).portNames ∧ ∃ port, (services id).getPort name = some port ∧
      (rest = [bytes "samples"] ∧ port.input = true ∧ target = .samples id name ∨
        rest = [bytes "latest"] ∧ port.output = true ∧ port.keepsLastWrittenValue = true ∧
          target = .latest id name)

theorem Addresses.member_cases {category : Category} {name : Bytes}
    (h : Addresses services id (category.text :: name :: rest) target) :
    MemberAddress services id name rest target category := by
  generalize hlist : category.text :: name :: rest = list at h
  cases h with
  | service => cases hlist
  | collection => simp at hlist
  | property hname =>
      obtain ⟨hcategory, rfl, rfl⟩ : category.text = Category.text .properties ∧ _ ∧ _ := by
        simpa using hlist
      obtain rfl := Category.text_injective hcategory
      exact ⟨hname, rfl, rfl⟩
  | attr hname =>
      obtain ⟨hcategory, rfl, rfl⟩ : category.text = Category.text .attributes ∧ _ ∧ _ := by
        simpa using hlist
      obtain rfl := Category.text_injective hcategory
      exact ⟨hname, rfl, rfl⟩
  | operation hname =>
      obtain ⟨hcategory, rfl, rfl⟩ : category.text = Category.text .operations ∧ _ ∧ _ := by
        simpa using hlist
      obtain rfl := Category.text_injective hcategory
      exact ⟨hname, rfl, rfl⟩
  | samples hname hport hinput =>
      obtain ⟨hcategory, rfl, rfl⟩ : category.text = Category.text .ports ∧ _ ∧ _ := by
        simpa using hlist
      obtain rfl := Category.text_injective hcategory
      exact ⟨hname, _, hport, .inl ⟨rfl, hinput, rfl⟩⟩
  | latest hname hport houtput hretains =>
      obtain ⟨hcategory, rfl, rfl⟩ : category.text = Category.text .ports ∧ _ ∧ _ := by
        simpa using hlist
      obtain rfl := Category.text_injective hcategory
      exact ⟨hname, _, hport, .inr ⟨rfl, houtput, hretains, rfl⟩⟩
  | child hname hthis hchild hrest =>
      obtain ⟨hcategory, rfl, rfl⟩ : category.text = Category.text .services ∧ _ ∧ _ := by
        simpa using hlist
      obtain rfl := Category.text_injective hcategory
      exact ⟨hname, hthis, _, hchild, hrest⟩

/-- An address is the service itself, a collection, or below a member. -/
theorem Addresses.shape (h : Addresses services id rest target) :
    rest = [] ∧ target = .service id ∨
      ∃ category : Category, rest = [category.text] ∧ target = .collection id category ∨
        ∃ name more, rest = category.text :: name :: more := by
  cases h with
  | service => exact .inl ⟨rfl, rfl⟩
  | collection category => exact .inr ⟨category, .inl ⟨rfl, rfl⟩⟩
  | property => exact .inr ⟨.properties, .inr ⟨_, _, rfl⟩⟩
  | attr => exact .inr ⟨.attributes, .inr ⟨_, _, rfl⟩⟩
  | operation => exact .inr ⟨.operations, .inr ⟨_, _, rfl⟩⟩
  | samples => exact .inr ⟨.ports, .inr ⟨_, _, rfl⟩⟩
  | latest => exact .inr ⟨.ports, .inr ⟨_, _, rfl⟩⟩
  | child => exact .inr ⟨.services, .inr ⟨_, _, rfl⟩⟩

end Inversion

/-! ## What staging enters -/

theorem childPath_eq_ok {parent name path : Bytes} (h : childPath parent name = .ok path) :
    validName name = true ∧ path = parent ++ slash :: encodeSegment name ∧ path.length ≤ 4096 := by
  unfold childPath at h
  split at h
  next hvalid =>
    simp only at h
    split at h
    next => cases h
    next hlen =>
      cases h
      exact ⟨hvalid, rfl, by omega⟩
  next => cases h

/-- The routes `entries` have been entered, and no route was there before. -/
structure Extends (before after entries : List (Bytes × Resource Codec)) : Prop where
  eq : after = before ++ entries
  nodup : (before.map Prod.fst).Nodup → (after.map Prod.fst).Nodup

theorem Extends.refl (routes : List (Bytes × Resource Codec)) : Extends routes routes [] :=
  ⟨(List.append_nil routes).symm, id⟩

theorem Extends.trans {a b c first second : List (Bytes × Resource Codec)}
    (hfirst : Extends a b first) (hsecond : Extends b c second) :
    Extends a c (first ++ second) :=
  ⟨by rw [hsecond.eq, hfirst.eq, List.append_assoc], fun h => hsecond.nodup (hfirst.nodup h)⟩

theorem insert_extends {publication next : Publication Codec} {path : Bytes}
    {resource : Resource Codec} (h : insert publication path resource = .ok next) :
    Extends publication.routes next.routes [(path, resource)] := by
  unfold insert at h
  split at h
  next => cases h
  next hfresh =>
    cases h
    refine ⟨rfl, fun hnodup => ?_⟩
    rw [List.map_append, List.nodup_append]
    refine ⟨hnodup, by simp, ?_⟩
    rintro key hkey other hother rfl
    obtain rfl : key = path := by simpa using hother
    obtain ⟨⟨found, value⟩, hmem, rfl⟩ := List.mem_map.mp hkey
    refine hfresh ?_
    rw [List.lookup_isSome_iff]
    exact ⟨(found, value), hmem, by simp⟩

/-- A loop that enters some routes for each element. -/
theorem foldlM_extends {ι σ : Type} (routes : σ → List (Bytes × Resource Codec))
    {f : σ → ι → Except String σ} {spec : ι → List (Bytes × Resource Codec) → Prop} {xs : List ι}
    (hstep : ∀ x ∈ xs, ∀ state next, f state x = .ok next →
      ∃ entries, Extends (routes state) (routes next) entries ∧ spec x entries)
    {state final : σ} (hfold : xs.foldlM f state = .ok final) :
    ∃ entries, Extends (routes state) (routes final) entries.flatten ∧
      List.Forall₂ spec xs entries := by
  induction xs generalizing state with
  | nil =>
      cases hfold
      exact ⟨[], Extends.refl _, .nil⟩
  | cons x rest ih =>
      rw [List.foldlM_cons, bind_eq_ok] at hfold
      obtain ⟨next, hnext, hrest⟩ := hfold
      obtain ⟨entries, hextends, hspec⟩ := hstep x List.mem_cons_self state next hnext
      obtain ⟨others, hothers, hall⟩ := ih (fun y hy => hstep y (List.mem_cons_of_mem _ hy)) hrest
      exact ⟨entries :: others, hextends.trans hothers, .cons hspec hall⟩

/-! ## Covering the addresses of a service -/

/-- The longest text appended to a checked route. -/
def routeLimit : Nat := 4096 + 11

/-- `entries` are exactly the routes of the addresses of service `id` that have
the given shape, where the service itself is at `names`. -/
structure Covers (services : Nat → Service) (id : Nat) (names : List Bytes)
    (shape : List Bytes → Prop) (entries : List (Bytes × Resource Codec)) : Prop where
  sound : ∀ entry ∈ entries, ∃ rest target, shape rest ∧ Addresses services id rest target ∧
    (∀ name ∈ rest, validName name = true) ∧ entry.1 = render (names ++ rest) ∧
    entry.1.length ≤ routeLimit ∧ Presents services entry.2 target
  complete : ∀ rest target, shape rest → Addresses services id rest target →
    ∃ resource, (render (names ++ rest), resource) ∈ entries ∧ Presents services resource target

section Covers

variable {services : Nat → Service} {id : Nat} {names : List Bytes}

/-- Only addresses of the service matter for the shape. -/
theorem Covers.congr {shape other : List Bytes → Prop} {entries : List (Bytes × Resource Codec)}
    (h : Covers services id names shape entries)
    (hshape : ∀ rest target, Addresses services id rest target → (shape rest ↔ other rest)) :
    Covers services id names other entries where
  sound entry hentry := by
    obtain ⟨rest, target, hrest, haddress, hmore⟩ := h.sound entry hentry
    exact ⟨rest, target, (hshape rest target haddress).mp hrest, haddress, hmore⟩
  complete rest target hother haddress :=
    h.complete rest target ((hshape rest target haddress).mpr hother) haddress

theorem Covers.append {first second : List Bytes → Prop}
    {entries others : List (Bytes × Resource Codec)}
    (hfirst : Covers services id names first entries)
    (hsecond : Covers services id names second others) :
    Covers services id names (fun rest => first rest ∨ second rest) (entries ++ others) where
  sound entry hentry := by
    rcases List.mem_append.mp hentry with hmem | hmem
    · obtain ⟨rest, target, hrest, hmore⟩ := hfirst.sound entry hmem
      exact ⟨rest, target, .inl hrest, hmore⟩
    · obtain ⟨rest, target, hrest, hmore⟩ := hsecond.sound entry hmem
      exact ⟨rest, target, .inr hrest, hmore⟩
  complete rest target hshape haddress := by
    rcases hshape with hshape | hshape
    · obtain ⟨resource, hmem, hpresents⟩ := hfirst.complete rest target hshape haddress
      exact ⟨resource, List.mem_append_left _ hmem, hpresents⟩
    · obtain ⟨resource, hmem, hpresents⟩ := hsecond.complete rest target hshape haddress
      exact ⟨resource, List.mem_append_right _ hmem, hpresents⟩

theorem Covers.nil {shape : List Bytes → Prop}
    (hnone : ∀ rest target, shape rest → ¬ Addresses services id rest target) :
    @Covers Codec services id names shape [] where
  sound _ hentry := absurd hentry List.not_mem_nil
  complete rest target hshape haddress := absurd haddress (hnone rest target hshape)

theorem Covers.flatten {ι : Type} {shape : ι → List Bytes → Prop} {xs : List ι}
    {entries : List (List (Bytes × Resource Codec))}
    (h : List.Forall₂ (fun x => Covers services id names (shape x)) xs entries) :
    Covers services id names (fun rest => ∃ x ∈ xs, shape x rest) entries.flatten := by
  induction h with
  | nil => exact Covers.nil (fun rest target hshape => by simp at hshape)
  | cons hfirst hrest ih =>
      refine (hfirst.append ih).congr fun rest target _ => ?_
      simp

/-- One route for the single address of a shape. -/
theorem Covers.single {rest : List Bytes} {target : Target} {shape : List Bytes → Prop}
    {path : Bytes} {resource : Resource Codec} (haddress : Addresses services id rest target)
    (hshape : shape rest)
    (honly : ∀ other target', shape other → Addresses services id other target' →
      other = rest ∧ target' = target)
    (hvalid : ∀ name ∈ rest, validName name = true) (hpath : path = render (names ++ rest))
    (hlen : path.length ≤ routeLimit) (hpresents : Presents services resource target) :
    Covers services id names shape [(path, resource)] where
  sound entry hentry := by
    obtain rfl : entry = (path, resource) := by simpa using hentry
    exact ⟨rest, target, hshape, haddress, hvalid, hpath, hlen, hpresents⟩
  complete other target' hother haddress' := by
    obtain ⟨rfl, rfl⟩ := honly other target' hother haddress'
    exact ⟨resource, by simp [hpath], hpresents⟩

end Covers

/-- Addresses of one member of a category. -/
def MemberShape (category : Category) (name : Bytes) (rest : List Bytes) : Prop :=
  ∃ more, rest = category.text :: name :: more

theorem render_member (names : List Bytes) (category : Category) (name : Bytes) :
    render (names ++ [category.text, name]) =
      render names ++ slash :: category.text ++ slash :: encodeSegment name := by
  have htext : encodeSegment category.text = category.text := by cases category <;> decide
  rw [Route.render_append]
  simp [htext]

theorem render_suffix (names : List Bytes) (suffix : Bytes)
    (hsuffix : encodeSegment suffix = suffix) :
    render (names ++ [suffix]) = render names ++ slash :: suffix := by
  rw [Route.render_append]
  simp [hsuffix]

theorem Listing.insert_extends {listing next : Listing Codec} {path : Bytes}
    {resource : Resource Codec} (h : listing.insert path resource = .ok next) :
    Extends listing.publication.routes next.publication.routes [(path, resource)] := by
  obtain ⟨publication, hinsert, hnext⟩ := bind_eq_ok.mp h
  cases hnext
  exact Model.insert_extends hinsert

namespace ObjectModel

variable {model : ObjectModel Codec} {services : Nat → Service} {id : Nat} {names : List Bytes}
  {listing next : Listing Codec} {name : Bytes}

/-- One property or attribute enters its own route. -/
theorem describeValue_extends {category : Category}
    {member : Bytes → Except String (Option DataSource × Bytes)}
    (h : model.describeValue category.text (render names) member listing name = .ok next) :
    ∃ source doc resource, member name = .ok (some source, doc) ∧ validName name = true ∧
      (render (names ++ [category.text, name])).length ≤ 4096 ∧
      Extends listing.publication.routes next.publication.routes
        [(render (names ++ [category.text, name]), resource)] ∧
      resource.kind = .value ∧ resource.source = some source := by
  obtain ⟨href, hhref, h⟩ := bind_eq_ok.mp h
  obtain ⟨⟨source, doc⟩, hmember, h⟩ := bind_eq_ok.mp h
  cases source with
  | none => cases h
  | some source =>
      obtain ⟨metadata, -, h⟩ := bind_eq_ok.mp h
      obtain ⟨hvalid, hpath, hlen⟩ := childPath_eq_ok hhref
      have hrender : render (names ++ [category.text, name]) = href := by
        rw [render_member, hpath]
      rw [hrender]
      have hextends := Listing.insert_extends h
      exact ⟨source, doc, _, hmember, hvalid, hlen, hextends, rfl, rfl⟩

/-- One operation enters its own route. -/
theorem describeOperation_extends
    (h : model.describeOperation id (services id) (render names) listing name = .ok next) :
    ∃ resource, validName name = true ∧
      (render (names ++ [Category.text .operations, name])).length ≤ 4096 ∧
      Extends listing.publication.routes next.publication.routes
        [(render (names ++ [Category.text .operations, name]), resource)] ∧
      Presents services resource (.operation id name) := by
  obtain ⟨href, hhref, h⟩ := bind_eq_ok.mp h
  cases hpart : (services id).getOperation name with
  | none => rw [hpart] at h; cases h
  | some part =>
      rw [hpart] at h
      obtain ⟨metadata, -, h⟩ := bind_eq_ok.mp h
      obtain ⟨signature, -, h⟩ := bind_eq_ok.mp h
      obtain ⟨hvalid, hpath, hlen⟩ := childPath_eq_ok hhref
      have hrender : render (names ++ [Category.text .operations, name]) = href := by
        rw [render_member, hpath]
        rfl
      rw [hrender]
      have hextends := Listing.insert_extends h
      exact ⟨_, hvalid, hlen, hextends, rfl, _, rfl, rfl, hpart⟩

/-- One port enters its route for samples, its route for the latest value, or no
route at all. -/
theorem describePort_extends [PortReader Codec]
    (h : model.describePort (services id) (render names) listing name = .ok next) :
    ∃ port, (services id).getPort name = some port ∧ validName name = true ∧
      (render (names ++ [Category.text .ports, name])).length ≤ 4096 ∧
      port.output ≠ port.input ∧
      ((port.input = true ∧ ∃ resource, Extends listing.publication.routes next.publication.routes
          [(render (names ++ [Category.text .ports, name]) ++ slash :: bytes "samples", resource)] ∧
          Presents services resource (.samples id name)) ∨
       (port.output = true ∧ port.keepsLastWrittenValue = true ∧
          ∃ resource, Extends listing.publication.routes next.publication.routes
          [(render (names ++ [Category.text .ports, name]) ++ slash :: bytes "latest", resource)] ∧
          Presents services resource (.latest id name)) ∨
       (port.input = false ∧ (port.output && port.keepsLastWrittenValue) = false ∧
          Extends listing.publication.routes next.publication.routes [])) := by
  obtain ⟨base, hbase, h⟩ := bind_eq_ok.mp h
  cases hport : (services id).getPort name with
  | none => rw [hport] at h; cases h
  | some port =>
      rw [hport] at h
      simp only at h
      split at h
      next => cases h
      next hdirection =>
        obtain ⟨metadata, -, h⟩ := bind_eq_ok.mp h
        obtain ⟨hvalid, hpath, hlen⟩ := childPath_eq_ok hbase
        have hrender : render (names ++ [Category.text .ports, name]) = base := by
          rw [render_member, hpath]
          rfl
        rw [hrender]
        refine ⟨port, rfl, hvalid, hlen, hdirection, ?_⟩
        split at h
        next => cases h
        next =>
          split at h
          next hroute =>
            have hextends := Listing.insert_extends h
            cases hinput : port.input with
            | true =>
                simp only [hinput, if_true] at hextends
                exact .inl ⟨rfl, _, hextends, rfl, port, hport, rfl⟩
            | false =>
                have hout : port.output = true := by
                  rw [hinput] at hdirection
                  simpa using hdirection
                have hkeeps : port.keepsLastWrittenValue = true := by simpa [hinput, hout] using hroute
                simp only [hinput, hout, if_true] at hextends
                exact .inr (.inl ⟨hout, hkeeps, _, hextends, rfl, port, hport, rfl⟩)
          next hroute =>
            simp only [Bool.or_eq_true, not_or, Bool.not_eq_true] at hroute
            cases h
            exact .inr (.inr ⟨hroute.1, hroute.2, Extends.refl _⟩)

/-- The entries for one member, as a loop over the members adds them. -/
def MemberSpec (services : Nat → Service) (id : Nat) (names : List Bytes) (category : Category)
    (name : Bytes) (entries : List (Bytes × Resource Codec)) : Prop :=
  Covers services id names (MemberShape category name) entries

theorem member_valid {category : Category} (hname : validName name = true) :
    ∀ segment ∈ [category.text, name], validName segment = true := by
  simp [category.text_valid, hname]

theorem describeProperty_covers (hname : name ∈ (services id).propertyNames)
    (h : model.describeValue (bytes "properties") (render names) (propertyMember (services id))
      listing name = .ok next) :
    ∃ entries, Extends listing.publication.routes next.publication.routes entries ∧
      MemberSpec services id names .properties name entries := by
  obtain ⟨source, doc, resource, hmember, hvalid, hlen, hextends, hkind, hsource⟩ :=
    describeValue_extends (show model.describeValue (Category.text .properties) _ _ _ _ = _ from h)
  refine ⟨_, hextends, Covers.single (.property hname) ⟨[], rfl⟩ ?_ (member_valid hvalid) rfl
    (by unfold routeLimit; omega) ⟨hkind, ?_⟩⟩
  · rintro other target' ⟨more, rfl⟩ haddress
    obtain ⟨-, rfl, rfl⟩ := haddress.member_cases
    exact ⟨rfl, rfl⟩
  · unfold propertyMember at hmember
    cases hproperty : (services id).getProperty name with
    | none => simp [hproperty] at hmember
    | some property =>
        simp only [hproperty, Except.ok.injEq, Prod.mk.injEq] at hmember
        exact ⟨property, rfl, by rw [hsource, hmember.1]⟩

theorem describeAttribute_covers (hname : name ∈ (services id).attributeNames)
    (h : model.describeValue (bytes "attributes") (render names) (attributeMember (services id))
      listing name = .ok next) :
    ∃ entries, Extends listing.publication.routes next.publication.routes entries ∧
      MemberSpec services id names .attributes name entries := by
  obtain ⟨source, doc, resource, hmember, hvalid, hlen, hextends, hkind, hsource⟩ :=
    describeValue_extends (show model.describeValue (Category.text .attributes) _ _ _ _ = _ from h)
  refine ⟨_, hextends, Covers.single (.attr hname) ⟨[], rfl⟩ ?_ (member_valid hvalid) rfl
    (by unfold routeLimit; omega) ⟨hkind, ?_⟩⟩
  · rintro other target' ⟨more, rfl⟩ haddress
    obtain ⟨-, rfl, rfl⟩ := haddress.member_cases
    exact ⟨rfl, rfl⟩
  · unfold attributeMember at hmember
    cases hvalue : (services id).getValue name with
    | none => simp [hvalue] at hmember
    | some value =>
        simp only [hvalue, Except.ok.injEq, Prod.mk.injEq] at hmember
        exact ⟨value, rfl, by rw [hsource, hmember.1]⟩

theorem describeOperation_covers (hname : name ∈ (services id).operationNames)
    (h : model.describeOperation id (services id) (render names) listing name = .ok next) :
    ∃ entries, Extends listing.publication.routes next.publication.routes entries ∧
      MemberSpec services id names .operations name entries := by
  obtain ⟨resource, hvalid, hlen, hextends, hpresents⟩ := describeOperation_extends h
  refine ⟨_, hextends, Covers.single (.operation hname) ⟨[], rfl⟩ ?_ (member_valid hvalid) rfl
    (by unfold routeLimit; omega) hpresents⟩
  rintro other target' ⟨more, rfl⟩ haddress
  obtain ⟨-, rfl, rfl⟩ := haddress.member_cases
  exact ⟨rfl, rfl⟩

theorem describePort_covers [PortReader Codec] (hname : name ∈ (services id).portNames)
    (h : model.describePort (services id) (render names) listing name = .ok next) :
    ∃ entries, Extends listing.publication.routes next.publication.routes entries ∧
      MemberSpec services id names .ports name entries := by
  obtain ⟨port, hport, hvalid, hlen, hdirection, hcases⟩ := describePort_extends h
  have hpath : ∀ suffix : Bytes, encodeSegment suffix = suffix →
      render (names ++ [Category.text .ports, name]) ++ slash :: suffix =
        render (names ++ [Category.text .ports, name, suffix]) := by
    intro suffix hsuffix
    rw [← render_suffix _ _ hsuffix]
    simp
  have hvalid' : ∀ suffix : Bytes, validName suffix = true →
      ∀ segment ∈ [Category.text .ports, name, suffix], validName segment = true := by
    intro suffix hsuffix
    simp [Category.text_valid, hvalid, hsuffix]
  rcases hcases with ⟨hinput, resource, hextends, hpresents⟩ |
      ⟨houtput, hretains, resource, hextends, hpresents⟩ | ⟨hinput, hretains, hextends⟩
  · refine ⟨_, hextends, Covers.single (.samples hname hport hinput) ⟨[bytes "samples"], rfl⟩ ?_
      (hvalid' _ (by decide)) (hpath _ (by decide)) ?_ hpresents⟩
    · rintro other target' ⟨more, rfl⟩ haddress
      obtain ⟨-, port', hport', hmore⟩ := haddress.member_cases
      obtain rfl : port = port' := Option.some.inj (hport.symm.trans hport')
      rcases hmore with ⟨rfl, -, rfl⟩ | ⟨-, houtput, -⟩
      · exact ⟨rfl, rfl⟩
      · exact absurd (houtput.trans hinput.symm) hdirection
    · rw [List.length_append]
      have : (slash :: bytes "samples").length = 8 := by decide
      unfold routeLimit
      omega
  · refine ⟨_, hextends, Covers.single (.latest hname hport houtput hretains)
      ⟨[bytes "latest"], rfl⟩ ?_ (hvalid' _ (by decide)) (hpath _ (by decide)) ?_ hpresents⟩
    · rintro other target' ⟨more, rfl⟩ haddress
      obtain ⟨-, port', hport', hmore⟩ := haddress.member_cases
      obtain rfl : port = port' := Option.some.inj (hport.symm.trans hport')
      rcases hmore with ⟨-, hinput, -⟩ | ⟨rfl, -, -, rfl⟩
      · exact absurd (houtput.trans hinput.symm) hdirection
      · exact ⟨rfl, rfl⟩
    · rw [List.length_append]
      have : (slash :: bytes "latest").length = 7 := by decide
      unfold routeLimit
      omega
  · refine ⟨[], hextends, Covers.nil ?_⟩
    rintro other target' ⟨more, rfl⟩ haddress
    obtain ⟨-, port', hport', hmore⟩ := haddress.member_cases
    obtain rfl : port = port' := Option.some.inj (hport.symm.trans hport')
    rcases hmore with ⟨-, hinput', -⟩ | ⟨-, houtput, hkeeps, -⟩
    · rw [hinput] at hinput'
      cases hinput'
    · simp [houtput, hkeeps] at hretains

/-- What describing a service at `names` enters. -/
def DescribeSpec (services : Nat → Service)
    (describe : Staging Codec → Option Nat → Bytes → Bytes →
      Except String (Staging Codec × JsonObject)) : Prop :=
  ∀ staging service name names result, (render names).length ≤ 4096 →
    describe staging service name (render names) = .ok result →
    ∃ id entries, service = some id ∧
      Extends staging.publication.routes result.1.publication.routes entries ∧
      Covers services id names (fun _ => True) entries

variable {describe : Staging Codec → Option Nat → Bytes → Bytes →
  Except String (Staging Codec × JsonObject)}

theorem describeChild_covers (hspec : DescribeSpec services describe)
    (hname : name ∈ (services id).providerNames)
    (h : describeChild services describe (services id) (render names) listing name = .ok next) :
    ∃ entries, Extends listing.publication.routes next.publication.routes entries ∧
      MemberSpec services id names .services name entries := by
  unfold describeChild at h
  split at h
  next hthis =>
    cases h
    refine ⟨[], Extends.refl _, Covers.nil ?_⟩
    rintro other target ⟨more, rfl⟩ haddress
    exact haddress.member_cases.2.1 hthis
  next hthis =>
    obtain ⟨href, hhref, h⟩ := bind_eq_ok.mp h
    obtain ⟨result, hdescribe, h⟩ := bind_eq_ok.mp h
    obtain ⟨hvalid, hpath, hlen⟩ := childPath_eq_ok hhref
    have hrender : href = render (names ++ [Category.text .services, name]) := by
      rw [render_member, hpath]
      rfl
    rw [hrender] at hdescribe hlen
    obtain ⟨child, entries, hchild, hextends, hcovers⟩ := hspec _ _ _ _ _ hlen hdescribe
    rw [hchild] at h
    obtain ⟨item, -, h⟩ := bind_eq_ok.mp h
    cases h
    refine ⟨entries, hextends, ⟨fun entry hentry => ?_, ?_⟩⟩
    · obtain ⟨rest, target, -, haddress, hrest, hentryPath, hlen, hpresents⟩ :=
        hcovers.sound entry hentry
      refine ⟨_, target, ⟨rest, rfl⟩, .child hname hthis hchild haddress, ?_, ?_, hlen, hpresents⟩
      · simpa [Category.text_valid, hvalid] using hrest
      · simpa using hentryPath
    · rintro other target ⟨more, rfl⟩ haddress
      obtain ⟨-, -, child', hchild', hmore⟩ := haddress.member_cases
      obtain rfl : child = child' := Option.some.inj (hchild.symm.trans hchild')
      obtain ⟨resource, hmem, hpresents⟩ := hcovers.complete more target trivial hmore
      exact ⟨resource, by simpa using hmem, hpresents⟩

/-- The members listed in a category. -/
def memberNames (service : Service) : Category → List Bytes
  | .services => service.providerNames
  | .properties => service.propertyNames
  | .attributes => service.attributeNames
  | .operations => service.operationNames
  | .ports => service.portNames

theorem describeMembers_covers [PortReader Codec] (hspec : DescribeSpec services describe)
    {category : Category}
    (h : model.describeMembers services describe id (render names) listing category = .ok next) :
    ∃ entries, Extends listing.publication.routes next.publication.routes entries ∧
      Covers services id names
        (fun rest => ∃ name ∈ memberNames (services id) category, MemberShape category name rest)
        entries := by
  have hflatten : ∀ {f : Listing Codec → Bytes → Except String (Listing Codec)},
      (∀ name ∈ memberNames (services id) category, ∀ state after, f state name = .ok after →
        ∃ entries, Extends state.publication.routes after.publication.routes entries ∧
          MemberSpec services id names category name entries) →
      (memberNames (services id) category).foldlM f listing = .ok next →
      ∃ entries, Extends listing.publication.routes next.publication.routes entries ∧
        Covers services id names
          (fun rest => ∃ name ∈ memberNames (services id) category, MemberShape category name rest)
          entries := by
    intro f hstep hfold
    obtain ⟨entries, hextends, hall⟩ :=
      foldlM_extends (fun state => state.publication.routes) hstep hfold
    exact ⟨entries.flatten, hextends, Covers.flatten hall⟩
  cases category with
  | services => exact hflatten (fun name hname _ _ => describeChild_covers hspec hname) h
  | properties => exact hflatten (fun name hname _ _ => describeProperty_covers hname) h
  | attributes => exact hflatten (fun name hname _ _ => describeAttribute_covers hname) h
  | operations => exact hflatten (fun name hname _ _ => describeOperation_covers hname) h
  | ports => exact hflatten (fun name hname _ _ => describePort_covers hname) h

/-- Addresses that continue with a category. -/
def CategoryShape (category : Category) (rest : List Bytes) : Prop :=
  rest.head? = some category.text

theorem category_text_length (category : Category) : category.text.length ≤ 10 := by
  cases category <;> decide

/-- An address that continues with a category is its listing or below a member. -/
theorem categoryShape_iff {category : Category} {rest : List Bytes} {target : Target}
    (haddress : Addresses services id rest target) :
    ((∃ name ∈ memberNames (services id) category, MemberShape category name rest) ∨
      rest = [category.text]) ↔ CategoryShape category rest := by
  constructor
  · rintro (⟨name, -, more, rfl⟩ | rfl) <;> rfl
  · intro hshape
    rcases haddress.shape with ⟨rfl, -⟩ | ⟨other, ⟨rfl, -⟩ | ⟨name, more, rfl⟩⟩
    · cases hshape
    · exact .inr (by rw [Option.some.inj hshape])
    · obtain rfl := Category.text_injective (Option.some.inj hshape)
      refine .inl ⟨name, ?_, more, rfl⟩
      have hmember := haddress.member_cases
      cases other with
      | services => exact hmember.1
      | properties => exact hmember.1
      | attributes => exact hmember.1
      | operations => exact hmember.1
      | ports => exact hmember.1

/-- The listing of a category, appended to the route of its service. -/
theorem collection_covers (hlen : (render names).length ≤ 4096) (category : Category)
    {resource : Resource Codec} (hkind : resource.kind = .description) :
    Covers services id names (fun rest => rest = [category.text])
      [(render names ++ slash :: category.text, resource)] := by
  have htext : encodeSegment category.text = category.text := by cases category <;> decide
  have hpath := (render_suffix names category.text htext).symm
  refine Covers.single (.collection category) rfl ?_ ?_ hpath ?_ hkind
  · rintro other target rfl haddress
    rcases haddress.shape with ⟨hnil, -⟩ | ⟨other, ⟨hlist, htarget⟩ | ⟨name, more, hlist⟩⟩
    · cases hnil
    · obtain rfl := Category.text_injective (List.cons.inj hlist).1
      exact ⟨rfl, htarget⟩
    · simp at hlist
  · simpa using category.text_valid
  · have := category_text_length category
    simp only [List.length_append, List.length_cons]
    unfold routeLimit
    omega

/-- One round over the categories enters the routes of that category and keeps
the documentation. -/
theorem describeCategory_covers [PortReader Codec] (hspec : DescribeSpec services describe)
    (hlen : (render names).length ≤ 4096) {category : Category}
    {state after : Staging Codec × JsonObject × List Bytes}
    (h : model.describeCategory services describe id (render names) state category = .ok after) :
    (∃ entries, Extends state.1.publication.routes after.1.publication.routes entries ∧
      Covers services id names (CategoryShape category) entries) ∧
    JsonObject.find? after.2.1 (bytes "description") =
      JsonObject.find? state.2.1 (bytes "description") := by
  obtain ⟨listing, hmembers, h⟩ := bind_eq_ok.mp h
  obtain ⟨publication, hinsert, h⟩ := bind_eq_ok.mp h
  cases h
  obtain ⟨entries, hextends, hcovers⟩ := describeMembers_covers hspec hmembers
  refine ⟨⟨_, hextends.trans (insert_extends hinsert), ?_⟩, ?_⟩
  · exact (hcovers.append (collection_covers hlen category rfl)).congr
      fun rest target => categoryShape_iff
  · exact JsonObject.find?_set_ne _ (by cases category <;> decide)

theorem describeCategories_covers [PortReader Codec] (hspec : DescribeSpec services describe)
    (hlen : (render names).length ≤ 4096)
    {categories : List Category} {state after : Staging Codec × JsonObject × List Bytes}
    (h : categories.foldlM (model.describeCategory services describe id (render names)) state =
      .ok after) :
    (∃ entries, Extends state.1.publication.routes after.1.publication.routes entries ∧
      Covers services id names (fun rest => ∃ category ∈ categories, CategoryShape category rest)
        entries) ∧
    JsonObject.find? after.2.1 (bytes "description") =
      JsonObject.find? state.2.1 (bytes "description") := by
  constructor
  · obtain ⟨entries, hextends, hall⟩ := foldlM_extends (fun state => state.1.publication.routes)
      (fun category _ _ _ hstep => (describeCategory_covers hspec hlen hstep).1) h
    exact ⟨entries.flatten, hextends, Covers.flatten hall⟩
  · induction categories generalizing state with
    | nil =>
        cases h
        rfl
    | cons category rest ih =>
        rw [List.foldlM_cons, bind_eq_ok] at h
        obtain ⟨next, hnext, hrest⟩ := h
        rw [ih hrest, (describeCategory_covers hspec hlen hnext).2]

theorem summary_description {name description href : Bytes} {result : JsonObject}
    (h : summary name description href = .ok result) :
    JsonObject.find? result (bytes "description") = some (.string description) := by
  unfold summary at h
  split at h
  · cases h
    rfl
  · cases h

/-- The root of a service is its only address without a category. -/
theorem serviceShape_iff {rest : List Bytes} {target : Target}
    (haddress : Addresses services id rest target) :
    ((∃ category ∈ Category.all, CategoryShape category rest) ∨ rest = []) ↔ True := by
  refine iff_true_intro ?_
  have hall : ∀ category : Category, category ∈ Category.all := by
    intro category
    cases category <;> decide
  rcases haddress.shape with ⟨rfl, -⟩ | ⟨other, ⟨rfl, -⟩ | ⟨name, more, rfl⟩⟩
  · exact .inr rfl
  · exact .inl ⟨other, hall other, rfl⟩
  · exact .inl ⟨other, hall other, rfl⟩

theorem service_covers (hlen : (render names).length ≤ 4096) {resource : Resource Codec}
    (hpresents : Presents services resource (.service id)) :
    Covers services id names (fun rest => rest = []) [(render names, resource)] := by
  refine Covers.single .service rfl ?_ (by simp) (by simp) (by unfold routeLimit; omega) hpresents
  rintro other target rfl haddress
  rcases haddress.shape with ⟨-, htarget⟩ | ⟨other, ⟨hlist, -⟩ | ⟨_, _, hlist⟩⟩
  · exact ⟨rfl, htarget⟩
  · cases hlist
  · cases hlist

theorem describeService_covers [PortReader Codec] (fuel : Nat) :
    DescribeSpec services (model.describeService services fuel) := by
  induction fuel with
  | zero =>
      intro staging service name names result _ h
      cases h
  | succ fuel ih =>
      intro staging service name names result hlen h
      cases service with
      | none => cases h
      | some id =>
          unfold describeService at h
          split at h
          next => cases h
          next =>
            obtain ⟨description, hsummary, h⟩ := bind_eq_ok.mp h
            obtain ⟨⟨after, members, allTypes⟩, hfold, h⟩ := bind_eq_ok.mp h
            obtain ⟨publication, hinsert, h⟩ := bind_eq_ok.mp h
            cases h
            obtain ⟨⟨entries, hextends, hcovers⟩, hdoc⟩ := describeCategories_covers ih hlen hfold
            refine ⟨id, _, rfl, hextends.trans (insert_extends hinsert), ?_⟩
            refine (hcovers.append (service_covers hlen ⟨rfl, _, rfl, ?_⟩)).congr
              fun rest target => serviceShape_iff
            rw [JsonObject.find?_set_ne _ (by decide), hdoc, summary_description hsummary]

end ObjectModel

end RttHttp.Model
