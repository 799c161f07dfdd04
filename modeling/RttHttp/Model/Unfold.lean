import RttHttp.Model.Shape

/-! # Unfolding a graph of services

Services may share children and may lead back to themselves. Each chain of children
from the root is described under a route of its own, and publication fails when a
chain meets a null service, a service above itself, or more than 64 levels.
-/

namespace RttHttp.Model

open Route (slash childPath encodeSegment render validName)

variable {Codec : Type}

/-! ## Chains -/

/-- A chain of children: their names, the services above the last one, and the last
one. -/
inductive Chain (services : Nat → Service) :
    Option Nat → (names : List Bytes) → (above : List Nat) → (last : Option Nat) → Prop
  | here {service : Option Nat} : Chain services service [] [] service
  | child {id : Nat} {name : Bytes} {names : List Bytes} {above : List Nat} {last : Option Nat}
      (hname : name ∈ (services id).providerNames) (hthis : name ≠ bytes "this")
      (hrest : Chain services ((services id).getService name) names above last) :
      Chain services (some id) (name :: names) (id :: above) last

/-- A chain meets a null service, a service above itself, or has too many levels. -/
def Faulty (services : Nat → Service) (ancestry : List Nat) (levels : Nat)
    (service : Option Nat) : Prop :=
  ∃ names above last, Chain services service names above last ∧
    (last = none ∨ (∃ id, last = some id ∧ (id ∈ above ∨ id ∈ ancestry)) ∨ levels ≤ above.length)

section Faulty

variable {services : Nat → Service} {ancestry : List Nat} {levels : Nat}

theorem faulty_zero (service : Option Nat) : Faulty services ancestry 0 service :=
  ⟨[], [], service, .here, .inr (.inr (Nat.zero_le _))⟩

theorem faulty_none : Faulty services ancestry levels none :=
  ⟨[], [], none, .here, .inl rfl⟩

/-- A fault is the service itself or lies below one of its children. -/
theorem faulty_succ_iff {id : Nat} :
    Faulty services ancestry (levels + 1) (some id) ↔
      id ∈ ancestry ∨ ∃ name ∈ (services id).providerNames, name ≠ bytes "this" ∧
        Faulty services (id :: ancestry) levels ((services id).getService name) := by
  constructor
  · rintro ⟨names, above, last, hchain, hfault⟩
    cases hchain with
    | here =>
        rcases hfault with hnone | ⟨other, hother, habove | hancestry⟩ | hlevels
        · cases hnone
        · cases habove
        · cases hother
          exact .inl hancestry
        · cases hlevels
    | child hname hthis hrest =>
        refine .inr ⟨_, hname, hthis, _, _, last, hrest, ?_⟩
        rcases hfault with hnone | ⟨other, hother, habove | hancestry⟩ | hlevels
        · exact .inl hnone
        · refine .inr (.inl ⟨other, hother, ?_⟩)
          rcases List.mem_cons.mp habove with rfl | hrest
          · exact .inr List.mem_cons_self
          · exact .inl hrest
        · exact .inr (.inl ⟨other, hother, .inr (List.mem_cons_of_mem _ hancestry)⟩)
        · exact .inr (.inr (Nat.le_of_succ_le_succ hlevels))
  · rintro (hancestry | ⟨name, hname, hthis, names, above, last, hchain, hfault⟩)
    · exact ⟨[], [], some id, .here, .inr (.inl ⟨id, rfl, .inr hancestry⟩)⟩
    · refine ⟨_, _, last, .child hname hthis hchain, ?_⟩
      rcases hfault with hnone | ⟨other, hother, habove | hancestry⟩ | hlevels
      · exact .inl hnone
      · exact .inr (.inl ⟨other, hother, .inl (List.mem_cons_of_mem _ habove)⟩)
      · refine .inr (.inl ⟨other, hother, ?_⟩)
        rcases List.mem_cons.mp hancestry with rfl | hold
        · exact .inl List.mem_cons_self
        · exact .inr hold
      · exact .inr (.inr (Nat.succ_le_succ hlevels))

end Faulty

/-! ## What can be described -/

namespace ObjectModel

/-- Everything about a service can be described, its children apart. -/
structure Describable (service : Service) : Prop where
  doc : validUtf8 service.doc = true
  valid : ∀ category, ∀ name ∈ memberNames service category, validName name = true
  distinct : ∀ category, (memberNames service category).Nodup
  properties : ∀ name ∈ service.propertyNames, ∃ property source,
    service.getProperty name = some property ∧ property.source = some source ∧
      validUtf8 property.description = true
  attributes : ∀ name ∈ service.attributeNames, ∃ value source,
    service.getValue name = some value ∧ value.source = some source
  operations : ∀ name ∈ service.operationNames, ∃ part,
    service.getOperation name = some part ∧ validUtf8 part.description = true ∧
      ∀ i < part.arity, validUtf8 (argumentName part i) = true ∧
        validUtf8 ((part.argumentList[i]?.map (·.description)).getD []) = true
  ports : ∀ name ∈ service.portNames, ∃ port, service.getPort name = some port ∧
    port.output ≠ port.input ∧ validUtf8 port.description = true ∧ port.connects = true

/-- The address of a chain of children. -/
def address (chain : List Bytes) : List Bytes :=
  chain.flatMap fun name => [Category.text .services, name]

/-- No route down to the given number of levels is too long. -/
structure Short (services : Nat → Service) (levels : Nat) (service : Option Nat)
    (names : List Bytes) : Prop where
  chains : ∀ chain above last, Chain services service chain above last → chain.length ≤ levels →
    (render (names ++ address chain)).length ≤ 4096
  members : ∀ chain above id category name, Chain services service chain above (some id) →
    chain.length < levels → category ≠ .services → name ∈ memberNames (services id) category →
    (render (names ++ address chain ++ [category.text, name])).length ≤ 4096

section Short

variable {services : Nat → Service} {levels : Nat} {id : Nat} {names : List Bytes}

theorem address_cons (name : Bytes) (chain : List Bytes) :
    address (name :: chain) = [Category.text .services, name] ++ address chain := rfl

theorem Short.here {service : Option Nat} (h : Short services levels service names) :
    (render names).length ≤ 4096 := by
  have hlen := h.chains [] [] service .here (Nat.zero_le _)
  rwa [address, List.flatMap_nil, List.append_nil] at hlen

theorem Short.own (h : Short services (levels + 1) (some id) names) {category : Category}
    (hcategory : category ≠ .services) {name : Bytes}
    (hname : name ∈ memberNames (services id) category) :
    (render (names ++ [category.text, name])).length ≤ 4096 := by
  have hlen := h.members [] [] id category name .here (Nat.zero_lt_succ _) hcategory hname
  rwa [address, List.flatMap_nil, List.append_nil] at hlen

theorem Short.child (h : Short services (levels + 1) (some id) names) {name : Bytes}
    (hname : name ∈ (services id).providerNames) (hthis : name ≠ bytes "this") :
    Short services levels ((services id).getService name)
      (names ++ [Category.text .services, name]) where
  chains chain above last hchain hlevels := by
    have hlen := h.chains _ _ last (.child hname hthis hchain) (Nat.succ_le_succ hlevels)
    rwa [address_cons, ← List.append_assoc] at hlen
  members chain above other category member hchain hlevels hcategory hmember := by
    have hlen := h.members _ _ other category member (.child hname hthis hchain)
      (Nat.succ_lt_succ hlevels) hcategory hmember
    rwa [address_cons, ← List.append_assoc names] at hlen

end Short

end ObjectModel

/-! ## Routes that are still free -/

/-- No route is at or below the given names. -/
def Free (routes : List (Bytes × Resource Codec)) (names : List Bytes) : Prop :=
  ∀ entry ∈ routes, ∀ rest, entry.1 ≠ render (names ++ rest)

/-- Routes of the given shape were entered below the given names. -/
def Below (names : List Bytes) (shape : List Bytes → Prop)
    (before after : List (Bytes × Resource Codec)) : Prop :=
  ∃ entries, after = before ++ entries ∧
    ∀ entry ∈ entries, ∃ rest, shape rest ∧ entry.1 = render (names ++ rest)

section Routes

variable {before mid after : List (Bytes × Resource Codec)} {names target : List Bytes}
  {shape other : List Bytes → Prop}

theorem Below.refl (routes : List (Bytes × Resource Codec)) : Below names shape routes routes :=
  ⟨[], (List.append_nil routes).symm, by simp⟩

theorem Below.mono (h : Below names shape before after) (hshape : ∀ rest, shape rest → other rest) :
    Below names other before after := by
  obtain ⟨entries, heq, hentries⟩ := h
  refine ⟨entries, heq, fun entry hentry => ?_⟩
  obtain ⟨rest, hrest, hpath⟩ := hentries entry hentry
  exact ⟨rest, hshape rest hrest, hpath⟩

theorem Below.trans (hfirst : Below names shape before mid) (hsecond : Below names shape mid after) :
    Below names shape before after := by
  obtain ⟨first, rfl, hentries⟩ := hfirst
  obtain ⟨second, rfl, hothers⟩ := hsecond
  exact ⟨first ++ second, List.append_assoc .., List.forall_mem_append.mpr ⟨hentries, hothers⟩⟩

theorem Below.snoc (h : Below names shape before after) (target : List Bytes)
    (hshape : shape target) (resource : Resource Codec) :
    Below names shape before (after ++ [(render (names ++ target), resource)]) :=
  h.trans ⟨_, rfl, List.forall_mem_singleton.mpr ⟨target, hshape, rfl⟩⟩

theorem Covers.below {services : Nat → Service} {id : Nat} {entries : List (Bytes × Resource Codec)}
    (h : Covers services id names shape entries) (hextends : Extends before after entries) :
    Below names shape before after := by
  refine ⟨entries, hextends.eq, fun entry hentry => ?_⟩
  obtain ⟨rest, -, hshape, -, -, hpath, -⟩ := h.sound entry hentry
  exact ⟨rest, hshape, hpath⟩

/-- Names that no entered route has in front stay free. -/
theorem Free.below (hfree : Free before names) (h : Below names shape before after)
    (hshape : ∀ rest, ¬ shape (target ++ rest)) : Free after (names ++ target) := by
  obtain ⟨entries, rfl, hentries⟩ := h
  intro entry hentry rest
  rw [List.append_assoc]
  rcases List.mem_append.mp hentry with hold | hnew
  · exact hfree entry hold (target ++ rest)
  · obtain ⟨found, hfound, hpath⟩ := hentries entry hnew
    rw [hpath]
    intro heq
    rw [List.append_cancel_left (Route.render_injective heq)] at hfound
    exact hshape rest hfound

theorem Below.lookup (h : Below names shape before after) (hfree : Free before names)
    (target : List Bytes) (hshape : ¬ shape target) : after.lookup (render (names ++ target)) = none := by
  obtain ⟨entries, rfl, hentries⟩ := h
  rw [List.lookup_eq_none_iff]
  intro entry hentry
  rcases List.mem_append.mp hentry with hold | hnew
  · simpa using (hfree entry hold target).symm
  · obtain ⟨found, hfound, hpath⟩ := hentries entry hnew
    rw [hpath]
    have hne : render (names ++ target) ≠ render (names ++ found) := by
      intro heq
      rw [← List.append_cancel_left (Route.render_injective heq)] at hfound
      exact hshape hfound
    simpa using hne

theorem Free.lookup (hfree : Free before names) (rest : List Bytes) :
    before.lookup (render (names ++ rest)) = none := by
  rw [List.lookup_eq_none_iff]
  intro entry hentry
  simpa using (hfree entry hentry rest).symm

end Routes

/-! ## Members -/

theorem childPath_render {names : List Bytes} {category : Category} {name : Bytes}
    (hname : validName name = true)
    (hlen : (render (names ++ [category.text, name])).length ≤ 4096) :
    childPath (render names ++ slash :: category.text) name =
      .ok (render (names ++ [category.text, name])) := by
  rw [render_member] at hlen ⊢
  rw [childPath, if_pos hname]
  exact if_neg (Nat.not_lt.mpr hlen)

theorem summary_ok {description : Bytes} (h : validUtf8 description = true) (name href : Bytes) :
    ∃ metadata, summary name description href = .ok metadata :=
  ⟨_, if_pos h⟩

theorem insert_ok {publication : Publication Codec} {path : Bytes}
    (h : publication.routes.lookup path = none) (resource : Resource Codec) :
    insert publication path resource =
      .ok { publication with routes := publication.routes ++ [(path, resource)] } := by
  rw [insert, h]
  rfl

namespace ObjectModel

variable {model : ObjectModel Codec} {services : Nat → Service} {id : Nat} {names : List Bytes}
  {listing : Listing Codec} {name : Bytes}

theorem describeValue_ok {category : Category} {source : DataSource} {doc : Bytes}
    {member : Bytes → Except String (Option DataSource × Bytes)} (hname : validName name = true)
    (hlen : (render (names ++ [category.text, name])).length ≤ 4096)
    (hmember : member name = .ok (some source, doc)) (hdoc : validUtf8 doc = true)
    (hfree : Free listing.publication.routes (names ++ [category.text, name])) :
    ∃ next, model.describeValue category.text (render names) member listing name = .ok next := by
  have hlookup := hfree.lookup []
  rw [List.append_nil] at hlookup
  obtain ⟨metadata, hsummary⟩ := summary_ok hdoc name (render (names ++ [category.text, name]))
  exact ⟨_, bind_eq_ok.mpr ⟨_, childPath_render hname hlen, bind_eq_ok.mpr ⟨_, hmember,
    bind_eq_ok.mpr ⟨_, hsummary, bind_eq_ok.mpr ⟨_, insert_ok (by exact hlookup) _, rfl⟩⟩⟩⟩⟩

theorem describeArguments_ok (model : ObjectModel Codec) {part : OperationPart} {indices : List Nat}
    (hvalid : ∀ i ∈ indices, validUtf8 (argumentName part i) = true ∧
      validUtf8 ((part.argumentList[i]?.map (·.description)).getD []) = true)
    (signature : Signature Codec) :
    ∃ result, indices.foldlM (model.describeArgument part) signature = .ok result := by
  induction indices generalizing signature with
  | nil => exact ⟨signature, rfl⟩
  | cons i rest ih =>
      obtain ⟨⟨hargument, hdoc⟩, hrest⟩ := List.forall_mem_cons.mp hvalid
      obtain ⟨next, hnext⟩ : ∃ next, model.describeArgument part signature i = .ok next := by
        rw [describeArgument_eq, hargument, hdoc]
        simp only [Bool.not_true, Bool.or_self, Bool.false_eq_true, if_false]
        split
        · exact ⟨_, rfl⟩
        · exact ⟨_, rfl⟩
      rw [List.foldlM_cons, hnext]
      exact ih hrest next

theorem describeOperation_ok {part : OperationPart} (hname : validName name = true)
    (hlen : (render (names ++ [Category.text .operations, name])).length ≤ 4096)
    (hpart : (services id).getOperation name = some part)
    (hdoc : validUtf8 part.description = true)
    (hvalid : ∀ i < part.arity, validUtf8 (argumentName part i) = true ∧
      validUtf8 ((part.argumentList[i]?.map (·.description)).getD []) = true)
    (hfree : Free listing.publication.routes (names ++ [Category.text .operations, name])) :
    ∃ next, model.describeOperation id (services id) (render names) listing name = .ok next := by
  have hlookup := hfree.lookup []
  rw [List.append_nil] at hlookup
  obtain ⟨metadata, hsummary⟩ := summary_ok hdoc name
    (render (names ++ [Category.text .operations, name]))
  obtain ⟨signature, hsignature⟩ := describeArguments_ok model
    (fun i hi => hvalid i (List.mem_range.mp hi)) { referenced := listing.referenced }
  unfold describeOperation
  rw [hpart]
  exact ⟨_, bind_eq_ok.mpr ⟨_, childPath_render hname hlen, bind_eq_ok.mpr ⟨_, hsummary,
    bind_eq_ok.mpr ⟨_, hsignature, bind_eq_ok.mpr ⟨_, insert_ok (by exact hlookup) _, rfl⟩⟩⟩⟩⟩

theorem describePort_ok [PortReader Codec] {port : Port} (hname : validName name = true)
    (hlen : (render (names ++ [Category.text .ports, name])).length ≤ 4096)
    (hport : (services id).getPort name = some port) (hdirection : port.output ≠ port.input)
    (hdoc : validUtf8 port.description = true) (hconnects : port.connects = true)
    (hfree : Free listing.publication.routes (names ++ [Category.text .ports, name])) :
    ∃ next, model.describePort (services id) (render names) listing name = .ok next := by
  have hlookup : ∀ suffix : String, encodeSegment (bytes suffix) = bytes suffix →
      listing.publication.routes.lookup
        (render (names ++ [Category.text .ports, name]) ++ slash :: bytes suffix) = none := by
    intro suffix hsuffix
    rw [← render_suffix _ _ hsuffix]
    exact hfree.lookup [bytes suffix]
  obtain ⟨metadata, hsummary⟩ := summary_ok hdoc name
    (render (names ++ [Category.text .ports, name]))
  have hpath : childPath (render names ++ slash :: bytes "ports") name =
      .ok (render (names ++ [Category.text .ports, name])) := childPath_render hname hlen
  have hroute : listing.publication.routes.lookup (render (names ++ [Category.text .ports, name]) ++
      slash :: bytes (if port.input then "samples" else "latest")) = none := by
    split
    · exact hlookup _ (by decide)
    · exact hlookup _ (by decide)
  unfold describePort
  rw [hport]
  simp only [hpath, hsummary, hdirection, hconnects, bind, Except.bind, if_false, Bool.not_true,
    Bool.false_eq_true]
  split
  · exact ⟨_, bind_eq_ok.mpr ⟨_, insert_ok (by exact hroute) _, rfl⟩⟩
  · exact ⟨_, rfl⟩

/-- The step of the loop over a category. -/
def describeMember [PortReader Codec] (model : ObjectModel Codec) (services : Nat → Service)
    (describe : Staging Codec → Option Nat → Bytes → Bytes →
      Except String (Staging Codec × JsonObject))
    (id : Nat) (path : Bytes) : Category → Listing Codec → Bytes → Except String (Listing Codec)
  | .services => describeChild services describe (services id) path
  | .properties => model.describeValue (bytes "properties") path (propertyMember (services id))
  | .attributes => model.describeValue (bytes "attributes") path (attributeMember (services id))
  | .operations => model.describeOperation id (services id) path
  | .ports => model.describePort (services id) path

variable [PortReader Codec] {describe : Staging Codec → Option Nat → Bytes → Bytes →
  Except String (Staging Codec × JsonObject)}

theorem describeMembers_eq (path : Bytes) (category : Category) :
    model.describeMembers services describe id path listing category =
      (memberNames (services id) category).foldlM
        (model.describeMember services describe id path category) listing := by
  cases category <;> rfl

/-- A member that is not a service is described. -/
theorem describeMember_ok (model : ObjectModel Codec)
    (describe : Staging Codec → Option Nat → Bytes → Bytes →
      Except String (Staging Codec × JsonObject))
    (hservice : Describable (services id)) {category : Category}
    (hcategory : category ≠ .services) (hname : name ∈ memberNames (services id) category)
    (hlen : (render (names ++ [category.text, name])).length ≤ 4096)
    (hfree : Free listing.publication.routes (names ++ [category.text, name])) :
    ∃ next, model.describeMember services describe id (render names) category listing name =
      .ok next := by
  have hvalid := hservice.valid category name hname
  cases category with
  | services => exact absurd rfl hcategory
  | properties =>
      obtain ⟨property, source, hproperty, hsource, hdoc⟩ := hservice.properties name hname
      have hmember : propertyMember (services id) name = .ok (some source, property.description) := by
        rw [propertyMember, hproperty, ← hsource]
      exact describeValue_ok hvalid hlen hmember hdoc hfree
  | attributes =>
      obtain ⟨value, source, hvalue, hsource⟩ := hservice.attributes name hname
      have hmember : attributeMember (services id) name = .ok (some source, []) := by
        rw [attributeMember, hvalue, ← hsource]
      exact describeValue_ok hvalid hlen hmember (by decide) hfree
  | operations =>
      obtain ⟨part, hpart, hdoc, harguments⟩ := hservice.operations name hname
      exact describeOperation_ok hvalid hlen hpart hdoc harguments hfree
  | ports =>
      obtain ⟨port, hport, hdirection, hdoc, hconnects⟩ := hservice.ports name hname
      exact describePort_ok hvalid hlen hport hdirection hdoc hconnects hfree

variable {next : Listing Codec}

theorem describeMember_covers (hspec : DescribeSpec services describe) {category : Category}
    (hname : name ∈ memberNames (services id) category)
    (h : model.describeMember services describe id (render names) category listing name = .ok next) :
    ∃ entries, Extends listing.publication.routes next.publication.routes entries ∧
      MemberSpec services id names category name entries := by
  cases category with
  | services => exact describeChild_covers hspec hname h
  | properties => exact describeProperty_covers hname h
  | attributes => exact describeAttribute_covers hname h
  | operations => exact describeOperation_covers hname h
  | ports => exact describePort_covers hname h

/-! ## The services above -/

/-- Describing a service leaves the services above it as they were. -/
def Restores (describe : Staging Codec → Option Nat → Bytes → Bytes →
    Except String (Staging Codec × JsonObject)) : Prop :=
  ∀ staging service name path result, describe staging service name path = .ok result →
    result.1.ancestry = staging.ancestry

omit [PortReader Codec] in
theorem insert_ancestry {path : Bytes} {resource : Resource Codec}
    (h : listing.insert path resource = .ok next) : next.ancestry = listing.ancestry := by
  obtain ⟨publication, -, hnext⟩ := bind_eq_ok.mp h
  cases hnext
  rfl

omit [PortReader Codec] in
theorem describeValue_ancestry {category path : Bytes}
    {member : Bytes → Except String (Option DataSource × Bytes)}
    (h : model.describeValue category path member listing name = .ok next) :
    next.ancestry = listing.ancestry := by
  obtain ⟨href, -, h⟩ := bind_eq_ok.mp h
  obtain ⟨⟨source, doc⟩, -, h⟩ := bind_eq_ok.mp h
  cases source with
  | none => cases h
  | some source =>
      obtain ⟨metadata, -, h⟩ := bind_eq_ok.mp h
      have hinsert := insert_ancestry h
      exact hinsert

omit [PortReader Codec] in
theorem describeOperation_ancestry {service : Service} {path : Bytes}
    (h : model.describeOperation id service path listing name = .ok next) :
    next.ancestry = listing.ancestry := by
  obtain ⟨href, -, h⟩ := bind_eq_ok.mp h
  cases hpart : service.getOperation name with
  | none =>
      rw [hpart] at h
      cases h
  | some part =>
      rw [hpart] at h
      obtain ⟨metadata, -, h⟩ := bind_eq_ok.mp h
      obtain ⟨signature, -, h⟩ := bind_eq_ok.mp h
      have hinsert := insert_ancestry h
      exact hinsert

theorem describePort_ancestry {service : Service} {path : Bytes}
    (h : model.describePort service path listing name = .ok next) :
    next.ancestry = listing.ancestry := by
  obtain ⟨base, -, h⟩ := bind_eq_ok.mp h
  cases hport : service.getPort name with
  | none =>
      rw [hport] at h
      cases h
  | some port =>
      rw [hport] at h
      simp only at h
      split at h
      next => cases h
      next =>
        obtain ⟨metadata, -, h⟩ := bind_eq_ok.mp h
        split at h
        next => cases h
        next =>
          split at h
          next =>
            have hinsert := insert_ancestry h
            exact hinsert
          next =>
            cases h
            rfl

omit [PortReader Codec] in
theorem describeChild_ancestry (hspec : Restores describe) {service : Service} {path : Bytes}
    (h : describeChild services describe service path listing name = .ok next) :
    next.ancestry = listing.ancestry := by
  unfold describeChild at h
  split at h
  next =>
    cases h
    rfl
  next =>
    obtain ⟨href, -, h⟩ := bind_eq_ok.mp h
    obtain ⟨⟨staging, description⟩, hdescribe, h⟩ := bind_eq_ok.mp h
    have hancestry := hspec _ _ _ _ _ hdescribe
    cases hchild : service.getService name with
    | none =>
        rw [hchild] at h
        cases h
    | some child =>
        rw [hchild] at h
        obtain ⟨item, -, h⟩ := bind_eq_ok.mp h
        cases h
        exact hancestry

theorem describeMember_ancestry (hspec : Restores describe) {path : Bytes} {category : Category}
    (h : model.describeMember services describe id path category listing name = .ok next) :
    next.ancestry = listing.ancestry := by
  cases category with
  | services => exact describeChild_ancestry hspec h
  | properties => exact describeValue_ancestry h
  | attributes => exact describeValue_ancestry h
  | operations => exact describeOperation_ancestry h
  | ports => exact describePort_ancestry h

theorem describeMembers_ancestry (hspec : Restores describe) {path : Bytes} {category : Category}
    (h : model.describeMembers services describe id path listing category = .ok next) :
    next.ancestry = listing.ancestry := by
  rw [describeMembers_eq] at h
  refine foldlM_invariant (p := fun state => state.ancestry = listing.ancestry) ?_ rfl h
  intro name _ state after hstate hafter
  rw [describeMember_ancestry hspec hafter, hstate]

theorem describeCategory_ancestry (hspec : Restores describe) {path : Bytes} {category : Category}
    {state after : Staging Codec × JsonObject × List Bytes}
    (h : model.describeCategory services describe id path state category = .ok after) :
    after.1.ancestry = state.1.ancestry := by
  obtain ⟨listing, hmembers, h⟩ := bind_eq_ok.mp h
  obtain ⟨publication, -, h⟩ := bind_eq_ok.mp h
  cases h
  exact describeMembers_ancestry hspec hmembers

/-- The services above are restored on every normal return. -/
theorem describeService_ancestry (fuel : Nat) : Restores (model.describeService services fuel) := by
  induction fuel with
  | zero =>
      intro staging service name path result h
      cases h
  | succ fuel ih =>
      intro staging service name path result h
      cases service with
      | none => cases h
      | some id =>
          unfold describeService at h
          split at h
          next => cases h
          next =>
            obtain ⟨description, -, h⟩ := bind_eq_ok.mp h
            obtain ⟨⟨after, members, allTypes⟩, hfold, h⟩ := bind_eq_ok.mp h
            obtain ⟨publication, -, h⟩ := bind_eq_ok.mp h
            cases h
            have hafter : after.ancestry = id :: staging.ancestry :=
              foldlM_invariant (p := fun state : Staging Codec × JsonObject × List Bytes =>
                state.1.ancestry = id :: staging.ancestry)
                (fun _ _ _ _ hstate hstep => (describeCategory_ancestry ih hstep).trans hstate) rfl
                hfold
            rw [hafter, List.erase_cons_head]

/-! ## Success and failure -/

/-- A computation fails with the graph error exactly when there is a fault. -/
def Settles {σ : Type} (computed : Except String σ) (fault : Prop) (good : σ → Prop) : Prop :=
  (∃ result, computed = .ok result ∧ ¬ fault ∧ good result) ∨ (computed = .error graphError ∧ fault)

section Settles

variable {ι σ τ : Type} {fault : Prop} {good : σ → Prop}

omit [PortReader Codec] in
theorem Settles.bind {computed : Except String σ} {f : σ → Except String τ} {goal : τ → Prop}
    (h : Settles computed fault good) (hf : ∀ result, good result →
      ∃ value, f result = .ok value ∧ goal value) : Settles (computed >>= f) fault goal := by
  rcases h with ⟨result, rfl, hfine, hgood⟩ | ⟨rfl, hfault⟩
  · obtain ⟨value, hvalue, hgoal⟩ := hf result hgood
    exact .inl ⟨value, hvalue, hfine, hgoal⟩
  · exact .inr ⟨rfl, hfault⟩

omit [PortReader Codec] in
theorem Settles.congr {computed : Except String σ} {other : Prop} (h : Settles computed fault good)
    (hsame : fault ↔ other) : Settles computed other good := propext hsame ▸ h

omit [PortReader Codec] in
/-- A loop fails at the first element with a fault. -/
theorem Settles.foldlM {f : σ → ι → Except String σ} {fault : ι → Prop} {p : List ι → σ → Prop}
    {xs : List ι}
    (hstep : ∀ done x rest state, xs = done ++ x :: rest → p done state →
      Settles (f state x) (fault x) (p (done ++ [x])))
    {state : σ} (hstate : p [] state) :
    Settles (xs.foldlM f state) (∃ x ∈ xs, fault x) (p xs) := by
  have hloop : ∀ rest done state, xs = done ++ rest → p done state →
      Settles (rest.foldlM f state) (∃ x ∈ rest, fault x) (p xs) := by
    intro rest
    induction rest with
    | nil =>
        intro done state hxs hstate
        rw [List.append_nil] at hxs
        exact .inl ⟨state, rfl, by simp, hxs ▸ hstate⟩
    | cons x rest ih =>
        intro done state hxs hstate
        rw [List.foldlM_cons]
        rcases hstep done x rest state hxs hstate with ⟨next, hnext, hfine, hp⟩ | ⟨herror, hfault⟩
        · rw [hnext]
          have hsame : (∃ y ∈ x :: rest, fault y) ↔ ∃ y ∈ rest, fault y := by simp [hfine]
          rw [hsame]
          refine ih (done ++ [x]) next ?_ hp
          rw [hxs, List.append_assoc]
          rfl
        · rw [herror]
          exact .inr ⟨rfl, x, List.mem_cons_self, hfault⟩
  exact hloop xs [] state rfl hstate

end Settles

/-- Describing a service that has enough room fails exactly on a fault. -/
def SettleSpec (services : Nat → Service) (levels : Nat)
    (describe : Staging Codec → Option Nat → Bytes → Bytes →
      Except String (Staging Codec × JsonObject)) : Prop :=
  ∀ staging service name names, Short services levels service names →
    Free staging.publication.routes names →
    Settles (describe staging service name (render names))
      (Faulty services staging.ancestry levels service) fun _ => True

/-- A child with a fault below it. -/
def FaultyChild (services : Nat → Service) (ancestry : List Nat) (levels : Nat) (id : Nat)
    (name : Bytes) : Prop :=
  name ≠ bytes "this" ∧ Faulty services ancestry levels ((services id).getService name)

variable {levels : Nat}

omit [PortReader Codec] in
theorem describeChild_settles (hservices : ∀ id, Describable (services id))
    (hspec : SettleSpec services levels describe) (hname : name ∈ (services id).providerNames)
    (hshort : Short services (levels + 1) (some id) names)
    (hfree : Free listing.publication.routes (names ++ [Category.text .services, name])) :
    Settles (describeChild services describe (services id) (render names) listing name)
      (FaultyChild services listing.ancestry levels id name) fun _ => True := by
  unfold describeChild
  by_cases hthis : name = bytes "this"
  · rw [if_pos hthis]
    exact .inl ⟨listing, rfl, fun hfault => hfault.1 hthis, trivial⟩
  · rw [if_neg hthis]
    have hchild := hshort.child hname hthis
    have hvalid : validName name = true := (hservices id).valid .services name hname
    have hpath : childPath (render names ++ slash :: bytes "services") name =
        .ok (render (names ++ [Category.text .services, name])) :=
      childPath_render hvalid hchild.here
    have hsame : Faulty services listing.ancestry levels ((services id).getService name) ↔
        FaultyChild services listing.ancestry levels id name := by simp [FaultyChild, hthis]
    have hsettles := (hspec ⟨listing.publication, listing.ancestry⟩ _ name _ hchild hfree).congr hsame
    simp only [hpath]
    cases hget : (services id).getService name with
    | none =>
        rw [hget] at hsettles
        rcases hsettles with ⟨-, -, hfine, -⟩ | ⟨herror, hfault⟩
        · have hnull : FaultyChild services listing.ancestry levels id name := by
            rw [← hsame, hget]
            exact faulty_none
          exact absurd hnull hfine
        · exact .inr ⟨by simp only [bind, Except.bind, herror], hfault⟩
    | some child =>
        rw [hget] at hsettles
        refine hsettles.bind fun result _ => ?_
        obtain ⟨item, hitem⟩ := summary_ok (hservices child).doc name
          (render (names ++ [Category.text .services, name]))
        exact ⟨_, bind_eq_ok.mpr ⟨_, hitem, rfl⟩, trivial⟩

/-- The fault of a member: only children have one. -/
def MemberFault (services : Nat → Service) (ancestry : List Nat) (levels : Nat) (id : Nat)
    (category : Category) (name : Bytes) : Prop :=
  category = .services ∧ FaultyChild services ancestry levels id name

theorem describeMember_settles (model : ObjectModel Codec) (hservices : ∀ id, Describable (services id))
    (hspec : SettleSpec services levels describe) {category : Category}
    (hname : name ∈ memberNames (services id) category)
    (hshort : Short services (levels + 1) (some id) names)
    (hfree : Free listing.publication.routes (names ++ [category.text, name])) :
    Settles (model.describeMember services describe id (render names) category listing name)
      (MemberFault services listing.ancestry levels id category name) fun _ => True := by
  by_cases hcategory : category = .services
  · subst hcategory
    refine (describeChild_settles hservices hspec hname hshort hfree).congr ?_
    simp [MemberFault]
  · obtain ⟨next, hnext⟩ := describeMember_ok model describe (hservices id) hcategory hname
      (hshort.own hcategory hname) hfree
    exact .inl ⟨next, hnext, fun hfault => hcategory hfault.1, trivial⟩

/-- The loop over one category, which has no route yet. -/
theorem describeMembers_settles (hservices : ∀ id, Describable (services id))
    (hspec : SettleSpec services levels describe) (hcovers : DescribeSpec services describe)
    (hrestores : Restores describe) {category : Category}
    (hshort : Short services (levels + 1) (some id) names)
    {base : List (Bytes × Resource Codec)} {shape : List Bytes → Prop} (hfree : Free base names)
    (hbefore : Below names shape base listing.publication.routes)
    (hshape : ∀ rest, ¬ shape (category.text :: rest)) :
    Settles (model.describeMembers services describe id (render names) listing category)
      (∃ name ∈ memberNames (services id) category,
        MemberFault services listing.ancestry levels id category name)
      fun next => next.ancestry = listing.ancestry ∧
        Below names (fun rest => shape rest ∨
          ∃ name ∈ memberNames (services id) category, MemberShape category name rest)
          base next.publication.routes := by
  rw [describeMembers_eq]
  refine Settles.foldlM
    (p := fun done (state : Listing Codec) => state.ancestry = listing.ancestry ∧
      Below names (fun rest => shape rest ∨ ∃ name ∈ done, MemberShape category name rest)
        base state.publication.routes)
    ?_ ⟨rfl, hbefore.mono fun _ => .inl⟩
  rintro done name rest state hall ⟨hancestry, hbelow⟩
  have hname : name ∈ memberNames (services id) category := by
    rw [hall]
    exact List.mem_append_right _ List.mem_cons_self
  have hfresh : name ∉ done := by
    have hdistinct := (hservices id).distinct category
    rw [hall, List.nodup_append] at hdistinct
    exact fun hmem => hdistinct.2.2 name hmem name List.mem_cons_self rfl
  have hroom : Free state.publication.routes (names ++ [category.text, name]) := by
    refine hfree.below hbelow ?_
    rintro more (hold | ⟨other, hother, rest', heq⟩)
    · exact hshape _ hold
    · obtain ⟨-, rfl⟩ : category.text = category.text ∧ name = other := by
        simpa using And.intro (List.cons.inj heq).1 (List.cons.inj (List.cons.inj heq).2).1
      exact hfresh hother
  have hsettles := describeMember_settles model hservices hspec hname hshort hroom
  rw [hancestry] at hsettles
  rcases hsettles with ⟨next, hnext, hfine, -⟩ | ⟨herror, hfault⟩
  · refine .inl ⟨next, hnext, hfine, (describeMember_ancestry hrestores hnext).trans hancestry, ?_⟩
    obtain ⟨entries, hextends, hentries⟩ := describeMember_covers hcovers hname hnext
    refine (hbelow.mono ?_).trans ((hentries.below hextends).mono ?_)
    · rintro more (hold | ⟨other, hother, hmember⟩)
      · exact .inl hold
      · exact .inr ⟨other, List.mem_append_left _ hother, hmember⟩
    · exact fun more hmember => .inr ⟨name, List.mem_append_right _ List.mem_cons_self, hmember⟩
  · exact .inr ⟨herror, hfault⟩

/-- One category, with its listing. -/
theorem describeCategory_settles (model : ObjectModel Codec)
    (hservices : ∀ id, Describable (services id))
    (hspec : SettleSpec services levels describe) (hcovers : DescribeSpec services describe)
    (hrestores : Restores describe) (category : Category)
    (hshort : Short services (levels + 1) (some id) names)
    {base : List (Bytes × Resource Codec)} {shape : List Bytes → Prop} (hfree : Free base names)
    {state : Staging Codec × JsonObject × List Bytes}
    (hbefore : Below names shape base state.1.publication.routes)
    (hshape : ∀ rest, ¬ shape (category.text :: rest)) :
    Settles (model.describeCategory services describe id (render names) state category)
      (∃ name ∈ memberNames (services id) category,
        MemberFault services state.1.ancestry levels id category name)
      fun after => after.1.ancestry = state.1.ancestry ∧
        Below names (fun rest => shape rest ∨ CategoryShape category rest) base
          after.1.publication.routes := by
  refine (describeMembers_settles hservices hspec hcovers hrestores hshort hfree hbefore
    hshape).bind ?_
  rintro listing ⟨hancestry, hbelow⟩
  have htext : encodeSegment category.text = category.text := by cases category <;> decide
  have hlookup : listing.publication.routes.lookup (render names ++ slash :: category.text) = none := by
    rw [← render_suffix names category.text htext]
    refine hbelow.lookup hfree [category.text] ?_
    rintro (hold | ⟨name, -, more, heq⟩)
    · exact hshape [] hold
    · cases (List.cons.inj heq).2
  refine ⟨_, bind_eq_ok.mpr ⟨_, insert_ok hlookup _, rfl⟩, hancestry, ?_⟩
  have hcategory : Below names (fun rest => shape rest ∨ CategoryShape category rest) base
      listing.publication.routes := by
    refine hbelow.mono ?_
    rintro rest (hold | ⟨name, -, more, rfl⟩)
    · exact .inl hold
    · exact .inr rfl
  have hsnoc := hcategory.snoc [category.text] (.inr rfl)
  rw [render_suffix names category.text htext] at hsnoc
  exact hsnoc _

theorem nodup_categories : Category.all.Nodup := by decide

/-- The five categories of a service. -/
theorem describeCategories_settles (model : ObjectModel Codec)
    (hservices : ∀ id, Describable (services id))
    (hspec : SettleSpec services levels describe) (hcovers : DescribeSpec services describe)
    (hrestores : Restores describe) (hshort : Short services (levels + 1) (some id) names)
    (state : Staging Codec × JsonObject × List Bytes) (hfree : Free state.1.publication.routes names) :
    Settles (Category.all.foldlM (model.describeCategory services describe id (render names)) state)
      (∃ category ∈ Category.all, ∃ name ∈ memberNames (services id) category,
        MemberFault services state.1.ancestry levels id category name)
      fun after => Below names (fun rest => ∃ category ∈ Category.all, CategoryShape category rest)
        state.1.publication.routes after.1.publication.routes := by
  have hsettles : Settles
      (Category.all.foldlM (model.describeCategory services describe id (render names)) state)
      (∃ category ∈ Category.all, ∃ name ∈ memberNames (services id) category,
        MemberFault services state.1.ancestry levels id category name)
      fun after => after.1.ancestry = state.1.ancestry ∧
        Below names (fun rest => ∃ category ∈ Category.all, CategoryShape category rest)
          state.1.publication.routes after.1.publication.routes := by
    refine Settles.foldlM
      (p := fun done (after : Staging Codec × JsonObject × List Bytes) =>
        after.1.ancestry = state.1.ancestry ∧
        Below names (fun rest => ∃ category ∈ done, CategoryShape category rest)
          state.1.publication.routes after.1.publication.routes)
      ?_ ⟨rfl, .refl _⟩
    rintro done category rest mid hall ⟨hancestry, hbelow⟩
    have hfresh : category ∉ done := by
      have hdistinct := nodup_categories
      rw [hall, List.nodup_append] at hdistinct
      exact fun hmem => hdistinct.2.2 category hmem category List.mem_cons_self rfl
    have hstep := describeCategory_settles model hservices hspec hcovers hrestores category
      hshort hfree hbelow ?_
    · rw [hancestry] at hstep
      rcases hstep with ⟨next, hnext, hfine, hsame, hafter⟩ | ⟨herror, hfault⟩
      · refine .inl ⟨next, hnext, hfine, hsame, hafter.mono ?_⟩
        rintro more (⟨other, hother, hshape⟩ | hshape)
        · exact ⟨other, List.mem_append_left _ hother, hshape⟩
        · exact ⟨category, List.mem_append_right _ List.mem_cons_self, hshape⟩
      · exact .inr ⟨herror, hfault⟩
    · rintro more ⟨other, hother, hshape⟩
      obtain rfl := Category.text_injective (Option.some.inj hshape)
      exact hfresh hother
  rcases hsettles with ⟨after, hafter, hfine, -, hbelow⟩ | herror
  · exact .inl ⟨after, hafter, hfine, hbelow⟩
  · exact .inr herror

/-- A service fails exactly on a fault. -/
theorem describeService_settles (model : ObjectModel Codec)
    (hservices : ∀ id, Describable (services id)) (fuel : Nat) :
    SettleSpec services fuel (model.describeService services fuel) := by
  induction fuel with
  | zero =>
      intro staging service name names _ _
      exact .inr ⟨rfl, faulty_zero service⟩
  | succ fuel ih =>
      intro staging service name names hshort hfree
      cases service with
      | none => exact .inr ⟨rfl, faulty_none⟩
      | some id =>
          rw [describeService]
          by_cases hmem : id ∈ staging.ancestry
          · rw [if_pos hmem]
            exact .inr ⟨rfl, faulty_succ_iff.mpr (.inl hmem)⟩
          · rw [if_neg hmem]
            obtain ⟨description, hsummary⟩ := summary_ok (hservices id).doc name (render names)
            have hsettles := describeCategories_settles model hservices ih
              (describeService_covers fuel) (describeService_ancestry fuel) hshort
              (⟨staging.publication, id :: staging.ancestry⟩, description, []) hfree
            have hsame : (∃ category ∈ Category.all, ∃ name ∈ memberNames (services id) category,
                MemberFault services (id :: staging.ancestry) fuel id category name) ↔
                Faulty services staging.ancestry (fuel + 1) (some id) := by
              constructor
              · rintro ⟨category, -, child, hchild, rfl, hthis, hfault⟩
                exact faulty_succ_iff.mpr (.inr ⟨child, hchild, hthis, hfault⟩)
              · intro hfaulty
                obtain ⟨child, hchild, hthis, hfault⟩ := (faulty_succ_iff.mp hfaulty).resolve_left hmem
                exact ⟨.services, List.mem_cons_self, child, hchild, rfl, hthis, hfault⟩
            rw [hsummary]
            refine (hsettles.congr hsame).bind ?_
            rintro ⟨after, members, allTypes⟩ hbelow
            have hlookup : after.publication.routes.lookup (render names) = none := by
              have hnone := hbelow.lookup hfree [] ?_
              · rwa [List.append_nil] at hnone
              · rintro ⟨category, -, hshape⟩
                cases hshape
            exact ⟨_, bind_eq_ok.mpr ⟨_, insert_ok hlookup _, rfl⟩, trivial⟩

/-! ## Chains and addresses -/

omit [PortReader Codec] in
theorem address_injective {first second : List Bytes} (h : address first = address second) :
    first = second := by
  induction first generalizing second with
  | nil =>
      cases second with
      | nil => rfl
      | cons name rest => cases h
  | cons name rest ih =>
      cases second with
      | nil => cases h
      | cons other others =>
          rw [address_cons, address_cons] at h
          obtain ⟨-, htail⟩ := List.cons.inj h
          obtain ⟨hname, hrest⟩ := List.cons.inj htail
          rw [hname, ih hrest]

omit [PortReader Codec] in
/-- A service at the end of a chain is at the address of the chain. -/
theorem addresses_of_chain {service : Option Nat} {chain : List Bytes} {above : List Nat}
    {last : Option Nat} (h : Chain services service chain above last) {root : Nat}
    (hroot : service = some root) {target : Nat} (hlast : last = some target) :
    Addresses services root (address chain) (.service target) := by
  induction h generalizing root with
  | here =>
      cases hroot.symm.trans hlast
      exact .service
  | @child id name _ _ _ hname hthis hrest ih =>
      cases hroot
      cases hchild : (services id).getService name with
      | none =>
          rw [hchild] at hrest
          cases hrest
          cases hlast
      | some child => exact .child hname hthis hchild (ih hchild hlast)

omit [PortReader Codec] in
/-- Every address of a service is the address of a chain. -/
theorem chain_of_addresses {root : Nat} {rest : List Bytes} {target : Nat}
    (h : Addresses services root rest (.service target)) :
    ∃ chain above, rest = address chain ∧ Chain services (some root) chain above (some target) := by
  generalize hsame : Target.service target = object at h
  induction h with
  | service =>
      cases hsame
      exact ⟨[], [], rfl, .here⟩
  | child hname hthis hchild _ ih =>
      obtain ⟨chain, above, rfl, hrest⟩ := ih hsame
      exact ⟨_ :: chain, _ :: above, rfl, .child hname hthis (hchild ▸ hrest)⟩
  | _ => cases hsame

/-! ## The whole graph -/

/-- A graph of describable services is unfolded, unless a chain of children meets a null
service, a service above itself, or more than 64 levels. Every chain has its own route, and
the services above are restored on every normal return. -/
theorem service_graph_unfolds (model : ObjectModel Codec)
    (hservices : ∀ id, Describable (services id)) {service : Option Nat}
    (hshort : Short services 65 service names) {staging : Staging Codec}
    (hroot : staging.ancestry = []) (hfree : Free staging.publication.routes names)
    (name : Bytes) :
    ((∃ result,
        model.describeService services 65 staging service name (render names) = .ok result) ∨
      model.describeService services 65 staging service name (render names) =
        .error graphError) ∧
    (model.describeService services 65 staging service name (render names) = .error graphError ↔
      ∃ chain above last, Chain services service chain above last ∧
        (last = none ∨ (∃ id ∈ above, last = some id) ∨ 64 < above.length)) ∧
    (∀ result, model.describeService services 65 staging service name (render names) = .ok result →
      ∃ entries,
        Extends staging.publication.routes result.1.publication.routes entries ∧
        -- every chain has the route of its names, and no other chain has it
        (∀ chain above id, Chain services service chain above (some id) →
          ∃ resource, (render (names ++ address chain), resource) ∈ entries ∧
            Presents services resource (.service id)) ∧
        (∀ first second, render (names ++ address first) = render (names ++ address second) →
          first = second) ∧
        -- every service that is described is at the end of a chain
        ∀ entry ∈ entries, ∃ root rest target, service = some root ∧
          Addresses services root rest target ∧ entry.1 = render (names ++ rest) ∧
          Presents services entry.2 target ∧
          ∀ id, target = .service id → ∃ chain above, rest = address chain ∧
            Chain services service chain above (some id)) ∧
    ∀ levels (entered : Staging Codec) child childName path result,
      model.describeService services levels entered child childName path = .ok result →
      result.1.ancestry = entered.ancestry := by
  have hsettles := describeService_settles model hservices 65 staging service name names hshort hfree
  have hfaulty : Faulty services staging.ancestry 65 service ↔
      ∃ chain above last, Chain services service chain above last ∧
        (last = none ∨ (∃ id ∈ above, last = some id) ∨ 64 < above.length) := by
    simp only [Faulty, hroot, List.not_mem_nil, or_false, Nat.succ_le_iff, and_comm]
  refine ⟨?_, ?_, ?_, fun levels => describeService_ancestry levels⟩
  · rcases hsettles with ⟨result, hresult, -⟩ | ⟨herror, -⟩
    · exact .inl ⟨result, hresult⟩
    · exact .inr herror
  · rw [← hfaulty]
    rcases hsettles with ⟨result, hresult, hfine, -⟩ | ⟨herror, hfault⟩
    · rw [hresult]
      exact ⟨(fun h => nomatch h), fun h => absurd h hfine⟩
    · exact ⟨fun _ => hfault, fun _ => herror⟩
  · intro result hresult
    obtain ⟨root, entries, rfl, hextends, hcovers⟩ :=
      describeService_covers 65 staging service name names result hshort.here hresult
    refine ⟨entries, hextends, ?_, ?_, ?_⟩
    · intro chain above id hchain
      exact hcovers.complete _ _ trivial (addresses_of_chain hchain rfl rfl)
    · intro first second hequal
      exact address_injective (List.append_cancel_left (Route.render_injective hequal))
    · intro entry hentry
      obtain ⟨rest, target, -, haddress, -, hpath, -, hpresents⟩ := hcovers.sound entry hentry
      refine ⟨root, rest, target, rfl, haddress, hpath, hpresents, ?_⟩
      rintro id rfl
      exact chain_of_addresses haddress

/-- Two children that are one service. -/
def diamond : Nat → Service
  | 0 => { emptyService with
      providerNames := [bytes "this", bytes "left", bytes "right"]
      getService := fun _ => some 1 }
  | _ => emptyService

omit [PortReader Codec] in
theorem chain_diamond {chain : List Bytes} {above : List Nat} {last : Option Nat}
    (h : Chain diamond (some 0) chain above last) :
    (chain = [] ∧ above = [] ∧ last = some 0) ∨
      ((chain = [bytes "left"] ∨ chain = [bytes "right"]) ∧ above = [0] ∧ last = some 1) := by
  cases h with
  | here => exact .inl ⟨rfl, rfl, rfl⟩
  | child hname hthis hrest =>
      refine .inr ?_
      change Chain diamond (some 1) _ _ _ at hrest
      cases hrest with
      | here =>
          refine ⟨?_, rfl, rfl⟩
          rcases List.mem_cons.mp hname with rfl | hname
          · exact absurd rfl hthis
          · simpa using hname
      | child hnone => cases hnone

theorem describable_diamond (id : Nat) : Describable (diamond id) := by
  have hleaf : Describable emptyService := by
    refine ⟨by decide, ?_, ?_, ?_, ?_, ?_, ?_⟩
    · intro category name hname
      cases category <;> cases hname
    · intro category
      cases category <;> exact List.nodup_nil
    all_goals
      intro name hname
      cases hname
  cases id with
  | zero =>
      refine ⟨by decide, ?_, ?_, hleaf.properties, hleaf.attributes, hleaf.operations, hleaf.ports⟩
      · intro category
        cases category with
        | services => decide
        | _ => exact fun name hname => nomatch hname
      · intro category
        cases category with
        | services => decide
        | _ => exact List.nodup_nil
  | succ id => exact hleaf

theorem service_graph_unfolds_diamond :
    ∃ result, emptyModel.describeService diamond 65
        ⟨{ component := 0, service := some 0 }, []⟩ (some 0) (bytes "robot")
        (render [bytes "robot"]) = .ok result ∧
      (∃ resource, (render [bytes "robot", bytes "services", bytes "left"], resource) ∈
        result.1.publication.routes) ∧
      ∃ resource, (render [bytes "robot", bytes "services", bytes "right"], resource) ∈
        result.1.publication.routes := by
  have hshort : Short diamond 65 (some 0) [bytes "robot"] := by
    refine ⟨?_, ?_⟩
    · intro chain above last hchain _
      rcases chain_diamond hchain with ⟨rfl, -, -⟩ | ⟨rfl | rfl, -, -⟩ <;> decide
    · intro chain above id category name hchain _ hcategory hname
      have hnone : ∀ id, memberNames (diamond id) category = [] := by
        intro id
        cases category with
        | services => exact absurd rfl hcategory
        | _ => cases id <;> rfl
      rw [hnone] at hname
      cases hname
  have hfree : Free (⟨{ component := 0, service := some 0 }, []⟩ : Staging AnyCodec).publication.routes
      [bytes "robot"] := fun entry hentry => nomatch hentry
  obtain ⟨hreturns, hthrows, hroutes, -⟩ := service_graph_unfolds emptyModel describable_diamond
    hshort rfl hfree (bytes "robot")
  rcases hreturns with ⟨result, hresult⟩ | herror
  · obtain ⟨entries, hextends, hchains, -⟩ := hroutes result hresult
    have hleaf : ∀ name, name = bytes "left" ∨ name = bytes "right" →
        ∃ resource, (render [bytes "robot", bytes "services", name], resource) ∈
          result.1.publication.routes := by
      intro name hname
      have hthis : name ≠ bytes "this" := by rcases hname with rfl | rfl <;> decide
      have hmem : name ∈ (diamond 0).providerNames := by rcases hname with rfl | rfl <;> decide
      obtain ⟨resource, hentry, -⟩ := hchains _ _ _ (.child hmem hthis .here)
      rw [hextends.eq]
      exact ⟨resource, List.mem_append_right _ hentry⟩
    exact ⟨result, hresult, hleaf _ (.inl rfl), hleaf _ (.inr rfl)⟩
  · obtain ⟨chain, above, last, hchain, hfault⟩ := hthrows.mp herror
    rcases chain_diamond hchain with ⟨rfl, rfl, rfl⟩ | ⟨-, rfl, rfl⟩ <;> simp at hfault

end ObjectModel

end RttHttp.Model
