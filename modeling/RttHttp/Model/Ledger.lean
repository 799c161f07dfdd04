import RttHttp.Model.Items

/-! # Items and routes

Over a whole publication the links of all items are, up to their order, the routes
other than those of collections. Since no route is entered twice, every link has
one route, and every such route is listed once.
-/

namespace RttHttp.Model

open Route (slash)

variable {Codec : Type}

/-! ## Services -/

/-- What is entered between two publications; `unlisted` are the new routes that no
item of the new collections points to. -/
structure Accounts (model : ObjectModel Codec) (services : Nat → Service) (unlisted : List Bytes)
    (before after : Publication Codec) (entries : List (Bytes × Resource Codec))
    (reported : List Bytes) (watched : List PortBridge) : Prop where
  routes : Extends before.routes after.routes entries
  diagnostics : after.diagnostics = before.diagnostics ++ reported
  observers : after.observers = before.observers ++ watched
  linked : (pages entries).Perm (unlisted ++ listed entries)
  noted : reported.Perm (notes entries)
  recorded : Recorded model services entries watched

section Accounts

variable {model : ObjectModel Codec} {services : Nat → Service}
  {before after final : Publication Codec}

theorem Accounts.refl (publication : Publication Codec) :
    Accounts model services [] publication publication [] [] [] :=
  ⟨.refl _, by simp, by simp, .refl _, .refl _, fun _ hentry => absurd hentry List.not_mem_nil⟩

theorem Accounts.trans {unlisted others : List Bytes}
    {entries entries' : List (Bytes × Resource Codec)} {reported reported' : List Bytes}
    {watched watched' : List PortBridge}
    (hfirst : Accounts model services unlisted before after entries reported watched)
    (hsecond : Accounts model services others after final entries' reported' watched') :
    Accounts model services (unlisted ++ others) before final (entries ++ entries')
      (reported ++ reported') (watched ++ watched') where
  routes := hfirst.routes.trans hsecond.routes
  diagnostics := by rw [hsecond.diagnostics, hfirst.diagnostics, List.append_assoc]
  observers := by rw [hsecond.observers, hfirst.observers, List.append_assoc]
  linked := by
    rw [pages_append, listed_append]
    exact (hfirst.linked.append hsecond.linked).trans (append_perm_middle _ _ _ _)
  noted := by
    rw [notes_append]
    exact hfirst.noted.append hsecond.noted
  recorded := hfirst.recorded.append hsecond.recorded

theorem items?_object (members : JsonObject) :
    Resource.items? ({ description := .object members } : Resource Codec) =
      (JsonObject.find? members (bytes "items")).map jsonObjects := rfl

theorem published_description (model : ObjectModel Codec) (description : Json) :
    Resource.Published model { description := description } :=
  ⟨rfl, nofun, nofun, fun hkind => absurd rfl hkind⟩

/-- A description that is not a collection. -/
theorem Accounts.page {path : Bytes} {members : JsonObject}
    (hitems : JsonObject.find? members (bytes "items") = none)
    (h : insert before path { description := .object members } = .ok after) :
    Accounts model services [path] before after [(path, { description := .object members })] [] [] := by
  have hnone : Resource.items? ({ description := .object members } : Resource Codec) = none := by
    rw [items?_object, hitems, Option.map_none]
  obtain ⟨hdiagnostics, hobservers⟩ := insert_kept h
  refine ⟨insert_extends h, by simpa using hdiagnostics, by simpa using hobservers, ?_, ?_, ?_⟩
  · simp [pages, listed, listings, hnone]
  · simp [notes, listings, hnone]
  · intro entry hentry
    rw [List.mem_singleton.mp hentry]
    refine ⟨published_description model _, fun items hsome => ?_⟩
    rw [hnone] at hsome
    cases hsome

theorem sortItems_perm (items : List JsonObject) : (sortItems items).Perm items :=
  List.perm_insertionSort _ _

theorem jsonObjects_map (items : List JsonObject) : jsonObjects (.array (items.map .object)) = items := by
  simp [jsonObjects, List.filterMap_map]

/-- The collection of some items. -/
def collectionPage (items : List JsonObject) (types : Json) : Resource Codec where
  description := .object
    [(bytes "items", .array ((sortItems items).map Json.object)), (bytes "types", types)]

theorem items?_collectionPage (items : List JsonObject) (types : Json) :
    (collectionPage items types : Resource Codec).items? = some (sortItems items) := by
  rw [collectionPage, items?_object, JsonObject.find?_cons, if_pos rfl, Option.map_some,
    jsonObjects_map]

/-- The members of a category and their collection. -/
theorem Accounts.collection {id : Nat} {path : Bytes} {category : Category}
    {listing : Listing Codec} {ancestry : List Nat} {types : Json}
    (hmembers : Enrolled model services id (path ++ slash :: category.text) category
      { publication := before, ancestry := ancestry } listing)
    (h : insert listing.publication (path ++ slash :: category.text)
      (collectionPage listing.items types) = .ok after) :
    ∃ entries reported watched,
      Accounts model services [] before after entries reported watched := by
  obtain ⟨entries, added, reported, watched, henrolls⟩ := hmembers
  have hadded : listing.items = added := henrolls.items
  rw [hadded] at h
  have hlistings : listings [(path ++ slash :: category.text,
      (collectionPage added types : Resource Codec))] =
      (sortItems added).map fun item => (path ++ slash :: category.text, item) := by
    simp [listings, items?_collectionPage]
  obtain ⟨hdiagnostics, hobservers⟩ := insert_kept h
  refine ⟨entries ++ [(path ++ slash :: category.text, collectionPage added types)], reported, watched,
    henrolls.routes.trans (insert_extends h), ?_, ?_, ?_, ?_, ?_⟩
  · rw [hdiagnostics, henrolls.diagnostics]
  · rw [hobservers, henrolls.observers]
  · have hpages : pages [(path ++ slash :: category.text,
        (collectionPage added types : Resource Codec))] = [] := by
      simp [pages, items?_collectionPage]
    have hlisted : listed [(path ++ slash :: category.text,
        (collectionPage added types : Resource Codec))] = (sortItems added).flatMap links := by
      rw [listed, hlistings, List.flatMap_map]
    rw [pages_append, listed_append, hpages, hlisted, List.append_nil, List.nil_append]
    exact henrolls.linked.trans
      (List.perm_append_comm.trans (((sortItems_perm added).symm.flatMap_right links).append_left _))
  · have hnotes : notes [(path ++ slash :: category.text,
        (collectionPage added types : Resource Codec))] =
        (sortItems added).flatMap (itemNote (path ++ slash :: category.text)) := by
      rw [notes, hlistings, List.flatMap_map]
    rw [notes_append, hnotes]
    exact henrolls.noted.trans
      (List.perm_append_comm.trans (((sortItems_perm added).symm.flatMap_right _).append_left _))
  · intro entry hentry
    rcases List.mem_append.mp hentry with hbelow | hown
    · exact (henrolls.recorded entry hbelow).mono (fun _ => List.mem_append_left _) fun _ h => h
    · rw [List.mem_singleton.mp hown]
      refine ⟨published_description model _, fun items hsome => ?_⟩
      obtain rfl := Option.some.inj ((items?_collectionPage added types).symm.trans hsome)
      refine ⟨id, category, path, rfl, fun item hitem => ?_⟩
      have hitem := henrolls.agrees item ((sortItems_perm added).mem_iff.mp hitem)
      exact hitem.mono (fun _ => List.mem_append_left _) fun _ h => h

end Accounts

/-- What describing a service enters: its own page and what its collections list. -/
def AccountSpec (model : ObjectModel Codec) (services : Nat → Service)
    (describe : ObjectModel.Staging Codec → Option Nat → Bytes → Bytes →
      Except String (ObjectModel.Staging Codec × JsonObject)) : Prop :=
  ∀ staging service name path result, describe staging service name path = .ok result →
    ∃ entries reported watched,
      Accounts model services [path] staging.publication result.1.publication entries reported
        watched ∧
      ∃ resource, (path, resource) ∈ entries ∧ resource.kind = .description ∧
        resource.items? = none

namespace ObjectModel

variable {model : ObjectModel Codec} {services : Nat → Service} {id : Nat} {path name : Bytes}
  {listing next : Listing Codec} {describe : Staging Codec → Option Nat → Bytes → Bytes →
    Except String (Staging Codec × JsonObject)}

theorem describeChild_enrolled (hspec : AccountSpec model services describe) {service : Service}
    (h : describeChild services describe service path listing name = .ok next) :
    Enrolled model services id (path ++ slash :: Category.text .services) .services
      listing next := by
  unfold describeChild at h
  split at h
  next =>
    cases h
    exact .refl listing
  next =>
    obtain ⟨href, hhref, h⟩ := bind_eq_ok.mp h
    obtain ⟨⟨staging, description⟩, hdescribe, h⟩ := bind_eq_ok.mp h
    obtain rfl := memberPath_of_childPath hhref
    obtain ⟨entries, reported, watched, haccounts, resource, hpage, hresource⟩ :=
      hspec _ _ _ _ _ hdescribe
    cases hchild : service.getService name with
    | none =>
        rw [hchild] at h
        cases h
    | some child =>
        rw [hchild] at h
        obtain ⟨item, hsummary, h⟩ := bind_eq_ok.mp h
        obtain rfl := summary_eq_ok hsummary
        obtain rfl := Except.ok.inj h
        refine ⟨entries, _, reported, watched, haccounts.routes, rfl, haccounts.diagnostics,
          haccounts.observers, haccounts.linked, haccounts.noted, ?_, haccounts.recorded⟩
        rw [List.forall_mem_singleton]
        exact ⟨⟨rfl, resource, hpage, hresource⟩, fun hcategory => absurd rfl hcategory⟩

variable [PortReader Codec]

theorem describeMember_enrolled (hmodel : model.Explained)
    (hspec : AccountSpec model services describe) {category : Category}
    (h : model.describeMember services describe id path category listing name = .ok next) :
    Enrolled model services id (path ++ slash :: category.text) category listing next := by
  cases category with
  | services => exact describeChild_enrolled hspec h
  | properties => exact describeValue_enrolled hmodel (.inl rfl) h
  | attributes => exact describeValue_enrolled hmodel (.inr rfl) h
  | operations => exact describeOperation_enrolled hmodel h
  | ports => exact describePort_enrolled hmodel h

theorem describeMembers_enrolled (hmodel : model.Explained)
    (hspec : AccountSpec model services describe) {category : Category}
    (h : model.describeMembers services describe id path listing category = .ok next) :
    Enrolled model services id (path ++ slash :: category.text) category listing next := by
  rw [describeMembers_eq] at h
  refine foldlM_invariant
    (p := Enrolled model services id (path ++ slash :: category.text) category listing) ?_
    (.refl listing) h
  intro name _ state after hstate hafter
  exact hstate.trans (describeMember_enrolled hmodel hspec hafter)

/-- The categories that are done, with a description that has no items of its own. -/
def CategoriesDone (model : ObjectModel Codec) (services : Nat → Service)
    (before : Publication Codec) (state : Staging Codec × JsonObject × List Bytes) : Prop :=
  (∃ entries reported watched,
    Accounts model services [] before state.1.publication entries reported watched) ∧
  JsonObject.find? state.2.1 (bytes "items") = none

theorem describeCategory_accounts (hmodel : model.Explained)
    (hspec : AccountSpec model services describe) {category : Category}
    {before : Publication Codec} {state after : Staging Codec × JsonObject × List Bytes}
    (hstate : CategoriesDone model services before state)
    (h : model.describeCategory services describe id path state category = .ok after) :
    CategoriesDone model services before after := by
  obtain ⟨⟨entries, reported, watched, haccounts⟩, hdescription⟩ := hstate
  obtain ⟨listing, hmembers, h⟩ := bind_eq_ok.mp h
  obtain ⟨publication, hinsert, h⟩ := bind_eq_ok.mp h
  obtain rfl := Except.ok.inj h
  obtain ⟨entries', reported', watched', hcollection⟩ :=
    Accounts.collection (describeMembers_enrolled hmodel hspec hmembers) hinsert
  refine ⟨⟨_, _, _, haccounts.trans hcollection⟩, ?_⟩
  rw [JsonObject.find?_set, if_neg, hdescription]
  cases category <;> simp [Category.text, bytes_inj]

/-- Every service that is described enters what its collections list. -/
theorem describeService_accounts (hmodel : model.Explained) (fuel : Nat) :
    AccountSpec model services (model.describeService services fuel) := by
  induction fuel with
  | zero =>
      intro staging service name path result h
      cases h
  | succ fuel ih =>
      intro staging service name path result h
      cases service with
      | none => cases h
      | some id =>
          unfold describeService at h
          split at h
          next => cases h
          next =>
            obtain ⟨description, hsummary, h⟩ := bind_eq_ok.mp h
            obtain ⟨⟨after, members, allTypes⟩, hfold, h⟩ := bind_eq_ok.mp h
            obtain ⟨publication, hinsert, h⟩ := bind_eq_ok.mp h
            obtain rfl := Except.ok.inj h
            obtain rfl := summary_eq_ok hsummary
            obtain ⟨⟨entries, reported, watched, haccounts⟩, hdescription⟩ :
                CategoriesDone model services staging.publication (after, members, allTypes) :=
              foldlM_invariant (fun _ _ _ _ => describeCategory_accounts hmodel ih)
                ⟨⟨[], [], [], .refl _⟩, by simp [JsonObject.find?_cons, JsonObject.find?_nil, bytes_inj]⟩
                hfold
            have hitems : JsonObject.find? (JsonObject.set members (bytes "types")
                (.object (model.types allTypes))) (bytes "items") = none := by
              rw [JsonObject.find?_set, if_neg (by decide)]
              exact hdescription
            refine ⟨_, _, _, haccounts.trans (.page hitems hinsert), _,
              List.mem_append_right _ (List.mem_singleton_self _), rfl, ?_⟩
            rw [items?_object, hitems, Option.map_none]

end ObjectModel

/-! ## The whole publication -/

/-- The route of a member of a collection, or of the values of a port in it. -/
def Owns (owner link : Bytes) : Prop :=
  ∃ name, link = memberPath owner name ∨ link = memberPath owner name ++ slash :: bytes "latest" ∨
    link = memberPath owner name ++ slash :: bytes "samples"

/-- An item has at most one link, and it leads to a member of its collection. -/
theorem ItemListed.links_cases {services : Nat → Service} {id : Nat}
    {routes : List (Bytes × Resource Codec)} {observers : List PortBridge} {owner : Bytes}
    {item : JsonObject} {category : Category}
    (h : ItemListed services id routes observers owner item category) :
    links item = [] ∨ ∃ link, links item = [link] ∧ Owns owner link ∧
      ∃ resource, (link, resource) ∈ routes := by
  have hmember := h.member
  cases category with
  | services =>
      obtain ⟨hlinks, resource, hroute, -⟩ := hmember
      exact .inr ⟨_, hlinks, ⟨_, .inl rfl⟩, resource, hroute⟩
  | properties | attributes =>
      obtain ⟨hlinks, resource, hroute, -⟩ := hmember
      exact .inr ⟨_, hlinks, ⟨_, .inl rfl⟩, resource, hroute⟩
  | operations =>
      obtain ⟨hlinks, resource, operation, hroute, -⟩ := hmember
      exact .inr ⟨_, hlinks, ⟨_, .inl rfl⟩, resource, hroute⟩
  | ports =>
      obtain ⟨port, -, -, hlinks, -, hroutes, -⟩ := hmember
      unfold portLinks at hlinks
      split at hlinks
      next =>
        obtain ⟨resource, hroute, -⟩ := hroutes _ (hlinks ▸ List.mem_singleton_self _)
        exact .inr ⟨_, hlinks, ⟨_, .inr (.inr rfl)⟩, resource, hroute⟩
      next =>
        split at hlinks
        next =>
          obtain ⟨resource, hroute, -⟩ := hroutes _ (hlinks ▸ List.mem_singleton_self _)
          exact .inr ⟨_, hlinks, ⟨_, .inr (.inl rfl)⟩, resource, hroute⟩
        next => exact .inl hlinks

/-- Items of at most one link have a link as often as it is found among their links. -/
theorem count_links {items : List (Bytes × JsonObject)} {path : Bytes}
    (h : ∀ listing ∈ items, (links listing.2).length ≤ 1) :
    (items.flatMap fun listing => links listing.2).count path =
      items.countP fun listing => decide (path ∈ links listing.2) := by
  induction items with
  | nil => rfl
  | cons listing rest ih =>
      obtain ⟨hfirst, hrest⟩ := List.forall_mem_cons.mp h
      have hcount : (links listing.2).count path = if path ∈ links listing.2 then 1 else 0 := by
        match hlinks : links listing.2 with
        | [] => simp
        | [link] => by_cases hlink : path = link <;> simp [hlink, Ne.symm]
        | _ :: _ :: _ => simp [hlinks] at hfirst
      rw [List.flatMap_cons, List.count_append, ih hrest, List.countP_cons, hcount]
      simp only [decide_eq_true_eq]
      omega

/-- Metadata and routes of a publication agree. -/
structure Agreement (model : ObjectModel Codec) (services : Nat → Service)
    (publication : Publication Codec) : Prop where
  unique : (publication.routes.map Prod.fst).Nodup
  items : ∀ listing ∈ listings publication.routes, ∃ id category base,
    listing.1 = base ++ slash :: Category.text category ∧
      ItemListed services id publication.routes publication.observers listing.1 listing.2 category
  linked : ∀ listing ∈ listings publication.routes, ∀ link ∈ links listing.2,
    Owns listing.1 link ∧ (publication.routes.map Prod.fst).count link = 1
  pages : ∀ entry ∈ publication.routes, entry.2.kind ≠ .description ∨ entry.2.items? = none →
    textAt publication.summary (bytes "href") = some entry.1 ∨
      (listings publication.routes).countP (fun listing => decide (entry.1 ∈ links listing.2)) = 1
  component : ∃ path, textAt publication.summary (bytes "href") = some path ∧
    (publication.routes.map Prod.fst).count path = 1 ∧
    ∀ listing ∈ listings publication.routes, path ∉ links listing.2
  published : ∀ entry ∈ publication.routes, entry.2.Published model
  sorted : publication.diagnostics.Pairwise fun a b => bytesLt b a = false
  diagnosed : publication.diagnostics.Perm (notes publication.routes)

theorem mem_listings {routes : List (Bytes × Resource Codec)} {listing : Bytes × JsonObject}
    (h : listing ∈ listings routes) : ∃ entry ∈ routes, ∃ items, entry.2.items? = some items ∧
      listing.1 = entry.1 ∧ listing.2 ∈ items := by
  obtain ⟨entry, hentry, hlisting⟩ := List.mem_flatMap.mp h
  obtain ⟨item, hitem, rfl⟩ := List.mem_map.mp hlisting
  cases hitems : entry.2.items? with
  | none => simp [hitems] at hitem
  | some items =>
      rw [hitems, Option.getD_some] at hitem
      exact ⟨entry, hentry, items, hitems, rfl, hitem⟩

/-- What was entered into an empty publication agrees. -/
theorem Accounts.agreement {model : ObjectModel Codec} {services : Nat → Service} {path : Bytes}
    {entries : List (Bytes × Resource Codec)} {reported : List Bytes} {watched : List PortBridge}
    {before after publication : Publication Codec}
    (haccounts : Accounts model services [path] before after entries reported watched)
    (hempty : before.routes = [] ∧ before.diagnostics = [] ∧ before.observers = [])
    (hroutes : publication.routes = after.routes)
    (hobservers : publication.observers = after.observers)
    (hdiagnostics : publication.diagnostics =
      after.diagnostics.insertionSort fun a b => bytesLt b a = false)
    (hsummary : textAt publication.summary (bytes "href") = some path) :
    Agreement model services publication := by
  obtain ⟨hnoRoutes, hnoDiagnostics, hnoObservers⟩ := hempty
  have hentries : publication.routes = entries := by
    rw [hroutes, haccounts.routes.eq, hnoRoutes, List.nil_append]
  have hwatched : publication.observers = watched := by
    rw [hobservers, haccounts.observers, hnoObservers, List.nil_append]
  have hreported : after.diagnostics = reported := by
    rw [haccounts.diagnostics, hnoDiagnostics, List.nil_append]
  have hunique : (entries.map Prod.fst).Nodup := by
    rw [← hentries, hroutes]
    exact haccounts.routes.nodup (by rw [hnoRoutes]; exact List.nodup_nil)
  have hitems : ∀ listing ∈ listings entries, ∃ id category base,
      listing.1 = base ++ slash :: Category.text category ∧
        ItemListed services id entries watched listing.1 listing.2 category := by
    intro listing hlisting
    obtain ⟨entry, hentry, items, hsome, hpath, hitem⟩ := mem_listings hlisting
    obtain ⟨id, category, base, hbase, hall⟩ := (haccounts.recorded entry hentry).2 items hsome
    rw [hpath]
    exact ⟨id, category, base, hbase, hall _ hitem⟩
  have hlength : ∀ listing ∈ listings entries, (links listing.2).length ≤ 1 := by
    intro listing hlisting
    obtain ⟨id, category, base, -, hlisted⟩ := hitems listing hlisting
    rcases hlisted.links_cases with hnone | ⟨link, hone, -⟩
    · simp [hnone]
    · simp [hone]
  -- No page is listed twice, since the routes are distinct.
  have hpages : (pages entries).Nodup := hunique.sublist (List.filter_sublist.map Prod.fst)
  have hlisted : (path :: listed entries).Nodup := haccounts.linked.nodup_iff.mp hpages
  refine ⟨?_, ?_, ?_, ?_, ?_, ?_, ?_, ?_⟩
  · rw [hentries]
    exact hunique
  · rw [hentries, hwatched]
    exact hitems
  · rw [hentries]
    intro listing hlisting link hlink
    obtain ⟨id, category, base, -, hitem⟩ := hitems listing hlisting
    rcases hitem.links_cases with hnone | ⟨other, hone, howns, resource, hroute⟩
    · rw [hnone] at hlink
      cases hlink
    · rw [hone, List.mem_singleton] at hlink
      subst hlink
      exact ⟨howns, List.count_eq_one_of_mem hunique (List.mem_map.mpr ⟨_, hroute, rfl⟩)⟩
  · rw [hentries, hsummary]
    intro entry hentry hkind
    have hpage : entry.1 ∈ pages entries := by
      refine List.mem_map.mpr ⟨entry, List.mem_filter.mpr ⟨hentry, ?_⟩, rfl⟩
      rcases hkind with hkind | hnone
      · have hplain := (haccounts.recorded entry hentry).1.plain hkind
        simp [Resource.items?, hplain]
      · rw [hnone]
        rfl
    rcases List.mem_cons.mp (haccounts.linked.mem_iff.mp hpage) with hown | hlink
    · rw [hown]
      exact .inl rfl
    · rw [← count_links hlength]
      exact .inr (List.count_eq_one_of_mem (List.nodup_cons.mp hlisted).2 hlink)
  · rw [hentries]
    have hpage : path ∈ pages entries := haccounts.linked.mem_iff.mpr List.mem_cons_self
    refine ⟨path, hsummary, ?_, ?_⟩
    · obtain ⟨entry, hentry, hpath⟩ := List.mem_map.mp hpage
      exact List.count_eq_one_of_mem hunique
        (List.mem_map.mpr ⟨entry, (List.mem_filter.mp hentry).1, hpath⟩)
    · intro listing hlisting hlink
      exact (List.nodup_cons.mp hlisted).1 (List.mem_flatMap.mpr ⟨listing, hlisting, hlink⟩)
  · rw [hentries]
    exact fun entry hentry => (haccounts.recorded entry hentry).1
  · rw [hdiagnostics]
    exact pairwise_sort_bytes _
  · rw [hentries, hdiagnostics, hreported]
    exact (List.perm_insertionSort _ _).trans haccounts.noted

/-- What staging enters into an empty publication. -/
theorem ObjectModel.stage_accounts [PortReader Codec] {model : ObjectModel Codec}
    {services : Nat → Service} {component : TaskContext} {publication : Publication Codec}
    (hmodel : model.Explained) (h : model.stage services component = .ok publication) :
    ∃ path entries reported watched before after,
      Accounts model services [path] before after entries reported watched ∧
      (before.routes = [] ∧ before.diagnostics = [] ∧ before.observers = []) ∧
      publication.routes = after.routes ∧ publication.observers = after.observers ∧
      publication.diagnostics =
        after.diagnostics.insertionSort (fun a b => bytesLt b a = false) ∧
      textAt publication.summary (bytes "href") = some path := by
  obtain ⟨path, hpath, h⟩ := bind_eq_ok.mp h
  obtain ⟨⟨staging, description⟩, hdescribe, h⟩ := bind_eq_ok.mp h
  obtain ⟨entries, reported, watched, haccounts, -⟩ :=
    ObjectModel.describeService_accounts hmodel 65 _ _ _ _ _ hdescribe
  cases hprovides : component.provides with
  | none =>
      rw [hprovides] at h
      cases h
  | some id =>
      rw [hprovides] at h
      obtain ⟨item, hsummary, h⟩ := bind_eq_ok.mp h
      obtain rfl := ObjectModel.summary_eq_ok hsummary
      obtain rfl := Except.ok.inj h
      exact ⟨path, entries, reported, watched, _, _, haccounts, ⟨rfl, rfl, rfl⟩, rfl, rfl, rfl, rfl⟩

/-- Every resource of a publication is made as its kind requires. -/
theorem ObjectModel.stage_published [PortReader Codec] {model : ObjectModel Codec}
    {services : Nat → Service} {component : TaskContext} {publication : Publication Codec}
    (hmodel : model.Explained) (h : model.stage services component = .ok publication) :
    ∀ entry ∈ publication.routes, entry.2.Published model := by
  obtain ⟨path, entries, reported, watched, before, after, haccounts, hempty, hroutes, -⟩ :=
    ObjectModel.stage_accounts hmodel h
  rw [hroutes, haccounts.routes.eq, hempty.1, List.nil_append]
  exact fun entry hentry => (haccounts.recorded entry hentry).1

theorem ObjectModel.stage_agreement [PortReader Codec] {model : ObjectModel Codec}
    {services : Nat → Service} {component : TaskContext} {publication : Publication Codec}
    (hmodel : model.Explained) (h : model.stage services component = .ok publication) :
    Agreement model services publication := by
  obtain ⟨path, entries, reported, watched, before, after, haccounts, hempty, hroutes, hobservers,
    hdiagnostics, hsummary⟩ := ObjectModel.stage_accounts hmodel h
  exact haccounts.agreement hempty hroutes hobservers hdiagnostics hsummary

/-- An item that links to an operation lists what the operation gives back. -/
theorem Agreement.outputs {model : ObjectModel Codec} {services : Nat → Service}
    {publication : Publication Codec} (h : Agreement model services publication) {path : Bytes}
    {resource : Resource Codec} {operation : Operation Codec}
    (hroute : (path, resource) ∈ publication.routes) (hkind : resource.kind = .operation)
    (hoperation : resource.operation = some operation) {listing : Bytes × JsonObject}
    (hlisting : listing ∈ listings publication.routes) (hlink : path ∈ links listing.2) :
    JsonObject.find? listing.2 (bytes "outputs") =
      some (.array (operation.outputs.map (ObjectModel.outputItem operation.part))) := by
  have hsame : ∀ other, (path, other) ∈ publication.routes → other = resource := by
    intro other hother
    have hlookup := lookup_of_mem h.unique hother
    rw [lookup_of_mem h.unique hroute] at hlookup
    exact (Option.some.inj hlookup).symm
  obtain ⟨id, category, base, -, hitem⟩ := h.items listing hlisting
  have hmember := hitem.member
  cases category with
  | services =>
      obtain ⟨hlinks, other, hother, hfound, -⟩ := hmember
      rw [hlinks, List.mem_singleton] at hlink
      subst hlink
      rw [hsame other hother, hkind] at hfound
      cases hfound
  | properties | attributes =>
      obtain ⟨hlinks, other, hother, hfound, -⟩ := hmember
      rw [hlinks, List.mem_singleton] at hlink
      subst hlink
      rw [hsame other hother, hkind] at hfound
      cases hfound
  | operations =>
      obtain ⟨hlinks, other, found, hother, -, hfound, -, houtputs⟩ := hmember
      rw [hlinks, List.mem_singleton] at hlink
      subst hlink
      rw [hsame other hother, hoperation] at hfound
      cases hfound
      exact houtputs
  | ports =>
      obtain ⟨port, -, -, -, -, hroutes, -⟩ := hmember
      obtain ⟨other, hother, hfound, -⟩ := hroutes path hlink
      rw [hsame other hother, hkind] at hfound
      split at hfound <;> cases hfound

/-- Every publication that is staged agrees with its own metadata. -/
theorem metadata_agrees [PortReader Codec] {model : ObjectModel Codec} {services : Nat → Service}
    {component : TaskContext} {publication : Publication Codec} (hmodel : model.Explained)
    (h : model.stage services component = .ok publication) :
    Agreement model services publication := by
  exact ObjectModel.stage_agreement hmodel h

theorem metadata_agrees_arm :
    emptyModel.Explained ∧ emptyModel.stage arm.services arm.context = .ok (published arm) ∧
      Agreement emptyModel arm.services (published arm) := by
  have hmodel : emptyModel.Explained := fun entry hentry => absurd hentry List.not_mem_nil
  have hstage : emptyModel.stage arm.services arm.context = .ok (published arm) := by
    have hok : (emptyModel.stage arm.services arm.context).toOption.isSome = true := by
      decide +kernel
    unfold published
    cases h : emptyModel.stage arm.services arm.context with
    | ok publication => rfl
    | error message =>
        rw [h] at hok
        cases hok
  exact ⟨hmodel, hstage, metadata_agrees hmodel hstage⟩

end RttHttp.Model
