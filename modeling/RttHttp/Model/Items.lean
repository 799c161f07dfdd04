import RttHttp.Http.Message
import RttHttp.Model.Unfold

/-! # Items and their members

Every item of a collection is built next to the route it points to, and says of
its resource what the resource says of itself. One round of the loop over a
category enters the routes of the new items and of what lies below them.
-/

namespace RttHttp.Model

open Http (methodAllowed)
open Route (slash childPath encodeSegment validName)

variable {Codec : Type}

/-! ## What a collection lists -/

/-- The objects in an array. -/
def jsonObjects : Json → List JsonObject
  | .array items => items.filterMap fun item =>
      match item with
      | .object members => some members
      | _ => none
  | _ => []

/-- The items of a collection; other resources have none. -/
def Resource.items? (resource : Resource Codec) : Option (List JsonObject) :=
  match resource.description with
  | .object members => (JsonObject.find? members (bytes "items")).map jsonObjects
  | _ => none

/-- The text of a string. -/
def jsonText : Json → Option Bytes
  | .string text => some text
  | _ => none

/-- The text of a member. -/
def textAt (item : JsonObject) (key : Bytes) : Option Bytes :=
  (JsonObject.find? item key).bind jsonText

/-- The routes that an item points to. -/
def links (item : JsonObject) : List Bytes :=
  [bytes "href", bytes "latestHref", bytes "samplesHref"].filterMap (textAt item)

/-- The route of a member of a collection. -/
def memberPath (owner name : Bytes) : Bytes := owner ++ slash :: encodeSegment name

/-- The diagnostic of an item that is not supported. -/
def itemNote (owner : Bytes) (item : JsonObject) : List Bytes :=
  match textAt item (bytes "reason") with
  | some reason => [memberPath owner (itemName item) ++ bytes ": " ++ reason]
  | none => []

section Routes

variable (routes : List (Bytes × Resource Codec))

/-- The items of all collections, with the route of their collection. -/
def listings : List (Bytes × JsonObject) :=
  routes.flatMap fun entry => (entry.2.items?.getD []).map fun item => (entry.1, item)

/-- The routes that are not collections. -/
def pages : List Bytes :=
  (routes.filter fun entry => entry.2.items?.isNone).map Prod.fst

/-- The links of all items. -/
def listed : List Bytes := (listings routes).flatMap fun listing => links listing.2

/-- The diagnostics of all items. -/
def notes : List Bytes := (listings routes).flatMap fun listing => itemNote listing.1 listing.2

end Routes

section Append

variable (first second : List (Bytes × Resource Codec))

theorem pages_append : pages (first ++ second) = pages first ++ pages second := by
  simp [pages]

theorem listings_append : listings (first ++ second) = listings first ++ listings second := by
  simp [listings]

theorem listed_append : listed (first ++ second) = listed first ++ listed second := by
  simp [listed, listings_append]

theorem notes_append : notes (first ++ second) = notes first ++ notes second := by
  simp [notes, listings_append]

end Append

/-! ## Agreement of an item with its member -/

/-- A service that has its description at the link. -/
def ServiceListed (routes : List (Bytes × Resource Codec)) (owner : Bytes) (item : JsonObject) :
    Prop :=
  links item = [memberPath owner (itemName item)] ∧
    ∃ resource, (memberPath owner (itemName item), resource) ∈ routes ∧
      resource.kind = .description ∧ resource.items? = none

/-- A property or an attribute. -/
def ValueListed (routes : List (Bytes × Resource Codec)) (owner : Bytes) (item : JsonObject) :
    Prop :=
  links item = [memberPath owner (itemName item)] ∧
    ∃ resource, (memberPath owner (itemName item), resource) ∈ routes ∧ resource.kind = .value ∧
      JsonObject.find? item (bytes "jsonSupported") = some (.bool resource.supported) ∧
      JsonObject.find? item (bytes "writable") = some (.bool (methodAllowed resource (bytes "PUT")))

/-- An operation, with the metadata of what it gives back. -/
def OperationListed (routes : List (Bytes × Resource Codec)) (owner : Bytes) (item : JsonObject) :
    Prop :=
  links item = [memberPath owner (itemName item)] ∧
    ∃ resource operation, (memberPath owner (itemName item), resource) ∈ routes ∧
      resource.kind = .operation ∧ resource.operation = some operation ∧
      JsonObject.find? item (bytes "jsonSupported") = some (.bool resource.supported) ∧
      JsonObject.find? item (bytes "outputs") =
        some (.array (operation.outputs.map (ObjectModel.outputItem operation.part)))

/-- The route of a port: for samples, for the latest value, or none. -/
def portLinks (port : Port) (base : Bytes) : List Bytes :=
  if port.input then [base ++ slash :: bytes "samples"]
  else if port.keepsLastWrittenValue then [base ++ slash :: bytes "latest"]
  else []

/-- A port; an output that does not retain its last value has only an observer. -/
def PortListed (service : Service) (routes : List (Bytes × Resource Codec))
    (observers : List PortBridge) (owner : Bytes) (item : JsonObject) : Prop :=
  ∃ port, service.getPort (itemName item) = some port ∧ port.output = !port.input ∧
    links item = portLinks port (memberPath owner (itemName item)) ∧
    JsonObject.find? item (bytes "latestHref") = some
      (if port.output && port.keepsLastWrittenValue then
        .string (memberPath owner (itemName item) ++ slash :: bytes "latest") else .null) ∧
    (∀ link ∈ links item, ∃ resource, (link, resource) ∈ routes ∧
      resource.kind = (if port.input then .samples else .latest) ∧
      JsonObject.find? item (bytes "jsonSupported") = some (.bool resource.supported)) ∧
    (links item = [] → ⟨port⟩ ∈ observers)

/-- What an item says about the member of its category that it lists. -/
def MemberListed (services : Nat → Service) (id : Nat) (routes : List (Bytes × Resource Codec))
    (observers : List PortBridge) (owner : Bytes) (item : JsonObject) : Category → Prop
  | .services => ServiceListed routes owner item
  | .properties | .attributes => ValueListed routes owner item
  | .operations => OperationListed routes owner item
  | .ports => PortListed (services id) routes observers owner item

/-- An item gives a reason exactly when it is not supported. -/
def Explains (item : JsonObject) : Prop :=
  JsonObject.find? item (bytes "jsonSupported") =
    some (.bool (textAt item (bytes "reason")).isNone)

/-- An item of a collection of the service `id` agrees with what was entered for it. -/
structure ItemListed (services : Nat → Service) (id : Nat) (routes : List (Bytes × Resource Codec))
    (observers : List PortBridge) (owner : Bytes) (item : JsonObject) (category : Category) :
    Prop where
  member : MemberListed services id routes observers owner item category
  explains : category ≠ .services → Explains item

theorem ItemListed.mono {services : Nat → Service} {id : Nat}
    {routes more : List (Bytes × Resource Codec)} {observers others : List PortBridge}
    {owner : Bytes} {item : JsonObject} {category : Category}
    (h : ItemListed services id routes observers owner item category)
    (hroutes : ∀ entry ∈ routes, entry ∈ more) (hobservers : ∀ bridge ∈ observers, bridge ∈ others) :
    ItemListed services id more others owner item category := by
  refine ⟨?_, h.explains⟩
  replace h := h.member
  cases category with
  | services =>
      obtain ⟨hlinks, resource, hroute, hresource⟩ := h
      exact ⟨hlinks, resource, hroutes _ hroute, hresource⟩
  | properties | attributes =>
      obtain ⟨hlinks, resource, hroute, hresource⟩ := h
      exact ⟨hlinks, resource, hroutes _ hroute, hresource⟩
  | operations =>
      obtain ⟨hlinks, resource, operation, hroute, hresource⟩ := h
      exact ⟨hlinks, resource, operation, hroutes _ hroute, hresource⟩
  | ports =>
      obtain ⟨port, hport, hdirection, hlinks, hlatest, hroute, hobserver⟩ := h
      refine ⟨port, hport, hdirection, hlinks, hlatest, ?_, fun hnone => hobservers _ (hobserver hnone)⟩
      intro link hlink
      obtain ⟨resource, hmem, hresource⟩ := hroute link hlink
      exact ⟨resource, hroutes _ hmem, hresource⟩

/-- What a resource of a publication is made of. -/
structure Resource.Published (model : ObjectModel Codec) (resource : Resource Codec) : Prop where
  shaped : resource.Shaped
  described : ∀ operation, resource.operation = some operation →
    ObjectModel.Described model operation resource.supported
  bridged : ∀ bridge, resource.bridge = some bridge →
    (bridge.port.input || bridge.port.output && bridge.port.keepsLastWrittenValue) = true
  plain : resource.kind ≠ .description → resource.description = .null

/-- An entry of a publication; the items of a collection agree with the routes. -/
def EntryRecorded (model : ObjectModel Codec) (services : Nat → Service)
    (routes : List (Bytes × Resource Codec)) (observers : List PortBridge)
    (entry : Bytes × Resource Codec) : Prop :=
  entry.2.Published model ∧ ∀ items, entry.2.items? = some items → ∃ id category base,
    entry.1 = base ++ slash :: Category.text category ∧
      ∀ item ∈ items, ItemListed services id routes observers entry.1 item category

theorem EntryRecorded.mono {model : ObjectModel Codec} {services : Nat → Service}
    {routes more : List (Bytes × Resource Codec)} {observers others : List PortBridge}
    {entry : Bytes × Resource Codec} (h : EntryRecorded model services routes observers entry)
    (hroutes : ∀ entry ∈ routes, entry ∈ more) (hobservers : ∀ bridge ∈ observers, bridge ∈ others) :
    EntryRecorded model services more others entry := by
  obtain ⟨hpublished, hitems⟩ := h
  refine ⟨hpublished, fun items h => ?_⟩
  obtain ⟨id, category, base, hbase, hall⟩ := hitems items h
  exact ⟨id, category, base, hbase, fun item hitem => (hall item hitem).mono hroutes hobservers⟩

/-- The entries of a publication agree with each other. -/
def Recorded (model : ObjectModel Codec) (services : Nat → Service)
    (entries : List (Bytes × Resource Codec)) (observers : List PortBridge) : Prop :=
  ∀ entry ∈ entries, EntryRecorded model services entries observers entry

theorem Recorded.append {model : ObjectModel Codec} {services : Nat → Service}
    {first second : List (Bytes × Resource Codec)} {observers others : List PortBridge}
    (hfirst : Recorded model services first observers)
    (hsecond : Recorded model services second others) :
    Recorded model services (first ++ second) (observers ++ others) := by
  intro entry hentry
  rcases List.mem_append.mp hentry with hleft | hright
  · exact (hfirst entry hleft).mono (fun _ => List.mem_append_left second)
      fun _ => List.mem_append_left others
  · exact (hsecond entry hright).mono (fun _ => List.mem_append_right first)
      fun _ => List.mem_append_right observers

/-- Four lists with the two in the middle exchanged. -/
theorem append_perm_middle {α : Type} (a b c d : List α) :
    ((a ++ b) ++ (c ++ d)).Perm ((a ++ c) ++ (b ++ d)) := by
  rw [List.append_assoc, List.append_assoc, ← List.append_assoc b, ← List.append_assoc c]
  exact (List.perm_append_comm.append_right d).append_left a

/-! ## Members -/

/-- What describing some members of a category enters: the routes are those of the
new items and of what lies below them, and so are the diagnostics. -/
structure Enrolls (model : ObjectModel Codec) (services : Nat → Service) (id : Nat)
    (owner : Bytes) (category : Category) (listing next : Listing Codec)
    (entries : List (Bytes × Resource Codec)) (added : List JsonObject) (reported : List Bytes)
    (watched : List PortBridge) : Prop where
  routes : Extends listing.publication.routes next.publication.routes entries
  items : next.items = listing.items ++ added
  diagnostics : next.publication.diagnostics = listing.publication.diagnostics ++ reported
  observers : next.publication.observers = listing.publication.observers ++ watched
  linked : (pages entries).Perm (added.flatMap links ++ listed entries)
  noted : reported.Perm (added.flatMap (itemNote owner) ++ notes entries)
  agrees : ∀ item ∈ added, ItemListed services id entries watched owner item category
  recorded : Recorded model services entries watched

/-- Some members are described. -/
def Enrolled (model : ObjectModel Codec) (services : Nat → Service) (id : Nat) (owner : Bytes)
    (category : Category) (listing next : Listing Codec) : Prop :=
  ∃ entries added reported watched,
    Enrolls model services id owner category listing next entries added reported watched

section Enrolled

variable {model : ObjectModel Codec} {services : Nat → Service} {id : Nat} {owner : Bytes}
  {category : Category} {listing next last : Listing Codec}

theorem Enrolled.refl (listing : Listing Codec) :
    Enrolled model services id owner category listing listing :=
  ⟨[], [], [], [], .refl _, by simp, by simp, by simp, .refl _, .refl _, by simp,
    fun _ hentry => absurd hentry List.not_mem_nil⟩

theorem Enrolled.trans (hfirst : Enrolled model services id owner category listing next)
    (hsecond : Enrolled model services id owner category next last) :
    Enrolled model services id owner category listing last := by
  obtain ⟨entries, items, diagnostics, observers, hfirst⟩ := hfirst
  obtain ⟨entries', items', diagnostics', observers', hsecond⟩ := hsecond
  have hleft : ∀ bridge ∈ observers, bridge ∈ observers ++ observers' :=
    fun _ => List.mem_append_left observers'
  have hright : ∀ bridge ∈ observers', bridge ∈ observers ++ observers' :=
    fun _ => List.mem_append_right observers
  refine ⟨entries ++ entries', items ++ items', diagnostics ++ diagnostics',
    observers ++ observers', hfirst.routes.trans hsecond.routes, ?_, ?_, ?_, ?_, ?_, ?_, ?_⟩
  · rw [hsecond.items, hfirst.items, List.append_assoc]
  · rw [hsecond.diagnostics, hfirst.diagnostics, List.append_assoc]
  · rw [hsecond.observers, hfirst.observers, List.append_assoc]
  · rw [pages_append, listed_append, List.flatMap_append]
    exact (hfirst.linked.append hsecond.linked).trans (append_perm_middle _ _ _ _)
  · rw [notes_append, List.flatMap_append]
    exact (hfirst.noted.append hsecond.noted).trans (append_perm_middle _ _ _ _)
  · intro item hitem
    rcases List.mem_append.mp hitem with hold | hnew
    · exact (hfirst.agrees item hold).mono (fun _ => List.mem_append_left entries') hleft
    · exact (hsecond.agrees item hnew).mono (fun _ => List.mem_append_right entries) hright
  · exact hfirst.recorded.append hsecond.recorded

end Enrolled

theorem textAt_reason (metadata : JsonObject) (reason : Bytes) :
    textAt (Listing.supportMembers metadata reason) (bytes "reason") =
      if reason.isEmpty then none else some reason := by
  rw [textAt, Listing.supportMembers, JsonObject.find?_set, if_pos rfl, Option.bind_some]
  split <;> rfl

theorem explains_supportMembers (metadata : JsonObject) (reason : Bytes) :
    Explains (Listing.supportMembers metadata reason) := by
  rw [Explains, textAt_reason, Listing.supportMembers, JsonObject.find?_set, if_neg (by decide),
    JsonObject.find?_set, if_pos rfl]
  cases reason.isEmpty <;> rfl

/-- The diagnostic of an item is the one that was noted with it. -/
theorem itemNote_supportMembers {metadata : JsonObject} {owner href reason : Bytes}
    (hhref : memberPath owner (itemName (Listing.supportMembers metadata reason)) = href) :
    itemNote owner (Listing.supportMembers metadata reason) =
      if reason.isEmpty then [] else [href ++ bytes ": " ++ reason] := by
  rw [itemNote, textAt_reason, hhref]
  cases reason.isEmpty <;> rfl

/-- Entering a route leaves the rest of the publication alone. -/
theorem insert_kept {publication next : Publication Codec} {path : Bytes} {resource : Resource Codec}
    (h : insert publication path resource = .ok next) :
    next.diagnostics = publication.diagnostics ∧ next.observers = publication.observers := by
  unfold insert at h
  split at h
  next => cases h
  next =>
    cases h
    exact ⟨rfl, rfl⟩

section Member

variable {model : ObjectModel Codec} {services : Nat → Service} {id : Nat} {owner : Bytes}
  {category : Category} {listing next : Listing Codec}

/-- A member whose item is pushed, with the one route that is entered for it. -/
theorem Enrolled.member {referenced : List Bytes} {metadata : JsonObject} {href reason path : Bytes}
    {resource : Resource Codec}
    (h : ({ listing with referenced := referenced }.pushItem metadata href reason).insert path
      resource = .ok next)
    (hhref : memberPath owner (itemName (Listing.supportMembers metadata reason)) = href)
    (hlinks : links (Listing.supportMembers metadata reason) = [path])
    (hitems : resource.items? = none) (hpublished : resource.Published model)
    (hlisted : MemberListed services id [(path, resource)] [] owner
      (Listing.supportMembers metadata reason) category) :
    Enrolled model services id owner category listing next := by
  have hroutes := Listing.insert_extends h
  obtain ⟨publication, hinsert, hnext⟩ := bind_eq_ok.mp h
  cases hnext
  obtain ⟨hdiagnostics, hobservers⟩ := insert_kept hinsert
  have hnone : listings [(path, resource)] = [] := by simp [listings, hitems]
  refine ⟨[(path, resource)], [Listing.supportMembers metadata reason], _, [], hroutes, rfl,
    hdiagnostics, ?_, ?_, ?_, ?_, ?_⟩
  · rw [List.append_nil]
    exact hobservers
  · simp [pages, listed, hnone, hitems, hlinks]
  · simp [notes, hnone, itemNote_supportMembers hhref]
  · rw [List.forall_mem_singleton]
    exact ⟨hlisted, fun _ => explains_supportMembers metadata reason⟩
  · intro entry hentry
    rw [List.mem_singleton.mp hentry]
    refine ⟨hpublished, fun items hsome => ?_⟩
    rw [hitems] at hsome
    cases hsome

end Member

namespace ObjectModel

variable {model : ObjectModel Codec} {services : Nat → Service} {id : Nat} {path name : Bytes}
  {listing next : Listing Codec}

/-- A child path is the path of a member. -/
theorem memberPath_of_childPath {parent name path : Bytes} (h : childPath parent name = .ok path) :
    memberPath parent name = path :=
  (childPath_eq_ok h).2.1.symm

/-- The text of an unsupported type makes the item unsupported. -/
theorem isEmpty_reason (hmodel : model.Explained) (type : Option TypeInfo) (supported : Bool) :
    (if supported then [] else model.unsupported type).isEmpty = supported := by
  cases supported with
  | true => rfl
  | false => simpa using unsupported_ne_nil hmodel type

/-- `PUT` is allowed exactly on what can be assigned. -/
theorem methodAllowed_put {resource : Resource Codec} {assignable : Bool}
    (hallow : resource.allow = if assignable then writeAllow else readAllow) :
    methodAllowed resource (bytes "PUT") = assignable := by
  have hmethod : methodAllowed resource (bytes "PUT") =
      decide (bytes "PUT" <:+: resource.allow) := rfl
  rw [hmethod, hallow]
  cases assignable <;> decide

theorem summary_eq_ok {name description href : Bytes} {metadata : JsonObject}
    (h : summary name description href = .ok metadata) :
    metadata = [(bytes "name", .string name), (bytes "description", .string description),
      (bytes "href", .string href)] := by
  unfold summary at h
  split at h
  next =>
    cases h
    rfl
  next => cases h

/-- The item of a property or an attribute. -/
def valueItem (model : ObjectModel Codec) (name doc href : Bytes) (source : DataSource)
    (supported : Bool) : JsonObject :=
  Listing.supportMembers
    (JsonObject.set (JsonObject.set
      [(bytes "name", .string name), (bytes "description", .string doc), (bytes "href", .string href)]
      (bytes "rttType") (.string (typeName source.typeInfo)))
      (bytes "writable") (.bool source.assignable))
    (if supported then [] else model.unsupported source.typeInfo)

theorem valueListed_valueItem (hmodel : model.Explained) {owner name doc : Bytes}
    {source : DataSource} {supported : Bool} {resource : Resource Codec}
    (hkind : resource.kind = .value) (hsupported : resource.supported = supported)
    (hallow : resource.allow = if source.assignable then writeAllow else readAllow) :
    ValueListed [(memberPath owner name, resource)] owner
      (valueItem model name doc (memberPath owner name) source supported) := by
  refine ⟨rfl, resource, List.mem_singleton_self _, hkind, ?_, ?_⟩
  · rw [hsupported]
    exact congrArg (fun flag => some (Json.bool flag))
      (isEmpty_reason hmodel source.typeInfo supported)
  · rw [methodAllowed_put hallow]
    rfl

theorem describeValue_enrolled (hmodel : model.Explained) {category : Category}
    (hcategory : category = .properties ∨ category = .attributes)
    {member : Bytes → Except String (Option DataSource × Bytes)}
    (h : model.describeValue category.text path member listing name = .ok next) :
    Enrolled model services id (path ++ slash :: category.text) category listing next := by
  obtain ⟨href, hhref, h⟩ := bind_eq_ok.mp h
  obtain ⟨⟨source, doc⟩, -, h⟩ := bind_eq_ok.mp h
  cases source with
  | none => cases h
  | some source =>
      obtain ⟨metadata, hsummary, h⟩ := bind_eq_ok.mp h
      obtain rfl := summary_eq_ok hsummary
      obtain rfl := memberPath_of_childPath hhref
      refine Enrolled.member h rfl rfl rfl ?_ ?_
      · exact ⟨⟨⟨source, rfl, rfl⟩, fun hsome => (Bool.and_eq_true_iff.mp hsome).1⟩, nofun, nofun,
          fun _ => rfl⟩
      · rcases hcategory with rfl | rfl
        · show ValueListed _ _ (valueItem model name doc _ source _)
          exact valueListed_valueItem hmodel rfl rfl rfl
        · show ValueListed _ _ (valueItem model name doc _ source _)
          exact valueListed_valueItem hmodel rfl rfl rfl

/-- An operation whose signature was read. -/
theorem enrolled_operation {part : OperationPart} {final : Signature Codec}
    {result : Option (TypeBinding Codec)} {hasResult : Bool} {owner doc : Bytes}
    {resultType : Json}
    (hsignature : Described model
        { service := id, part := part, arguments := final.arguments
          collectTypes := final.collectTypes, collectBindings := final.collectBindings
          result := result, hasResult := hasResult, ownThread := part.ownThread
          outputs := final.outputs } final.reason.isEmpty ∧
      final.outputMetadata = final.outputs.map (outputItem part))
    (h : ({ listing with referenced := final.referenced }.pushItem
        (JsonObject.set (JsonObject.set (JsonObject.set
          [(bytes "name", .string name), (bytes "description", .string doc),
            (bytes "href", .string (memberPath owner name))]
          (bytes "result") resultType)
          (bytes "arguments") (.array final.inputMetadata))
          (bytes "outputs") (.array final.outputMetadata))
        (memberPath owner name) final.reason).insert (memberPath owner name)
      { kind := .operation, allow := bytes "POST, OPTIONS", supported := final.reason.isEmpty
        operation := some
          { service := id, part := part, arguments := final.arguments
            collectTypes := final.collectTypes, collectBindings := final.collectBindings
            result := result, hasResult := hasResult, ownThread := part.ownThread
            outputs := final.outputs } } = .ok next) :
    Enrolled model services id owner .operations listing next := by
  obtain ⟨hdescribed, hmetadata⟩ := hsignature
  refine Enrolled.member h rfl rfl rfl ?_ ?_
  · refine ⟨⟨rfl, _, rfl, ?_⟩, ?_, nofun, fun _ => rfl⟩
    · intro hsupported
      simp only at hsupported
      rw [hsupported] at hdescribed
      exact hdescribed.callable
    · rintro operation ⟨⟩
      exact hdescribed
  · refine ⟨rfl, _, _, List.mem_singleton_self _, rfl, rfl, rfl, ?_⟩
    exact congrArg (fun items => some (Json.array items)) hmetadata

theorem describeOperation_enrolled (hmodel : model.Explained) {service : Service}
    (h : model.describeOperation id service path listing name = .ok next) :
    Enrolled model services id (path ++ slash :: Category.text .operations) .operations
      listing next := by
  obtain ⟨href, hhref, h⟩ := bind_eq_ok.mp h
  cases hpart : service.getOperation name with
  | none =>
      rw [hpart] at h
      cases h
  | some part =>
      rw [hpart] at h
      obtain ⟨metadata, hsummary, h⟩ := bind_eq_ok.mp h
      obtain ⟨argued, hargued, h⟩ := bind_eq_ok.mp h
      obtain rfl := summary_eq_ok hsummary
      obtain rfl := memberPath_of_childPath hhref
      rcases hbound : model.bindingFor argued (part.argumentType 0) true with ⟨result, bound⟩
      simp only [hbound] at h
      refine enrolled_operation ?_ h
      exact described_of_signature hmodel hargued hbound rfl rfl rfl rfl

/-- The metadata of a port. -/
def portMetadata (port : Port) (name base : Bytes) : JsonObject :=
  JsonObject.set (JsonObject.set (JsonObject.set (JsonObject.set (JsonObject.set
    (JsonObject.erase
      [(bytes "name", .string name), (bytes "description", .string port.description),
        (bytes "href", .string base)] (bytes "href"))
    (bytes "rttType") (.string (typeName port.typeInfo)))
    (bytes "direction") (.string (if port.output then bytes "output" else bytes "input")))
    (bytes "retainsLastSample")
      (if port.output then .bool (port.output && port.keepsLastWrittenValue) else .null))
    (bytes "latestHref") (if port.output && port.keepsLastWrittenValue then
      .string (base ++ slash :: bytes "latest") else .null))
    (bytes "samplesHref")
      (if port.input then .string (base ++ slash :: bytes "samples") else .null)

/-- The item of a port. -/
abbrev portItem (port : Port) (name base reason : Bytes) : JsonObject :=
  Listing.supportMembers (portMetadata port name base) reason

theorem itemName_portItem (port : Port) (name base reason : Bytes) :
    itemName (portItem port name base reason) = name := by
  simp [itemName, portMetadata, Listing.supportMembers, JsonObject.find?_set, JsonObject.find?_erase,
    JsonObject.find?_cons, bytes_inj]

theorem links_portItem {port : Port} (hdirection : port.output = !port.input)
    (name base reason : Bytes) : links (portItem port name base reason) = portLinks port base := by
  simp only [links, List.filterMap_cons, List.filterMap_nil, textAt, portMetadata,
    Listing.supportMembers, JsonObject.find?_set, JsonObject.find?_erase, bytes_inj, hdirection]
  cases hinput : port.input <;> cases hkeeps : port.keepsLastWrittenValue <;>
    simp [portLinks, jsonText, hinput, hkeeps]

/-- An item of a port with the route that is entered for it, if there is one. -/
theorem portListed_portItem {service : Service} {port : Port} {owner name reason : Bytes}
    {routes : List (Bytes × Resource Codec)} {observers : List PortBridge}
    (hport : service.getPort name = some port) (hdirection : port.output = !port.input)
    (hroutes : ∀ link ∈ portLinks port (memberPath owner name), ∃ resource,
      (link, resource) ∈ routes ∧ resource.kind = (if port.input then .samples else .latest) ∧
        resource.supported = reason.isEmpty)
    (hobservers : portLinks port (memberPath owner name) = [] → ⟨port⟩ ∈ observers) :
    PortListed service routes observers owner (portItem port name (memberPath owner name) reason) := by
  have hlinks := links_portItem hdirection name (memberPath owner name) reason
  have hsupported : JsonObject.find? (portItem port name (memberPath owner name) reason)
      (bytes "jsonSupported") = some (.bool reason.isEmpty) := by
    simp [Listing.supportMembers, JsonObject.find?_set, bytes_inj]
  unfold PortListed
  rw [itemName_portItem]
  refine ⟨port, hport, hdirection, hlinks, ?_, ?_, ?_⟩
  · simp [portMetadata, Listing.supportMembers, JsonObject.find?_set, bytes_inj]
  · rw [hlinks, hsupported]
    intro link hlink
    obtain ⟨resource, hmem, hkind, hflag⟩ := hroutes link hlink
    exact ⟨resource, hmem, hkind, by rw [hflag]⟩
  · rw [hlinks]
    exact hobservers

/-- A port with a route. -/
theorem enrolled_routedPort {port : Port} {owner reason link : Bytes} {referenced : List Bytes}
    {resource : Resource Codec} (hport : (services id).getPort name = some port)
    (hdirection : port.output = !port.input)
    (hlink : portLinks port (memberPath owner name) = [link])
    (hkind : resource.kind = if port.input then .samples else .latest)
    (hsupported : resource.supported = reason.isEmpty) (hitems : resource.items? = none)
    (hpublished : resource.Published model)
    (h : ({ listing with referenced := referenced }.pushItem
      (portMetadata port name (memberPath owner name)) (memberPath owner name) reason).insert link
        resource = .ok next) : Enrolled model services id owner .ports listing next := by
  refine Enrolled.member h ?_ ?_ hitems hpublished ?_
  · rw [itemName_portItem]
  · rw [links_portItem hdirection, hlink]
  · refine portListed_portItem hport hdirection ?_ ?_
    · rw [hlink, List.forall_mem_singleton]
      exact ⟨resource, List.mem_singleton_self _, hkind, hsupported⟩
    · rw [hlink]
      intro hnone
      cases hnone

/-- A port that has only an observer. -/
theorem enrolled_observedPort {port : Port} {owner reason : Bytes}
    (hport : (services id).getPort name = some port) (hdirection : port.output = !port.input)
    (hlink : portLinks port (memberPath owner name) = [])
    (hitems : next.items = listing.items ++ [portItem port name (memberPath owner name) reason])
    (hroutes : next.publication.routes = listing.publication.routes)
    (hdiagnostics : next.publication.diagnostics = listing.publication.diagnostics ++
      if reason.isEmpty then [] else [memberPath owner name ++ bytes ": " ++ reason])
    (hobservers : next.publication.observers = listing.publication.observers ++ [⟨port⟩]) :
    Enrolled model services id owner .ports listing next := by
  refine ⟨[], [portItem port name (memberPath owner name) reason], _, [⟨port⟩], ?_, hitems,
    hdiagnostics, hobservers, ?_, ?_, ?_, ?_⟩
  · rw [hroutes]
    exact .refl _
  · simp [pages, listed, listings, links_portItem hdirection, hlink]
  · have hnote : itemNote owner (portItem port name (memberPath owner name) reason) = _ :=
      itemNote_supportMembers (congrArg (memberPath owner) (itemName_portItem ..))
    simp [notes, listings, hnote]
  · rw [List.forall_mem_singleton]
    refine ⟨portListed_portItem hport hdirection ?_ fun _ => List.mem_singleton_self _,
      fun _ => explains_supportMembers _ reason⟩
    rw [hlink]
    exact List.forall_mem_nil _
  · exact fun _ hentry => absurd hentry List.not_mem_nil

/-- The reason in the item of a port is empty exactly when the port is supported. -/
theorem isEmpty_portReason (hmodel : model.Explained) (type : Option TypeInfo)
    (supported bound : Bool) :
    (if supported then [] else if bound then
      bytes "HTTP codec has no typed retained sample reader" else model.unsupported type).isEmpty =
        supported := by
  cases supported with
  | true => rfl
  | false =>
      cases bound with
      | true => rfl
      | false => simpa using unsupported_ne_nil hmodel type

/-- A port that has a route is an input, or an output that retains its last value. -/
theorem port_routed {port : Port} (hdirection : port.output = !port.input)
    (hroute : (port.input || port.output && port.keepsLastWrittenValue) = true) :
    port.input = true ∧ port.output = false ∨
      port.input = false ∧ port.output = true ∧ port.keepsLastWrittenValue = true := by
  cases hinput : port.input with
  | true => exact .inl ⟨rfl, by rw [hdirection, hinput]; rfl⟩
  | false =>
      have houtput : port.output = true := by rw [hdirection, hinput]; rfl
      refine .inr ⟨rfl, houtput, ?_⟩
      rwa [hinput, houtput, Bool.false_or, Bool.true_and] at hroute

theorem published_port {port : Port} (hdirection : port.output = !port.input)
    (hroute : (port.input || port.output && port.keepsLastWrittenValue) = true)
    {binding : Option (TypeBinding Codec)} {supported : Bool}
    (hbinding : supported = true → binding.isSome = true) :
    Resource.Published model
      { kind := if port.input then .samples else .latest
        allow := if port.input then bytes "POST, OPTIONS" else bytes "GET, HEAD, OPTIONS"
        binding := binding, supported := supported
        output := if port.output then some port else none, bridge := some ⟨port⟩ } := by
  have hbridge : ∀ bridge, some (⟨port⟩ : PortBridge) = some bridge →
      (bridge.port.input || bridge.port.output && bridge.port.keepsLastWrittenValue) = true := by
    rintro bridge ⟨⟩
    exact hroute
  rcases port_routed hdirection hroute with ⟨hinput, houtput⟩ | ⟨hinput, houtput, -⟩
  · simp only [hinput, houtput, if_true, Bool.false_eq_true, if_false]
    exact ⟨⟨rfl, rfl, hbinding⟩, nofun, hbridge, fun _ => rfl⟩
  · simp only [hinput, houtput, if_true, Bool.false_eq_true, if_false]
    exact ⟨⟨rfl, rfl, hbinding⟩, nofun, hbridge, fun _ => rfl⟩

theorem describePort_enrolled [PortReader Codec] (hmodel : model.Explained)
    (h : model.describePort (services id) path listing name = .ok next) :
    Enrolled model services id (path ++ slash :: Category.text .ports) .ports listing next := by
  obtain ⟨base, hbase, h⟩ := bind_eq_ok.mp h
  cases hport : (services id).getPort name with
  | none =>
      rw [hport] at h
      cases h
  | some port =>
      rw [hport] at h
      simp only at h
      split at h
      next => cases h
      next hdiffers =>
        obtain ⟨metadata, hsummary, h⟩ := bind_eq_ok.mp h
        obtain rfl := summary_eq_ok hsummary
        obtain rfl := memberPath_of_childPath hbase
        have hdirection : port.output = !port.input := by
          cases houtput : port.output <;> cases hinput : port.input <;> simp_all
        split at h
        next => cases h
        next =>
          split at h
          next hroute =>
            refine enrolled_routedPort hport hdirection ?_ rfl ?_ rfl ?_ h
            · unfold portLinks
              rcases port_routed hdirection hroute with ⟨hinput, -⟩ | ⟨hinput, -, hkeeps⟩
              · simp only [hinput, if_true]
                rfl
              · simp only [hinput, hkeeps, if_true, Bool.false_eq_true, if_false]
                rfl
            · exact (isEmpty_portReason hmodel port.typeInfo _ _).symm
            · refine published_port hdirection hroute ?_
              cases model.catalog.find port.typeInfo with
              | none => exact fun hsome => nomatch hsome
              | some binding => exact fun _ => rfl
          next hroute =>
            cases h
            refine enrolled_observedPort hport hdirection ?_ rfl rfl rfl rfl
            rw [Bool.or_eq_true, not_or, Bool.not_eq_true, Bool.not_eq_true] at hroute
            obtain ⟨hinput, hretains⟩ := hroute
            have houtput : port.output = true := by rw [hdirection, hinput]; rfl
            rw [houtput, Bool.true_and] at hretains
            simp [portLinks, hinput, hretains]

end ObjectModel

end RttHttp.Model
