import RttHttp.Machine.OrderedMap
import RttHttp.Model.Interface
import RttHttp.Route.Path
import Mathlib.Data.List.Sort

/-! # Publication of a service graph

`describeService` walks the services of a component, builds the metadata that is
listed, and enters one resource for every route. It throws on the first thing it
cannot publish, and then nothing of the publication is kept.
-/

namespace RttHttp.Model

open Route (slash childPath)

variable {Codec : Type}

inductive ResourceKind where
  | description
  | value
  | operation
  | latest
  | samples
  deriving DecidableEq, Repr

/-- The connection to one port that the publication owns. -/
structure PortBridge where
  port : Port
  deriving DecidableEq, Repr

structure Operation (Codec : Type) where
  service : Nat
  part : OperationPart
  arguments : List (Option (TypeBinding Codec))
  collectTypes : List (Option TypeInfo)
  collectBindings : List (Option (TypeBinding Codec))
  result : Option (TypeBinding Codec)
  hasResult : Bool
  ownThread : Bool
  outputs : List Nat

structure Resource (Codec : Type) where
  kind : ResourceKind := .description
  allow : Bytes := bytes "GET, HEAD, OPTIONS"
  description : Json := .null
  source : Option DataSource := none
  binding : Option (TypeBinding Codec) := none
  output : Option Port := none
  bridge : Option PortBridge := none
  operation : Option (Operation Codec) := none
  supported : Bool := true

structure Publication (Codec : Type) where
  component : Nat
  service : Option Nat
  summary : JsonObject := []
  routes : List (Bytes × Resource Codec) := []
  diagnostics : List Bytes := []
  observers : List PortBridge := []

structure ObjectModel (Codec : Type) where
  catalog : TypeCatalog Codec
  diagnostics : List (Bytes × Bytes)
  publications : List (Bytes × Publication Codec) := []

/-- Lexicographic order of byte strings. -/
def bytesLt (a b : Bytes) : Bool := a.lex b (· < ·)

/-- `std::set::insert`, in the order of iteration. -/
def setInsert (set : List Bytes) (name : Bytes) : List Bytes :=
  if name ∈ set then set
  else set.takeWhile (bytesLt · name) ++ name :: set.dropWhile (bytesLt · name)

/-- The name an item is sorted by. -/
def itemName (item : JsonObject) : Bytes :=
  match JsonObject.find? item (bytes "name") with
  | some (.string name) => name
  | _ => []

def sortItems (items : List JsonObject) : List JsonObject :=
  items.insertionSort fun a b => bytesLt (itemName b) (itemName a) = false

def summary (name description href : Bytes) : Except String JsonObject :=
  if validUtf8 description then
    .ok [(bytes "name", .string name), (bytes "description", .string description),
      (bytes "href", .string href)]
  else .error "RTT description is not valid UTF-8"

/-- `routes.emplace`, which must insert. -/
def insert (publication : Publication Codec) (path : Bytes) (resource : Resource Codec) :
    Except String (Publication Codec) :=
  if (publication.routes.lookup path).isSome then
    .error "duplicate RTT resource identity during publication"
  else .ok { publication with routes := publication.routes ++ [(path, resource)] }

namespace ObjectModel

def unsupported (model : ObjectModel Codec) (type : Option TypeInfo) : Bytes :=
  (model.diagnostics.lookup (typeName type)).getD (bytes "no registered HTTP JSON codec")

/-- The loop of `types`; `pending` is a stack that grows at its head. -/
def typesLoop (model : ObjectModel Codec) : (fuel : Nat) → (pending : List Bytes) → JsonObject → JsonObject
  | 0, _, result => result
  | _ + 1, [], result => result
  | fuel + 1, name :: pending, result =>
      if JsonObject.contains result name then model.typesLoop fuel pending result
      else match model.catalog.findName name with
        | some binding =>
            model.typesLoop fuel (binding.registration.dependencies.reverse ++ pending)
              (result ++ [(name, .object binding.registration.descriptor)])
        | none =>
            model.typesLoop fuel pending (result ++ [(name, .object
              [(bytes "kind", .null), (bytes "jsonSupported", .bool false),
                (bytes "reason", .string ((model.diagnostics.lookup name).getD
                  (bytes "no registered HTTP JSON codec")))])])

/-- Every name is popped once for each time it was pushed. -/
def types (model : ObjectModel Codec) (references : List Bytes) : JsonObject :=
  let pushes := (model.catalog.types.map fun entry => entry.2.registration.dependencies.length).sum
  model.typesLoop (references.length + pushes + 1) references.reverse []

end ObjectModel

/-- The locals of one pass over a category, with the publication they belong to. -/
structure Listing (Codec : Type) where
  publication : Publication Codec
  ancestry : List Nat
  items : List JsonObject := []
  referenced : List Bytes := []

namespace Listing

def noteType (listing : Listing Codec) (type : Option TypeInfo) : Listing Codec :=
  { listing with referenced := setInsert listing.referenced (typeName type) }

/-- The two metadata members that `noteUnsupported` sets. -/
def supportMembers (metadata : JsonObject) (reason : Bytes) : JsonObject :=
  JsonObject.set (JsonObject.set metadata (bytes "jsonSupported") (.bool reason.isEmpty))
    (bytes "reason") (if reason.isEmpty then .null else .string reason)

/-- `noteUnsupported` followed by `items.push_back`. -/
def pushItem (listing : Listing Codec) (metadata : JsonObject) (href reason : Bytes) :
    Listing Codec :=
  { listing with
    items := listing.items ++ [supportMembers metadata reason]
    publication := { listing.publication with
      diagnostics := listing.publication.diagnostics ++
        if reason.isEmpty then [] else [href ++ bytes ": " ++ reason] } }

def insert (listing : Listing Codec) (path : Bytes) (resource : Resource Codec) :
    Except String (Listing Codec) := do
  let publication ← Model.insert listing.publication path resource
  return { listing with publication := publication }

end Listing

/-- The five collections of a service. -/
inductive Category where
  | services
  | properties
  | attributes
  | operations
  | ports
  deriving DecidableEq, Repr

namespace Category

def text : Category → Bytes
  | .services => bytes "services"
  | .properties => bytes "properties"
  | .attributes => bytes "attributes"
  | .operations => bytes "operations"
  | .ports => bytes "ports"

def all : List Category := [.services, .properties, .attributes, .operations, .ports]

end Category

namespace ObjectModel

variable (model : ObjectModel Codec)

/-- One property or attribute: its data source and its documentation. -/
def describeValue (category : Bytes) (path : Bytes)
    (member : Bytes → Except String (Option DataSource × Bytes)) (listing : Listing Codec)
    (memberName : Bytes) : Except String (Listing Codec) := do
  let href ← childPath (path ++ slash :: category) memberName
  let (source, doc) ← member memberName
  match source with
  | none => .error "RTT member has no data source"
  | some source =>
      let type := source.typeInfo
      let binding := model.catalog.find type
      let supported := binding.isSome && typeName type ≠ bytes "Void"
      let resource : Resource Codec :=
        { kind := .value, source := some source, binding := binding, supported := supported
          allow := if source.assignable then bytes "GET, HEAD, PUT, OPTIONS"
            else bytes "GET, HEAD, OPTIONS" }
      let metadata ← summary memberName doc href
      let metadata := JsonObject.set metadata (bytes "rttType") (.string (typeName type))
      let metadata := JsonObject.set metadata (bytes "writable") (.bool source.assignable)
      let listing := (listing.noteType type).pushItem metadata href
        (if supported then [] else model.unsupported type)
      listing.insert href resource

def propertyMember (service : Service) (memberName : Bytes) :
    Except String (Option DataSource × Bytes) :=
  match service.getProperty memberName with
  | none => .error "RTT property disappeared during publication"
  | some property => .ok (property.source, property.description)

def attributeMember (service : Service) (memberName : Bytes) :
    Except String (Option DataSource × Bytes) :=
  match service.getValue memberName with
  | none => .error "RTT attribute disappeared during publication"
  | some value => .ok (value.source, [])

/-- The locals of one operation, with the type names it refers to. -/
structure Signature (Codec : Type) where
  arguments : List (Option (TypeBinding Codec)) := []
  outputs : List Nat := []
  collectTypes : List (Option TypeInfo) := []
  collectBindings : List (Option (TypeBinding Codec)) := []
  inputMetadata : List Json := []
  outputMetadata : List Json := []
  reason : Bytes := []
  referenced : List Bytes

/-- `bindingFor`: note the type, and why the operation is unsupported if it is. -/
def bindingFor (signature : Signature Codec) (type : Option TypeInfo) (allowVoid : Bool) :
    Option (TypeBinding Codec) × Signature Codec :=
  let binding := model.catalog.find type
  let signature := { signature with referenced := setInsert signature.referenced (typeName type) }
  if binding.isNone || (!allowVoid && typeName type = bytes "Void") then
    (binding, { signature with reason := model.unsupported type })
  else (binding, signature)

/-- One argument of an operation. -/
def describeArgument (part : OperationPart) (signature : Signature Codec) (i : Nat) :
    Except String (Signature Codec) :=
  let type := part.argumentType (i + 1)
  let (binding, signature) := model.bindingFor signature type false
  let signature := { signature with arguments := signature.arguments ++ [binding] }
  let argument := part.argumentList[i]?
  let argumentName := match argument with
    | some argument =>
        if argument.name.isEmpty then bytes "argument" ++ bytes (toString (i + 1)) else argument.name
    | none => bytes "argument" ++ bytes (toString (i + 1))
  let doc := (argument.map (·.description)).getD []
  if !validUtf8 argumentName || !validUtf8 doc then .error "invalid UTF-8 operation metadata"
  else
    let output := (argument.map fun argument => isMutableReference argument.type).getD false
    let signature := { signature with
      inputMetadata := signature.inputMetadata ++ [.object
        [(bytes "name", .string argumentName), (bytes "description", .string doc),
          (bytes "rttType", .string (typeName type)),
          (bytes "mode", .string (if output then bytes "inout" else bytes "in"))]] }
    if output then
      .ok { signature with
        outputs := signature.outputs ++ [i]
        outputMetadata := signature.outputMetadata ++ [.object
          [(bytes "argumentIndex", .uint64 (UInt64.ofNat i)), (bytes "name", .string argumentName),
            (bytes "rttType", .string (typeName type))]] }
    else .ok signature

/-- One collected value of an operation. -/
def describeCollect (part : OperationPart) (hasResult : Bool) (expectedCollect : Nat)
    (signature : Signature Codec) (i : Nat) : Signature Codec :=
  let type := part.collectType (i + 1)
  let signature := { signature with collectTypes := signature.collectTypes ++ [type] }
  let (binding, signature) := model.bindingFor signature type false
  let signature := { signature with collectBindings := signature.collectBindings ++ [binding] }
  if i < expectedCollect then
    let expected :=
      if hasResult && i = 0 then part.argumentType 0
      else part.argumentType (signature.outputs[i - (if hasResult then 1 else 0)]?.getD 0 + 1)
    if expected ≠ type then
      { signature with reason := bytes "inconsistent RTT operation output metadata" }
    else signature
  else signature

def describeOperation (id : Nat) (service : Service) (path : Bytes) (listing : Listing Codec)
    (memberName : Bytes) : Except String (Listing Codec) := do
  let href ← childPath (path ++ slash :: bytes "operations") memberName
  match service.getOperation memberName with
  | none => .error "RTT operation disappeared during publication"
  | some part =>
      let metadata ← summary memberName part.description href
      let signature ← (List.range part.arity).foldlM (model.describeArgument part)
        { referenced := listing.referenced }
      let returnType := part.argumentType 0
      let hasResult := decide (typeName returnType ≠ bytes "Void")
      let (result, signature) := model.bindingFor signature returnType true
      let metadata := JsonObject.set metadata (bytes "result")
        (.object [(bytes "rttType", .string (typeName returnType))])
      let expectedCollect := signature.outputs.length + (if hasResult then 1 else 0)
      let signature :=
        if part.collectArity ≠ expectedCollect then
          { signature with reason := bytes "unsupported RTT operation output signature" }
        else signature
      let signature := (List.range part.collectArity).foldl
        (model.describeCollect part hasResult expectedCollect) signature
      let metadata := JsonObject.set metadata (bytes "arguments") (.array signature.inputMetadata)
      let metadata := JsonObject.set metadata (bytes "outputs") (.array signature.outputMetadata)
      let listing := { listing with referenced := signature.referenced }.pushItem metadata href
        signature.reason
      listing.insert href
        { kind := .operation, allow := bytes "POST, OPTIONS", supported := signature.reason.isEmpty
          operation := some
            { service := id, part := part, arguments := signature.arguments
              collectTypes := signature.collectTypes, collectBindings := signature.collectBindings
              result := result, hasResult := hasResult, ownThread := part.ownThread
              outputs := signature.outputs } }

def describePort [PortReader Codec] (service : Service) (path : Bytes) (listing : Listing Codec)
    (memberName : Bytes) : Except String (Listing Codec) := do
  let base ← childPath (path ++ slash :: bytes "ports") memberName
  match service.getPort memberName with
  | none => .error "RTT port disappeared during publication"
  | some port =>
      if port.output = port.input then .error "invalid RTT port direction"
      else
        let type := port.typeInfo
        let binding := model.catalog.find type
        let supported := match binding with
          | some binding => !port.output || PortReader.supportsPortValue binding.codec
          | none => false
        let retains := port.output && port.keepsLastWrittenValue
        let metadata ← summary memberName port.description base
        let metadata := JsonObject.erase metadata (bytes "href")
        let metadata := JsonObject.set metadata (bytes "rttType") (.string (typeName type))
        let metadata := JsonObject.set metadata (bytes "direction")
          (.string (if port.output then bytes "output" else bytes "input"))
        let metadata := JsonObject.set metadata (bytes "retainsLastSample")
          (if port.output then .bool retains else .null)
        let metadata := JsonObject.set metadata (bytes "latestHref")
          (if retains then .string (base ++ slash :: bytes "latest") else .null)
        let metadata := JsonObject.set metadata (bytes "samplesHref")
          (if port.input then .string (base ++ slash :: bytes "samples") else .null)
        let listing := (listing.noteType type).pushItem metadata base
          (if supported then []
            else if binding.isSome then bytes "HTTP codec has no typed retained sample reader"
            else model.unsupported type)
        if !port.connects then .error "failed to construct HTTP-owned RTT port connection"
        else
          let resource : Resource Codec :=
            { kind := if port.input then .samples else .latest
              allow := if port.input then bytes "POST, OPTIONS" else bytes "GET, HEAD, OPTIONS"
              binding := binding, supported := supported
              output := if port.output then some port else none, bridge := some ⟨port⟩ }
          if port.input || retains then
            listing.insert (base ++ slash :: bytes (if port.input then "samples" else "latest"))
              resource
          else
            -- A non-retaining output keeps its observer but has no route.
            .ok { listing with publication := { listing.publication with
              observers := listing.publication.observers ++ [⟨port⟩] } }

/-- What the whole staging works on: the publication and the set of services on
the path from the root. -/
structure Staging (Codec : Type) where
  publication : Publication Codec
  ancestry : List Nat

def graphError : String := "RTT service graph is missing, cyclic, or too deep"

variable (services : Nat → Service)

/-- One child service, described by `describe`. -/
def describeChild
    (describe : Staging Codec → Option Nat → Bytes → Bytes →
      Except String (Staging Codec × JsonObject))
    (service : Service) (path : Bytes) (listing : Listing Codec) (childName : Bytes) :
    Except String (Listing Codec) :=
  if childName = bytes "this" then .ok listing
  else do
    let child := service.getService childName
    let href ← childPath (path ++ slash :: bytes "services") childName
    let (staging, _) ← describe ⟨listing.publication, listing.ancestry⟩ child childName href
    match child with
    | none => .error graphError
    | some child =>
        let item ← summary childName (services child).doc href
        return { listing with
          publication := staging.publication, ancestry := staging.ancestry
          items := listing.items ++ [item] }

/-- The members of one category. -/
def describeMembers [PortReader Codec]
    (describe : Staging Codec → Option Nat → Bytes → Bytes →
      Except String (Staging Codec × JsonObject))
    (id : Nat) (path : Bytes) (listing : Listing Codec) : Category → Except String (Listing Codec)
  | .services =>
      (services id).providerNames.foldlM (describeChild services describe (services id) path) listing
  | .properties =>
      (services id).propertyNames.foldlM
        (model.describeValue (bytes "properties") path (propertyMember (services id))) listing
  | .attributes =>
      (services id).attributeNames.foldlM
        (model.describeValue (bytes "attributes") path (attributeMember (services id))) listing
  | .operations =>
      (services id).operationNames.foldlM (model.describeOperation id (services id) path) listing
  | .ports =>
      (services id).portNames.foldlM (model.describePort (services id) path) listing

/-- One round of the loop over the categories, with the description so far. -/
def describeCategory [PortReader Codec]
    (describe : Staging Codec → Option Nat → Bytes → Bytes →
      Except String (Staging Codec × JsonObject))
    (id : Nat) (path : Bytes) (state : Staging Codec × JsonObject × List Bytes)
    (category : Category) : Except String (Staging Codec × JsonObject × List Bytes) := do
  let (staging, description, allTypes) := state
  let listing ← model.describeMembers services describe id path
    { publication := staging.publication, ancestry := staging.ancestry } category
  let items : Json := .array ((sortItems listing.items).map .object)
  let publication ← insert listing.publication (path ++ slash :: category.text)
    { description := .object
        [(bytes "items", items), (bytes "types", .object (model.types listing.referenced))] }
  return (⟨publication, listing.ancestry⟩, JsonObject.set description category.text items,
    listing.referenced.foldl setInsert allTypes)

/-- `describeService`; `fuel` is the number of levels left, 65 at depth 0. -/
def describeService [PortReader Codec] : (fuel : Nat) → Staging Codec → Option Nat → (name path : Bytes) →
    Except String (Staging Codec × JsonObject)
  | 0, _, _, _, _ => .error graphError
  | _ + 1, _, none, _, _ => .error graphError
  | fuel + 1, staging, some id, name, path =>
      if id ∈ staging.ancestry then .error graphError
      else do
        let description ← summary name (services id).doc path
        let (staging, description, allTypes) ← Category.all.foldlM
          (model.describeCategory services (describeService fuel) id path)
          (⟨staging.publication, id :: staging.ancestry⟩, description, [])
        let description := JsonObject.set description (bytes "types") (.object (model.types allTypes))
        let publication ← insert staging.publication path { description := .object description }
        return (⟨publication, staging.ancestry.erase id⟩, description)

/-- Build the publication of a component. -/
def stage [PortReader Codec] (component : TaskContext) : Except String (Publication Codec) := do
  let path ← childPath Route.root component.name
  let (staging, _) ← model.describeService services 65
    ⟨{ component := component.address, service := component.provides }, []⟩ component.provides
    component.name path
  match component.provides with
  | none => .error graphError
  | some id =>
      let item ← summary component.name (services id).doc path
      return { staging.publication with
        summary := item
        diagnostics := staging.publication.diagnostics.insertionSort fun a b => bytesLt b a = false }

/-- Enter a publication under the name of its component, unless that name is taken. -/
def commit (name : Bytes) (publication : Publication Codec) :
    Except String (ObjectModel Codec) :=
  match model.publications.lookup name with
  | none =>
      .ok { model with
        publications := OrderedMap.emplace bytesLt model.publications name publication }
  | some existing =>
      if existing.component = publication.component then .ok model
      else .error "another RTT component instance has this published name"

/-- The listing of all published components. -/
def rootResource (publications : List (Bytes × Publication Codec)) : Resource Codec where
  description := .object
    [(bytes "items", .array (publications.map fun entry => .object entry.2.summary)),
      (bytes "types", .object [])]

def resolve (path : Bytes) : Option (Resource Codec) :=
  if path = Route.root then some (rootResource model.publications)
  else model.publications.findSome? fun entry => entry.2.routes.lookup path

def contains (component : Nat) : Bool :=
  model.publications.any fun entry => entry.2.component == component

end ObjectModel

/-- A computation that succeeded went through each of its steps. -/
theorem bind_eq_ok {ε α β : Type} {x : Except ε α} {f : α → Except ε β} {result : β} :
    (x >>= f) = .ok result ↔ ∃ value, x = .ok value ∧ f value = .ok result := by
  cases x <;> simp [bind, Except.bind]

/-- A loop keeps what each of its rounds keeps. -/
theorem foldlM_invariant {ε ι σ : Type} {f : σ → ι → Except ε σ} {p : σ → Prop} {xs : List ι}
    (hstep : ∀ x ∈ xs, ∀ state next, p state → f state x = .ok next → p next)
    {state final : σ} (hstate : p state) (hfold : xs.foldlM f state = .ok final) : p final := by
  induction xs generalizing state with
  | nil =>
      cases hfold
      exact hstate
  | cons x rest ih =>
      rw [List.foldlM_cons, bind_eq_ok] at hfold
      obtain ⟨next, hnext, hrest⟩ := hfold
      exact ih (fun y hy => hstep y (List.mem_cons_of_mem _ hy))
        (hstep x List.mem_cons_self state next hstate hnext) hrest

theorem mem_setInsert {set : List Bytes} {name other : Bytes} :
    other ∈ setInsert set name ↔ other = name ∨ other ∈ set := by
  unfold setInsert
  split
  next hmem =>
    constructor
    · exact .inr
    · rintro (rfl | h)
      · exact hmem
      · exact h
  next =>
    rw [List.mem_append, List.mem_cons, or_left_comm, ← List.mem_append,
      List.takeWhile_append_dropWhile]

theorem mem_foldl_setInsert {names set : List Bytes} {other : Bytes} :
    other ∈ names.foldl setInsert set ↔ other ∈ names ∨ other ∈ set := by
  induction names generalizing set with
  | nil => simp
  | cons name rest ih =>
      rw [List.foldl_cons, ih, mem_setInsert, List.mem_cons]
      tauto

end RttHttp.Model
