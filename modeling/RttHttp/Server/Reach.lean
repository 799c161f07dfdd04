import RttHttp.Model.Growth
import RttHttp.Server.Handle

/-! # What a request reaches

A request that gets as far as the admission boundary addresses a supported
resource with a method of its kind, and has staged what that method passes on.
The method was checked on the resource that preflight found; since models only
grow, the later lookup finds the same methods.
-/

namespace RttHttp.Server

open Codec (CodecContext TypeCodec Value)
open Executor (Prepared prepareInvocation requestLimits)
open Http (Library Request methodAllowed)
open Model (Component ObjectModel Operation PortReader Resource TypeBinding readAllow writeAllow
  postAllow)
open Route (canonicalRequestPath)

/-! ## Methods -/

section Methods

variable {resource : Resource TypeCodec} {request : Request}

theorem methodAllowed_cases (h : methodAllowed resource request.method = true)
    (hoptions : request.method ≠ bytes "OPTIONS") :
    (request.method = bytes "GET" ∨ request.method = bytes "HEAD") ∧
        (bytes "GET").isPrefixOf resource.allow = true ∨
      request.method = bytes "PUT" ∧ bytes "PUT" <:+: resource.allow ∨
      request.method = bytes "POST" ∧ (bytes "POST").isPrefixOf resource.allow = true := by
  unfold methodAllowed at h
  rw [if_neg hoptions] at h
  split at h
  next hread => exact .inl ⟨hread, h⟩
  next =>
    split at h
    next hput => exact .inr (.inl ⟨hput, of_decide_eq_true h⟩)
    next => exact .inr (.inr (by simpa using h))

theorem isMutation_of_read (hread : request.method = bytes "GET" ∨ request.method = bytes "HEAD") :
    isMutation request = false := by
  unfold isMutation
  rcases hread with hread | hread <;> rw [hread] <;> decide

theorem isMutation_of_put (hput : request.method = bytes "PUT") : isMutation request = true := by
  simp [isMutation, hput]

theorem isMutation_of_post (hpost : request.method = bytes "POST") : isMutation request = true := by
  simp [isMutation, hpost]

/-- Only reading is allowed. -/
theorem read_of_allowed (hallow : resource.allow = readAllow)
    (h : methodAllowed resource request.method = true)
    (hoptions : request.method ≠ bytes "OPTIONS") : isMutation request = false := by
  rcases methodAllowed_cases h hoptions with ⟨hread, -⟩ | ⟨-, hallowed⟩ | ⟨-, hallowed⟩
  · exact isMutation_of_read hread
  · rw [hallow] at hallowed
    exact absurd hallowed (by decide)
  · rw [hallow] at hallowed
    exact absurd hallowed (by decide)

/-- Only posting is allowed. -/
theorem post_of_allowed (hallow : resource.allow = postAllow)
    (h : methodAllowed resource request.method = true)
    (hoptions : request.method ≠ bytes "OPTIONS") : request.method = bytes "POST" := by
  rcases methodAllowed_cases h hoptions with ⟨-, hallowed⟩ | ⟨-, hallowed⟩ | ⟨hpost, -⟩
  · rw [hallow] at hallowed
    exact absurd hallowed (by decide)
  · rw [hallow] at hallowed
    exact absurd hallowed (by decide)
  · exact hpost

/-- Reading is allowed, and replacing where there is something to assign to. -/
theorem read_or_put_of_allowed {assignable : Bool}
    (hallow : resource.allow = if assignable then writeAllow else readAllow)
    (h : methodAllowed resource request.method = true)
    (hoptions : request.method ≠ bytes "OPTIONS") :
    isMutation request = false ∨ request.method = bytes "PUT" ∧ assignable = true := by
  cases assignable with
  | false => exact .inl (read_of_allowed hallow h hoptions)
  | true =>
      rcases methodAllowed_cases h hoptions with ⟨hread, -⟩ | ⟨hput, -⟩ | ⟨-, hallowed⟩
      · exact .inl (isMutation_of_read hread)
      · exact .inr ⟨hput, rfl⟩
      · rw [hallow] at hallowed
        exact absurd hallowed (by decide)

end Methods

/-! ## The published models -/

/-- The two models that a request looks into are what a server has published at one
time and at a later time. -/
def Circumstances.Published [PortReader TypeCodec] (circumstances : Circumstances) : Prop :=
  ∃ (initial : ObjectModel TypeCodec) (components more : List Component),
    initial.Created ∧ components.foldlM ObjectModel.publish initial = .ok circumstances.before ∧
      more.foldlM ObjectModel.publish circumstances.before = .ok circumstances.after

section Published

variable [PortReader TypeCodec] {circumstances : Circumstances} (h : circumstances.Published)

include h

/-- Both models have grown, and nothing but publications was added. -/
theorem Circumstances.Published.sound : circumstances.before.Sound ∧ circumstances.after.Sound ∧
    circumstances.before.Grows circumstances.after ∧ circumstances.after.Explained := by
  obtain ⟨initial, components, more, hcreated, hbefore, hafter⟩ := h
  have hinitial : initial.Sound := ObjectModel.sound_of_empty hcreated.publications
  obtain ⟨hbeforeSound, hfirst⟩ := ObjectModel.grows_of_publish hinitial hbefore
  obtain ⟨hafterSound, hsecond⟩ := ObjectModel.grows_of_publish hbeforeSound hafter
  exact ⟨hbeforeSound, hafterSound, hsecond, (hfirst.trans hsecond).explained hcreated.explained⟩

theorem Circumstances.Published.published {path : Bytes} {resource : Resource TypeCodec}
    (hresolve : circumstances.after.resolve path = some resource) :
    resource.Published circumstances.after := by
  obtain ⟨-, hafter, -, hexplained⟩ := h.sound
  exact hafter.published hexplained hresolve

/-- The methods of the resource that is found are those that preflight saw. -/
theorem Circumstances.Published.allow {path : Bytes} {resource earlier : Resource TypeCodec}
    (hbefore : circumstances.before.resolve path = some earlier)
    (hafter : circumstances.after.resolve path = some resource) :
    resource.allow = earlier.allow := by
  obtain ⟨hbeforeSound, hafterSound, hgrows, -⟩ := h.sound
  obtain ⟨later, hlater, hallow⟩ := hgrows.allow hbeforeSound hafterSound hbefore
  obtain rfl := Option.some.inj (hafter.symm.trans hlater)
  exact hallow

end Published

/-! ## Up to the boundary -/

/-- The resource that the request addresses when it is handled. -/
def Addresses (request : Request) (circumstances : Circumstances)
    (resource : Resource TypeCodec) : Prop :=
  ∃ path, canonicalRequestPath request.target = some path ∧
    circumstances.after.resolve path = some resource

theorem Addresses.unique {request : Request} {circumstances : Circumstances}
    {first second : Resource TypeCodec} (hfirst : Addresses request circumstances first)
    (hsecond : Addresses request circumstances second) : first = second := by
  obtain ⟨path, hpath, hresolve⟩ := hfirst
  obtain ⟨other, hother, hresolve'⟩ := hsecond
  obtain rfl := Option.some.inj (hpath.symm.trans hother)
  exact Option.some.inj (hresolve.symm.trans hresolve')

section Reached

variable {library : Library} {rtt : Rtt} {options : ServerOptions} {request : Request}
  {circumstances : Circumstances} {resource : Resource TypeCodec}

/-- A request that passes preflight addresses a resource that allows its method. -/
theorem preflight_eq_ok {checkpoint : Checkpoint} {model : ObjectModel TypeCodec}
    (h : preflight library options request checkpoint model = .ok ()) :
    checkpoint.running = true ∧ ∃ path found, canonicalRequestPath request.target = some path ∧
      model.resolve path = some found ∧ methodAllowed found request.method = true ∧
      request.method ≠ bytes "OPTIONS" := by
  obtain ⟨-, -, h⟩ := Model.bind_eq_ok.mp h
  split at h
  next => cases h
  next path hpath =>
    split at h
    next => cases h
    next hrunning =>
      split at h
      next => cases h
      next found hfound =>
        split at h
        next => cases h
        next hallowed =>
          split at h
          next => cases h
          next hoptions =>
            refine ⟨by simpa using hrunning, path, found, hpath, hfound, by simpa using hallowed, hoptions⟩

/-- A resource that is found behind preflight allows the method as well. -/
theorem Circumstances.Published.allowed [PortReader TypeCodec] (hpublished : circumstances.Published)
    {checkpoint : Checkpoint} (hpreflight : preflight library options request checkpoint
      circumstances.before = .ok ()) {path : Bytes}
    (hpath : canonicalRequestPath request.target = some path)
    (hresolve : circumstances.after.resolve path = some resource) :
    methodAllowed resource request.method = true ∧ request.method ≠ bytes "OPTIONS" ∧
      resource.Published circumstances.after := by
  obtain ⟨-, other, found, hother, hfound, hallowed, hoptions⟩ := preflight_eq_ok hpreflight
  obtain rfl := Option.some.inj (hpath.symm.trans hother)
  refine ⟨?_, hoptions, hpublished.published hresolve⟩
  unfold methodAllowed at hallowed ⊢
  rw [hpublished.allow hfound hresolve]
  exact hallowed

/-- A request that is decided on looked up a supported resource. -/
theorem decideRequest_eq_ok {staged : Staged}
    (h : decideRequest library rtt options request circumstances = .ok (resource, staged)) :
    preflight library options request circumstances.first circumstances.before = .ok () ∧
      (∃ path, canonicalRequestPath request.target = some path ∧
        circumstances.after.resolve path = some resource) ∧
      resource.supported = true ∧
      ∃ body, readBody library options request resource = .ok body ∧
        stageInput library rtt options request resource body = .ok staged := by
  obtain ⟨⟨⟩, hpreflight, h⟩ := Model.bind_eq_ok.mp h
  obtain ⟨⟨⟩, -, h⟩ := Model.bind_eq_ok.mp h
  split at h
  next => cases h
  next found hfound =>
    obtain ⟨path, hpath, hresolve⟩ := Option.bind_eq_some_iff.mp hfound
    obtain ⟨body, hbody, h⟩ := Model.bind_eq_ok.mp h
    split at h
    next => cases h
    next hsupported =>
      obtain ⟨input, hinput, h⟩ := Model.bind_eq_ok.mp h
      cases h
      exact ⟨hpreflight, ⟨path, hpath, hresolve⟩, by simpa using hsupported, body, hbody, hinput⟩

theorem singleton_of_contains {members : JsonObject} {name : Bytes} (hlength : members.length = 1)
    (hcontains : JsonObject.contains members name = true) : ∃ value, members = [(name, value)] := by
  obtain ⟨⟨key, value⟩, rfl⟩ := List.length_eq_one_iff.mp hlength
  have hkey : name = key := by
    by_contra hne
    rw [JsonObject.contains, JsonObject.find?_cons, if_neg hne] at hcontains
    cases hcontains
  exact ⟨value, by rw [hkey]⟩

theorem bodyAt_singleton (name : Bytes) (value : Json) :
    bodyAt (.object [(name, value)]) name = .ok value := by
  simp [bodyAt, JsonObject.find?_cons]

/-- The body is the given member and nothing else. -/
def Envelops (library : Library) (options : ServerOptions) (request : Request) (name : Bytes)
    (value : Json) : Prop :=
  library.parseJson request.body (requestLimits options) = .ok (.ok (.object [(name, value)]))

/-- The value that the body holds, in the type of the resource. -/
def Decodes (library : Library) (options : ServerOptions) (request : Request)
    (resource : Resource TypeCodec) (value : Value) : Prop :=
  ∃ json binding, Envelops library options request (bytes "value") json ∧
    resource.binding = some binding ∧
    (Codec.makeDataSource binding.codec json (.fresh (requestLimits options))).output = some value

/-- The call that the body asks for. -/
def Prepares (library : Library) (rtt : Rtt) (options : ServerOptions) (request : Request)
    (resource : Resource TypeCodec) (prepared : Prepared) : Prop :=
  ∃ arguments operation, Envelops library options request (bytes "arguments") (.array arguments) ∧
    resource.operation = some operation ∧ arguments.length = operation.arguments.length ∧
    prepareInvocation rtt.caller operation arguments options = .ok prepared

/-- The envelope of a mutation. -/
structure Envelope (library : Library) (options : ServerOptions) (request : Request)
    (resource : Resource TypeCodec) (body : Json) : Prop where
  envelops : ∃ value, body = .object [(bodyField resource, value)] ∧
    Envelops library options request (bodyField resource) value
  arguments : resource.kind = .operation → ∃ arguments operation,
    body = .object [(bytes "arguments", .array arguments)] ∧
      resource.operation = some operation ∧ arguments.length = operation.arguments.length

theorem readBody_eq_ok {body : Json}
    (h : readBody library options request resource = .ok body) :
    isMutation request = true → Envelope library options request resource body := by
  intro hmutation
  unfold readBody at h
  rw [if_pos hmutation] at h
  split at h
  next => cases h
  next => cases h
  next parsed hparse =>
    split at h
    next members =>
      split at h
      next => cases h
      next henvelope =>
        simp only [not_or, not_not, Bool.not_eq_false] at henvelope
        obtain ⟨value, rfl⟩ := singleton_of_contains henvelope.1 henvelope.2
        split at h
        next hkind =>
          have hfield : bodyField resource = bytes "arguments" := by simp [bodyField, hkind]
          rw [hfield] at h hparse
          split at h
          next arguments harguments =>
            rw [JsonObject.find?_cons, if_pos rfl] at harguments
            cases harguments
            split at h
            next => cases h
            next operation hoperation =>
              split at h
              next => cases h
              next hlength =>
                cases h
                refine ⟨⟨_, by rw [hfield], by rw [hfield]; exact hparse⟩, fun _ => ?_⟩
                exact ⟨arguments, operation, rfl, hoperation, not_not.mp hlength⟩
          next => cases h
        next hkind =>
          cases h
          exact ⟨⟨value, rfl, hparse⟩, fun hoperation => absurd hoperation hkind⟩
    next => cases h

/-- What a request with a resource has staged, by the kind of the resource. -/
inductive Reached (library : Library) (rtt : Rtt) (options : ServerOptions) (request : Request)
    (resource : Resource TypeCodec) : Staged → Prop
  | description (hkind : resource.kind = .description) (hread : isMutation request = false) :
      Reached library rtt options request resource .nothing
  | read (hkind : resource.kind = .value) (hread : isMutation request = false) :
      Reached library rtt options request resource .nothing
  | assign {value : Value} (hkind : resource.kind = .value) (hput : request.method = bytes "PUT")
      (hdecodes : Decodes library options request resource value) :
      Reached library rtt options request resource (.value value)
  | latest (hkind : resource.kind = .latest) (hread : isMutation request = false) :
      Reached library rtt options request resource .nothing
  | samples {value : Value} (hkind : resource.kind = .samples)
      (hpost : request.method = bytes "POST")
      (hdecodes : Decodes library options request resource value) :
      Reached library rtt options request resource (.value value)
  | operation {prepared : Prepared} (hkind : resource.kind = .operation)
      (hpost : request.method = bytes "POST")
      (hprepares : Prepares library rtt options request resource prepared) :
      Reached library rtt options request resource (.invocation prepared)

/-- Nothing is staged for reading. -/
theorem stageInput_read {body : Json} {staged : Staged} (hread : isMutation request = false)
    (hkind : resource.kind ≠ .operation)
    (h : stageInput library rtt options request resource body = .ok staged) : staged = .nothing := by
  unfold stageInput at h
  rw [if_neg (by simp [hread]), if_neg hkind] at h
  cases h
  rfl

/-- The value of a mutation is decoded by the codec of the resource. -/
theorem stageInput_value {body : Json} {staged : Staged} (hmutation : isMutation request = true)
    (hkind : resource.kind ≠ .operation)
    (henvelope : Envelope library options request resource body)
    (h : stageInput library rtt options request resource body = .ok staged) :
    ∃ value, staged = .value value ∧ Decodes library options request resource value := by
  have hfield : bodyField resource = bytes "value" := by simp [bodyField, hkind]
  obtain ⟨⟨member, rfl, henvelops⟩, -⟩ := henvelope
  unfold stageInput at h
  rw [if_pos (by simp [hmutation, hkind])] at h
  obtain ⟨⟨⟩, -, h⟩ := Model.bind_eq_ok.mp h
  obtain ⟨json, hjson, h⟩ := Model.bind_eq_ok.mp h
  rw [hfield, bodyAt_singleton] at hjson
  cases hjson
  cases hbinding : resource.binding with
  | none =>
      simp only [hbinding] at h
      cases h
  | some binding =>
      simp only [hbinding] at h
      split at h
      next => cases h
      next decoded hdecoded =>
        cases h
        exact ⟨decoded, rfl, member, binding, hfield ▸ henvelops, hbinding, hdecoded⟩

/-- A call is prepared from the arguments in the body. -/
theorem stageInput_operation {body : Json} {staged : Staged} (hkind : resource.kind = .operation)
    (henvelope : Envelope library options request resource body)
    (h : stageInput library rtt options request resource body = .ok staged) :
    ∃ prepared, staged = .invocation prepared ∧
      Prepares library rtt options request resource prepared := by
  have hfield : bodyField resource = bytes "arguments" := by simp [bodyField, hkind]
  obtain ⟨⟨member, hbody, henvelops⟩, harguments⟩ := henvelope
  obtain ⟨arguments, operation, rfl, hoperation, hlength⟩ := harguments hkind
  rw [hfield] at hbody henvelops
  cases hbody
  unfold stageInput at h
  rw [if_neg (by simp [hkind]), if_pos hkind] at h
  obtain ⟨⟨⟩, -, h⟩ := Model.bind_eq_ok.mp h
  obtain ⟨json, hjson, h⟩ := Model.bind_eq_ok.mp h
  rw [bodyAt_singleton] at hjson
  cases hjson
  simp only [hoperation] at h
  split at h
  next => cases h
  next => cases h
  next prepared hprepared =>
    cases h
    exact ⟨prepared, rfl, arguments, operation, henvelops, hoperation, hlength, hprepared⟩

/-- Everything that a request has behind it at the boundary. -/
theorem reached_of_decideRequest [PortReader TypeCodec] {staged : Staged}
    (hpublished : circumstances.Published)
    (h : decideRequest library rtt options request circumstances = .ok (resource, staged)) :
    resource.supported = true ∧ resource.Published circumstances.after ∧
      (∃ path, canonicalRequestPath request.target = some path ∧
        circumstances.after.resolve path = some resource) ∧
      Reached library rtt options request resource staged := by
  obtain ⟨hpreflight, ⟨path, hpath, hresolve⟩, hsupported, body, hbody, hinput⟩ :=
    decideRequest_eq_ok h
  obtain ⟨hallowed, hoptions, hresource⟩ := hpublished.allowed hpreflight hpath hresolve
  have hshaped := hresource.shaped
  refine ⟨hsupported, hresource, ⟨path, hpath, hresolve⟩, ?_⟩
  unfold Model.Resource.Shaped at hshaped
  cases hkind : resource.kind with
  | description =>
      rw [hkind] at hshaped
      have hread := read_of_allowed hshaped hallowed hoptions
      obtain rfl := stageInput_read hread (by simp [hkind]) hinput
      exact .description hkind hread
  | value =>
      rw [hkind] at hshaped
      obtain ⟨⟨source, -, hmethods⟩, -⟩ := hshaped
      rcases read_or_put_of_allowed hmethods hallowed hoptions with hread | ⟨hput, -⟩
      · obtain rfl := stageInput_read hread (by simp [hkind]) hinput
        exact .read hkind hread
      · have hmutation := isMutation_of_put hput
        obtain ⟨value, rfl, hdecodes⟩ :=
          stageInput_value hmutation (by simp [hkind]) (readBody_eq_ok hbody hmutation) hinput
        exact .assign hkind hput hdecodes
  | latest =>
      rw [hkind] at hshaped
      have hread := read_of_allowed hshaped.1 hallowed hoptions
      obtain rfl := stageInput_read hread (by simp [hkind]) hinput
      exact .latest hkind hread
  | samples =>
      rw [hkind] at hshaped
      have hpost := post_of_allowed hshaped.1 hallowed hoptions
      have hmutation := isMutation_of_post hpost
      obtain ⟨value, rfl, hdecodes⟩ :=
        stageInput_value hmutation (by simp [hkind]) (readBody_eq_ok hbody hmutation) hinput
      exact .samples hkind hpost hdecodes
  | operation =>
      rw [hkind] at hshaped
      have hpost := post_of_allowed hshaped.1 hallowed hoptions
      have hmutation := isMutation_of_post hpost
      obtain ⟨prepared, rfl, hprepares⟩ :=
        stageInput_operation hkind (readBody_eq_ok hbody hmutation) hinput
      exact .operation hkind hpost hprepares

end Reached

/-! ## A component to talk to -/

section Example

instance : PortReader TypeCodec := ⟨fun _ => true⟩

def flagType : Model.TypeInfo := ⟨1, bytes "bool"⟩

def flagBinding : TypeBinding TypeCodec where
  registration := ⟨bytes "rtt", bytes "1", bytes "bool", bytes "1", bytes "bool", [], []⟩
  codec := .typed .bool

/-- A model that knows nothing but flags. -/
def flagModel : ObjectModel TypeCodec where
  catalog := ⟨[(bytes "bool", flagBinding)], [(1, bytes "bool")]⟩
  diagnostics := []

/-- A valve with the property `open`, the operation `toggle`, which gives its
argument back, and the input port `command`. -/
def valveServices : Nat → Model.Service := fun _ =>
  { Model.emptyService with
    propertyNames := [bytes "open"]
    getProperty := fun _ => some ⟨some ⟨10, some flagType, true⟩, []⟩
    operationNames := [bytes "toggle"]
    getOperation := fun _ => some
      { address := 20, description := []
        argumentList := [⟨bytes "state", [], bytes "bool &"⟩]
        arity := 1, argumentType := fun _ => some flagType
        collectArity := 2, collectType := fun _ => some flagType, ownThread := true }
    portNames := [bytes "command"]
    getPort := fun _ => some
      { address := 30, description := [], output := false, input := true
        typeInfo := some flagType, keepsLastWrittenValue := false, connects := true } }

def valve : Component := ⟨⟨1, bytes "valve", some 0⟩, valveServices⟩

/-- The model with the valve. -/
def valveModel : ObjectModel TypeCodec :=
  match [valve].foldlM ObjectModel.publish flagModel with
  | .ok model => model
  | .error _ => flagModel

theorem publish_valve : [valve].foldlM ObjectModel.publish flagModel = .ok valveModel := by
  have hok : ([valve].foldlM ObjectModel.publish flagModel).toOption.isSome = true := by
    decide +kernel
  unfold valveModel
  cases h : [valve].foldlM ObjectModel.publish flagModel with
  | ok model => rfl
  | error message =>
      rw [h] at hok
      cases hok

theorem flagModel_created : flagModel.Created := ⟨rfl, .inl rfl⟩

/-- RTT as the valve needs it: everything goes through at once. -/
def valveRtt : Rtt where
  caller _ _ :=
    { ready := true, send := some true, buildValue := fun _ => some (.typed .bool false)
      collectorReady := true }
  castsTo _ _ := true
  store source value values := (none, Function.update values source.address value)
  update source value values := (.ok true, Function.update values source.address value)
  evaluate _ := .ok true
  sample _ _ := .ok .waiting
  peerWrites _ := true
  write _ _ := .ok .writeSuccess

theorem valveRtt_lawful : valveRtt.Lawful :=
  ⟨fun _ _ _ => (if_pos rfl).symm, fun _ _ _ => (if_pos rfl).symm⟩

/-- A library that has parsed the body already. -/
def parsedLibrary (body : Json) : Library where
  statusMessage _ := []
  parseJson _ _ := .ok (.ok body)
  serializeJson _ _ := .ok (.ok [])
  throws _ := none

/-- A request with a JSON body. -/
def jsonRequest (method target body : String) : Request where
  method := bytes method
  target := bytes target
  headers := [(bytes "Content-Type", bytes "application/json")]
  body := bytes body

/-- A running server with the valve; a call finishes with status 200, and all the
values it collects are set. -/
def valveCircumstances : Circumstances where
  first := ⟨.running, false⟩
  second := ⟨.running, false⟩
  before := valveModel
  after := valveModel
  invocation := 0
  fault := none
  polls := [⟨true, false, false, false⟩]
  status := 200
  values _ := .typed .bool true

/-- Every flag is false, and nothing is pending. -/
def valveLive : Live :=
  ⟨fun _ => .typed .bool false, Executor.OperationExecutor.start 1 fun _ => true⟩

theorem valveCircumstances_published : valveCircumstances.Published :=
  ⟨flagModel, [valve], [], flagModel_created, publish_valve, rfl⟩

end Example

end RttHttp.Server
