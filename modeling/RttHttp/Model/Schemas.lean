import RttHttp.Model.Shape
import RttHttp.Model.Types

/-! # Documents with their schemas

Every collection and every service is described by a document that lists its items
and has a `types` object. The type names that the items mention are exactly noted on
the way, so the schemas of all of them are in the same document.
-/

namespace RttHttp.Model

open JsonObject (mem_set)
open Route (slash childPath)

variable {Codec : Type}

/-- A type name under the key `rttType`, at any depth. -/
inductive Mentions : Json → Bytes → Prop
  | here {members : JsonObject} {name : Bytes}
      (hmember : (bytes "rttType", .string name) ∈ members) : Mentions (.object members) name
  | member {members : JsonObject} {key name : Bytes} {value : Json}
      (hmember : (key, value) ∈ members) (hvalue : Mentions value name) :
      Mentions (.object members) name
  | item {items : List Json} {value : Json} {name : Bytes} (hitem : value ∈ items)
      (hvalue : Mentions value name) : Mentions (.array items) name

/-- Every type name that a value mentions is among the noted ones. -/
def NotedIn (noted : List Bytes) (value : Json) : Prop :=
  ∀ name, Mentions value name → name ∈ noted

section Noted

variable {noted more : List Bytes} {value : Json} {object : JsonObject} {key : Bytes}

theorem NotedIn.mono (h : NotedIn noted value) (hmore : ∀ name ∈ noted, name ∈ more) :
    NotedIn more value :=
  fun name hname => hmore name (h name hname)

theorem NotedIn.null : NotedIn noted .null := fun _ hname => nomatch hname

theorem NotedIn.bool (truth : Bool) : NotedIn noted (.bool truth) := fun _ hname => nomatch hname

theorem NotedIn.string (text : Bytes) : NotedIn noted (.string text) := fun _ hname => nomatch hname

theorem NotedIn.ite {p : Prop} [Decidable p] {other : Json} (h : NotedIn noted value)
    (hother : NotedIn noted other) : NotedIn noted (if p then value else other) := by
  split
  · exact h
  · exact hother

theorem NotedIn.array {items : List Json} (h : ∀ item ∈ items, NotedIn noted item) :
    NotedIn noted (.array items) := by
  intro name hname
  cases hname with
  | item hitem hvalue => exact h _ hitem name hvalue

theorem NotedIn.subset {part : JsonObject} (h : NotedIn noted (.object object))
    (hpart : ∀ member ∈ part, member ∈ object) : NotedIn noted (.object part) := by
  intro name hname
  cases hname with
  | here hmember => exact h name (.here (hpart _ hmember))
  | member hmember hvalue => exact h name (.member (hpart _ hmember) hvalue)

/-- Setting a member adds what the member mentions. -/
theorem NotedIn.set (h : NotedIn noted (.object object)) (hvalue : NotedIn noted value)
    (hkey : key ≠ bytes "rttType") : NotedIn noted (.object (JsonObject.set object key value)) := by
  intro name hname
  cases hname with
  | here hmember =>
      rcases mem_set hmember with heq | hold
      · exact absurd (Prod.mk.inj heq).1.symm hkey
      · exact h name (.here hold)
  | member hmember hmentions =>
      rcases mem_set hmember with heq | hold
      · obtain ⟨-, rfl⟩ := Prod.mk.inj heq
        exact hvalue name hmentions
      · exact h name (.member hold hmentions)

theorem NotedIn.setType {type : Bytes} (h : NotedIn noted (.object object)) (htype : type ∈ noted) :
    NotedIn noted (.object (JsonObject.set object (bytes "rttType") (.string type))) := by
  intro name hname
  cases hname with
  | here hmember =>
      rcases mem_set hmember with heq | hold
      · obtain ⟨-, hsame⟩ := Prod.mk.inj heq
        cases hsame
        exact htype
      · exact h name (.here hold)
  | member hmember hmentions =>
      rcases mem_set hmember with heq | hold
      · obtain ⟨-, rfl⟩ := Prod.mk.inj heq
        cases hmentions
      · exact h name (.member hold hmentions)

/-- Members that are neither objects nor arrays mention nothing but their type. -/
theorem NotedIn.flat (htypes : ∀ name, (bytes "rttType", Json.string name) ∈ object → name ∈ noted)
    (hflat : ∀ member ∈ object, ∀ name, ¬ Mentions member.2 name) :
    NotedIn noted (.object object) := by
  intro name hname
  cases hname with
  | here hmember => exact htypes name hmember
  | member hmember hvalue => exact absurd hvalue (hflat _ hmember name)

theorem notedIn_summary {name description href : Bytes}
    (h : summary name description href = .ok object) : NotedIn noted (.object object) := by
  unfold summary at h
  split at h
  · cases h
    refine NotedIn.flat ?_ ?_
    · intro type hmember
      have hkeys : bytes "rttType" ∉ [bytes "name", bytes "description", bytes "href"] := by decide
      exact absurd (List.mem_map_of_mem (f := Prod.fst) hmember) hkeys
    · intro member hmember type hmentions
      simp only [List.mem_cons, List.not_mem_nil, or_false] at hmember
      rcases hmember with rfl | rfl | rfl <;> cases hmentions
  · cases h

end Noted

/-! ## Items -/

/-- The items of a listing mention noted types only. -/
def Listing.Noted (listing : Listing Codec) : Prop :=
  ∀ item ∈ listing.items, NotedIn listing.referenced (.object item)

section Items

variable {listing next : Listing Codec} {metadata : JsonObject}

theorem notedIn_supportMembers {noted : List Bytes} (reason : Bytes)
    (h : NotedIn noted (.object metadata)) :
    NotedIn noted (.object (Listing.supportMembers metadata reason)) := by
  refine NotedIn.set (NotedIn.set h ?_ (by decide)) ?_ (by decide)
  · exact .bool _
  · exact .ite .null (.string reason)

/-- Pushing an item whose types are noted. -/
theorem Listing.Noted.pushItem {referenced : List Bytes} (h : listing.Noted) (href reason : Bytes)
    (hreferenced : ∀ name ∈ listing.referenced, name ∈ referenced)
    (hitem : NotedIn referenced (.object metadata)) :
    ({ listing with referenced := referenced }.pushItem metadata href reason).Noted := by
  intro item hmem
  rcases List.mem_append.mp hmem with hold | hnew
  · exact (h item hold).mono hreferenced
  · rw [List.mem_singleton.mp hnew]
    exact notedIn_supportMembers reason hitem

theorem Listing.Noted.insert {path : Bytes} {resource : Resource Codec} (h : listing.Noted)
    (hinsert : listing.insert path resource = .ok next) : next.Noted := by
  obtain ⟨publication, -, hnext⟩ := bind_eq_ok.mp hinsert
  cases hnext
  exact h

end Items

/-! ## Signatures -/

/-- The metadata of an operation mentions noted types only. -/
structure ObjectModel.Signature.Noted (signature : ObjectModel.Signature Codec) : Prop where
  inputs : ∀ item ∈ signature.inputMetadata, NotedIn signature.referenced item
  outputs : ∀ item ∈ signature.outputMetadata, NotedIn signature.referenced item

namespace ObjectModel

variable {model : ObjectModel Codec} {signature next : Signature Codec} {part : OperationPart}

/-- A signature that notes at least the types another one notes. -/
structure Signature.Grows (signature next : Signature Codec) : Prop where
  inputs : next.inputMetadata = signature.inputMetadata
  outputs : next.outputMetadata = signature.outputMetadata
  referenced : ∀ name ∈ signature.referenced, name ∈ next.referenced

theorem Signature.Noted.grows (h : signature.Noted) (hgrows : signature.Grows next) :
    next.Noted := by
  refine ⟨?_, ?_⟩
  · rw [hgrows.inputs]
    exact fun item hitem => (h.inputs item hitem).mono hgrows.referenced
  · rw [hgrows.outputs]
    exact fun item hitem => (h.outputs item hitem).mono hgrows.referenced

theorem bindingFor_grows (model : ObjectModel Codec) (signature : Signature Codec)
    (type : Option TypeInfo) (allowVoid : Bool) :
    signature.Grows (model.bindingFor signature type allowVoid).2 ∧
      typeName type ∈ (model.bindingFor signature type allowVoid).2.referenced := by
  have hold : ∀ name ∈ signature.referenced, name ∈ setInsert signature.referenced (typeName type) :=
    fun name hname => mem_setInsert.mpr (.inr hname)
  have hnew : typeName type ∈ setInsert signature.referenced (typeName type) :=
    mem_setInsert.mpr (.inl rfl)
  unfold bindingFor
  simp only
  split
  · exact ⟨⟨rfl, rfl, hold⟩, hnew⟩
  · exact ⟨⟨rfl, rfl, hold⟩, hnew⟩

theorem notedIn_inputItem {noted : List Bytes} {i : Nat}
    (h : typeName (part.argumentType (i + 1)) ∈ noted) : NotedIn noted (inputItem part i) := by
  refine NotedIn.flat ?_ ?_
  · intro name hname
    have hkeys : bytes "rttType" ≠ bytes "name" ∧ bytes "rttType" ≠ bytes "description" ∧
        bytes "rttType" ≠ bytes "mode" := by decide
    simp only [List.mem_cons, Prod.mk.injEq, hkeys, false_and, true_and, false_or, Json.string.injEq,
      List.not_mem_nil, or_false] at hname
    exact hname ▸ h
  · intro member hmember name hmentions
    simp only [List.mem_cons, List.not_mem_nil, or_false] at hmember
    rcases hmember with rfl | rfl | rfl | rfl <;> cases hmentions

theorem notedIn_outputItem {noted : List Bytes} {i : Nat}
    (h : typeName (part.argumentType (i + 1)) ∈ noted) : NotedIn noted (outputItem part i) := by
  refine NotedIn.flat ?_ ?_
  · intro name hname
    have hkeys : bytes "rttType" ≠ bytes "argumentIndex" ∧ bytes "rttType" ≠ bytes "name" := by
      decide
    simp only [List.mem_cons, Prod.mk.injEq, hkeys, false_and, true_and, false_or, Json.string.injEq,
      List.not_mem_nil, or_false] at hname
    exact hname ▸ h
  · intro member hmember name hmentions
    simp only [List.mem_cons, List.not_mem_nil, or_false] at hmember
    rcases hmember with rfl | rfl | rfl <;> cases hmentions

/-- What one argument adds is noted. -/
theorem describeArgument_noted {i : Nat} (h : signature.Noted)
    (hnext : model.describeArgument part signature i = .ok next) :
    next.Noted ∧ ∀ name ∈ signature.referenced, name ∈ next.referenced := by
  obtain ⟨hgrows, htype⟩ := bindingFor_grows model signature (part.argumentType (i + 1)) false
  rw [describeArgument_eq] at hnext
  generalize model.bindingFor signature (part.argumentType (i + 1)) false = bound at hgrows htype hnext
  have hbound := h.grows hgrows
  have hinput := notedIn_inputItem htype
  have houtput := notedIn_outputItem htype
  simp only at hnext
  split at hnext
  next => cases hnext
  next =>
    split at hnext
    next =>
      cases hnext
      refine ⟨⟨?_, ?_⟩, hgrows.referenced⟩
      · exact List.forall_mem_append.mpr ⟨hbound.inputs, List.forall_mem_singleton.mpr hinput⟩
      · exact List.forall_mem_append.mpr ⟨hbound.outputs, List.forall_mem_singleton.mpr houtput⟩
    next =>
      cases hnext
      refine ⟨⟨?_, hbound.outputs⟩, hgrows.referenced⟩
      exact List.forall_mem_append.mpr ⟨hbound.inputs, List.forall_mem_singleton.mpr hinput⟩

/-- A collected value only adds its type. -/
theorem describeCollect_grows (hasResult : Bool) (expectedCollect i : Nat) :
    signature.Grows (model.describeCollect part hasResult expectedCollect signature i) := by
  have hgrows := (bindingFor_grows model
    { signature with collectTypes := signature.collectTypes ++ [part.collectType (i + 1)] }
    (part.collectType (i + 1)) false).1
  rw [describeCollect_eq]
  simp only
  split
  · split
    · exact ⟨hgrows.inputs, hgrows.outputs, hgrows.referenced⟩
    · exact ⟨hgrows.inputs, hgrows.outputs, hgrows.referenced⟩
  · exact ⟨hgrows.inputs, hgrows.outputs, hgrows.referenced⟩

theorem Signature.Grows.refl (signature : Signature Codec) : signature.Grows signature :=
  ⟨rfl, rfl, fun _ hname => hname⟩

theorem Signature.Grows.trans {last : Signature Codec} (h : signature.Grows next)
    (hlast : next.Grows last) : signature.Grows last :=
  ⟨hlast.inputs.trans h.inputs, hlast.outputs.trans h.outputs,
    fun name hname => hlast.referenced name (h.referenced name hname)⟩

theorem describeCollects_grows (hasResult : Bool) (expectedCollect : Nat) (indices : List Nat) :
    signature.Grows
      (indices.foldl (model.describeCollect part hasResult expectedCollect) signature) := by
  induction indices generalizing signature with
  | nil => exact .refl signature
  | cons i rest ih => exact (describeCollect_grows hasResult expectedCollect i).trans ih

end ObjectModel

/-! ## Documents -/

/-- A document with the types that its other members mention. -/
def ObjectModel.Documents (model : ObjectModel Codec) (members : JsonObject) : Prop :=
  ∃ references,
    JsonObject.find? members (bytes "types") = some (.object (model.types references)) ∧
    NotedIn references (.object (JsonObject.erase members (bytes "types")))

/-- The description of a collection or a service is such a document. -/
def Resource.Documented (model : ObjectModel Codec) (resource : Resource Codec) : Prop :=
  resource.kind = .description →
    ∃ members, resource.description = .object members ∧ model.Documents members

/-- The routes that were entered have documents. -/
def Enters (model : ObjectModel Codec) (before after : List (Bytes × Resource Codec)) : Prop :=
  ∀ entry ∈ after, entry ∈ before ∨ entry.2.Documented model

section Enters

variable {model : ObjectModel Codec} {a b c : List (Bytes × Resource Codec)}

theorem Enters.refl (routes : List (Bytes × Resource Codec)) : Enters model routes routes :=
  fun _ hentry => .inl hentry

theorem Enters.trans (hfirst : Enters model a b) (hsecond : Enters model b c) : Enters model a c := by
  intro entry hentry
  rcases hsecond entry hentry with hold | hnew
  · exact hfirst entry hold
  · exact .inr hnew

theorem Extends.enters {entries : List (Bytes × Resource Codec)} (h : Extends a b entries)
    (hentries : ∀ entry ∈ entries, entry.2.Documented model) : Enters model a b := by
  rw [h.eq]
  intro entry hentry
  rcases List.mem_append.mp hentry with hold | hnew
  · exact .inl hold
  · exact .inr (hentries entry hnew)

end Enters

/-- What describing some members does to a listing. -/
structure Lists (model : ObjectModel Codec) (listing next : Listing Codec) : Prop where
  noted : listing.Noted → next.Noted
  enters : Enters model listing.publication.routes next.publication.routes

theorem Lists.refl (model : ObjectModel Codec) (listing : Listing Codec) :
    Lists model listing listing :=
  ⟨id, .refl _⟩

theorem Lists.trans {model : ObjectModel Codec} {listing next last : Listing Codec}
    (hfirst : Lists model listing next) (hsecond : Lists model next last) :
    Lists model listing last :=
  ⟨fun h => hsecond.noted (hfirst.noted h), hfirst.enters.trans hsecond.enters⟩

/-- A resource that is not a description, entered after its item was pushed. -/
theorem Lists.member {model : ObjectModel Codec} {listing next : Listing Codec}
    {referenced : List Bytes} {metadata : JsonObject} {href reason path : Bytes}
    {resource : Resource Codec} (hreferenced : ∀ name ∈ listing.referenced, name ∈ referenced)
    (hitem : NotedIn referenced (.object metadata)) (hkind : resource.kind ≠ .description)
    (h : ({ listing with referenced := referenced }.pushItem metadata href reason).insert path
      resource = .ok next) : Lists model listing next where
  noted hnoted := (hnoted.pushItem href reason hreferenced hitem).insert h
  enters := (Listing.insert_extends h).enters fun entry hentry hdescription => by
    rw [List.mem_singleton.mp hentry] at hdescription
    exact absurd hdescription hkind

namespace ObjectModel

variable {model : ObjectModel Codec} {listing next : Listing Codec} {name : Bytes}

theorem describeValue_lists {category path : Bytes}
    {member : Bytes → Except String (Option DataSource × Bytes)}
    (h : model.describeValue category path member listing name = .ok next) :
    Lists model listing next := by
  obtain ⟨href, -, h⟩ := bind_eq_ok.mp h
  obtain ⟨⟨source, doc⟩, -, h⟩ := bind_eq_ok.mp h
  cases source with
  | none => cases h
  | some source =>
      obtain ⟨metadata, hsummary, h⟩ := bind_eq_ok.mp h
      refine Lists.member (fun name hname => mem_setInsert.mpr (.inr hname)) ?_ ?_ h
      · exact NotedIn.set (NotedIn.setType (notedIn_summary hsummary)
          (mem_setInsert.mpr (.inl rfl))) (.bool _) (by decide)
      · simp

theorem describeArguments_noted {part : OperationPart} {referenced : List Bytes}
    {indices : List Nat} {signature : Signature Codec}
    (h : indices.foldlM (model.describeArgument part) { referenced := referenced } = .ok signature) :
    signature.Noted ∧ ∀ name ∈ referenced, name ∈ signature.referenced := by
  have hstart : (⟨[], [], [], [], [], [], [], referenced⟩ : Signature Codec).Noted :=
    ⟨by simp, by simp⟩
  refine foldlM_invariant (p := fun signature : Signature Codec =>
    signature.Noted ∧ ∀ name ∈ referenced, name ∈ signature.referenced) ?_
    ⟨hstart, fun _ hname => hname⟩ h
  rintro i - state after ⟨hnoted, hkept⟩ hstep
  obtain ⟨hafter, hgrown⟩ := describeArgument_noted hnoted hstep
  exact ⟨hafter, fun name hname => hgrown name (hkept name hname)⟩

/-- What is checked once all arguments were read. -/
theorem checked_grows (model : ObjectModel Codec) (part : OperationPart)
    (signature : Signature Codec) (hasResult : Bool) (expectedCollect : Nat) :
    signature.Grows ((List.range part.collectArity).foldl
      (model.describeCollect part hasResult expectedCollect)
      (if part.collectArity ≠ expectedCollect then
        { signature with reason := bytes "unsupported RTT operation output signature" }
      else signature)) := by
  refine Signature.Grows.trans ?_ (describeCollects_grows hasResult expectedCollect _)
  split
  · exact ⟨rfl, rfl, fun _ hname => hname⟩
  · exact .refl signature

theorem describeOperation_lists {id : Nat} {service : Service} {path : Bytes}
    (h : model.describeOperation id service path listing name = .ok next) :
    Lists model listing next := by
  obtain ⟨href, -, h⟩ := bind_eq_ok.mp h
  cases hpart : service.getOperation name with
  | none =>
      rw [hpart] at h
      cases h
  | some part =>
      rw [hpart] at h
      obtain ⟨metadata, hsummary, h⟩ := bind_eq_ok.mp h
      obtain ⟨argued, hargued, h⟩ := bind_eq_ok.mp h
      obtain ⟨hnoted, hkept⟩ := describeArguments_noted hargued
      obtain ⟨hbound, htype⟩ := bindingFor_grows model argued (part.argumentType 0) true
      have hchecked := checked_grows model part
        (model.bindingFor argued (part.argumentType 0) true).2
        (decide (typeName (part.argumentType 0) ≠ bytes "Void"))
      have hfinal := fun expectedCollect => hbound.trans (hchecked expectedCollect)
      have hlast := fun expectedCollect => hnoted.grows (hfinal expectedCollect)
      refine Lists.member (fun name hname => (hfinal _).referenced name (hkept name hname)) ?_ ?_ h
      · refine NotedIn.set (NotedIn.set (NotedIn.set (notedIn_summary hsummary) ?_ (by decide)) ?_
          (by decide)) ?_ (by decide)
        · refine NotedIn.flat ?_ ?_
          · intro type hmember
            cases List.mem_singleton.mp hmember
            exact (hchecked _).referenced _ htype
          · intro member hmember type hmentions
            rw [List.mem_singleton.mp hmember] at hmentions
            cases hmentions
        · exact NotedIn.array (hlast _).inputs
        · exact NotedIn.array (hlast _).outputs
      · simp

theorem describePort_lists [PortReader Codec] {service : Service} {path : Bytes}
    (h : model.describePort service path listing name = .ok next) : Lists model listing next := by
  obtain ⟨base, -, h⟩ := bind_eq_ok.mp h
  cases hport : service.getPort name with
  | none =>
      rw [hport] at h
      cases h
  | some port =>
      rw [hport] at h
      simp only at h
      split at h
      next => cases h
      next =>
        obtain ⟨metadata, hsummary, h⟩ := bind_eq_ok.mp h
        have herased : NotedIn (setInsert listing.referenced (typeName port.typeInfo))
            (.object (JsonObject.erase metadata (bytes "href"))) :=
          (notedIn_summary hsummary).subset fun member hmember => (List.mem_filter.mp hmember).1
        have hitem := ((((herased.setType (mem_setInsert.mpr (.inl rfl))).set
          (.string (if port.output then bytes "output" else bytes "input"))
          (by decide : bytes "direction" ≠ _)).set
          (.ite (p := port.output = true) (.bool (port.output && port.keepsLastWrittenValue)) .null)
          (by decide : bytes "retainsLastSample" ≠ _)).set
          (.ite (p := (port.output && port.keepsLastWrittenValue) = true)
            (.string (base ++ slash :: bytes "latest")) .null)
          (by decide : bytes "latestHref" ≠ _)).set
          (.ite (p := port.input = true) (.string (base ++ slash :: bytes "samples")) .null)
          (by decide : bytes "samplesHref" ≠ _)
        have hold : ∀ name ∈ listing.referenced,
            name ∈ setInsert listing.referenced (typeName port.typeInfo) :=
          fun name hname => mem_setInsert.mpr (.inr hname)
        split at h
        next => cases h
        next =>
          split at h
          next =>
            refine Lists.member hold hitem ?_ h
            split <;> simp
          next =>
            cases h
            exact ⟨fun hnoted => hnoted.pushItem base _ hold hitem, .refl _⟩

/-! ## Services -/

/-- What describing a service enters and returns. -/
def DocumentSpec (model : ObjectModel Codec)
    (describe : Staging Codec → Option Nat → Bytes → Bytes →
      Except String (Staging Codec × JsonObject)) : Prop :=
  ∀ staging service name path result, describe staging service name path = .ok result →
    Enters model staging.publication.routes result.1.publication.routes ∧
      model.Documents result.2

variable {services : Nat → Service} {describe : Staging Codec → Option Nat → Bytes → Bytes →
  Except String (Staging Codec × JsonObject)}

theorem describeChild_lists (hspec : DocumentSpec model describe) {service : Service} {path : Bytes}
    (h : describeChild services describe service path listing name = .ok next) :
    Lists model listing next := by
  unfold describeChild at h
  split at h
  next =>
    cases h
    exact .refl model listing
  next =>
    obtain ⟨href, -, h⟩ := bind_eq_ok.mp h
    obtain ⟨⟨staging, description⟩, hdescribe, h⟩ := bind_eq_ok.mp h
    obtain ⟨henters, -⟩ := hspec _ _ _ _ _ hdescribe
    cases hchild : service.getService name with
    | none =>
        rw [hchild] at h
        cases h
    | some child =>
        rw [hchild] at h
        obtain ⟨item, hsummary, h⟩ := bind_eq_ok.mp h
        cases h
        refine ⟨fun hnoted => ?_, henters⟩
        exact List.forall_mem_append.mpr
          ⟨hnoted, List.forall_mem_singleton.mpr (notedIn_summary hsummary)⟩

variable [PortReader Codec] {id : Nat} {path : Bytes}

theorem describeMembers_lists (hspec : DocumentSpec model describe) {category : Category}
    (h : model.describeMembers services describe id path listing category = .ok next) :
    Lists model listing next := by
  have hfold : ∀ {names : List Bytes} {f : Listing Codec → Bytes → Except String (Listing Codec)},
      (∀ name state after, f state name = .ok after → Lists model state after) →
      names.foldlM f listing = .ok next → Lists model listing next := by
    intro names f hstep hfold
    refine foldlM_invariant (p := Lists model listing) ?_ (.refl model listing) hfold
    intro name _ state after hstate hafter
    exact hstate.trans (hstep name state after hafter)
  cases category with
  | services => exact hfold (fun _ _ _ => describeChild_lists hspec) h
  | properties => exact hfold (fun _ _ _ => describeValue_lists) h
  | attributes => exact hfold (fun _ _ _ => describeValue_lists) h
  | operations => exact hfold (fun _ _ _ => describeOperation_lists) h
  | ports => exact hfold (fun _ _ _ => describePort_lists) h

/-- What the description so far mentions is noted for the whole service. -/
structure Category.Rounds (model : ObjectModel Codec) (routes : List (Bytes × Resource Codec))
    (state : Staging Codec × JsonObject × List Bytes) : Prop where
  enters : Enters model routes state.1.publication.routes
  noted : NotedIn state.2.2 (.object state.2.1)

theorem describeCategory_rounds (hspec : DocumentSpec model describe) {category : Category}
    {routes : List (Bytes × Resource Codec)} {state after : Staging Codec × JsonObject × List Bytes}
    (hstate : Category.Rounds model routes state)
    (h : model.describeCategory services describe id path state category = .ok after) :
    Category.Rounds model routes after := by
  obtain ⟨listing, hmembers, h⟩ := bind_eq_ok.mp h
  obtain ⟨publication, hinsert, h⟩ := bind_eq_ok.mp h
  cases h
  have hlists := describeMembers_lists hspec hmembers
  have hnoted : listing.Noted := hlists.noted fun item hitem => absurd hitem List.not_mem_nil
  have hitems : NotedIn listing.referenced (.array ((sortItems listing.items).map .object)) := by
    refine .array fun value hvalue => ?_
    obtain ⟨item, hitem, rfl⟩ := List.mem_map.mp hvalue
    exact hnoted item ((List.perm_insertionSort ..).mem_iff.mp hitem)
  refine ⟨(hstate.enters.trans hlists.enters).trans ((insert_extends hinsert).enters ?_), ?_⟩
  · rw [List.forall_mem_singleton]
    refine fun _ => ⟨_, rfl, listing.referenced, rfl, ?_⟩
    intro name hname
    cases hname with
    | here hmember =>
        have hkey := List.mem_map_of_mem (f := Prod.fst) (List.mem_filter.mp hmember).1
        exact absurd hkey (by decide : bytes "rttType" ∉ [bytes "items", bytes "types"])
    | member hmember hvalue =>
        obtain ⟨hmem, hkey⟩ := List.mem_filter.mp hmember
        simp only [List.mem_cons, List.not_mem_nil, or_false] at hmem
        rcases hmem with heq | heq
        · cases heq
          exact hitems name hvalue
        · cases heq
          exact absurd rfl (of_decide_eq_true hkey)
  · have hold : ∀ name ∈ state.2.2, name ∈ listing.referenced.foldl setInsert state.2.2 :=
      fun name hname => mem_foldl_setInsert.mpr (.inr hname)
    have hnew : ∀ name ∈ listing.referenced, name ∈ listing.referenced.foldl setInsert state.2.2 :=
      fun name hname => mem_foldl_setInsert.mpr (.inl hname)
    refine (hstate.noted.mono hold).set (hitems.mono hnew) ?_
    cases category <;> decide

/-- Every description that is entered, and the one returned, has its schemas. -/
theorem describeService_documents (fuel : Nat) :
    DocumentSpec model (model.describeService services fuel) := by
  induction fuel with
  | zero =>
      intro staging service name path result h
      cases h
  | succ fuel ih =>
      intro staging service name path result h
      cases service with
      | none => cases h
      | some id =>
          unfold describeService at h
          split at h
          next => cases h
          next =>
            obtain ⟨description, hsummary, h⟩ := bind_eq_ok.mp h
            obtain ⟨⟨after, members, allTypes⟩, hfold, h⟩ := bind_eq_ok.mp h
            obtain ⟨publication, hinsert, h⟩ := bind_eq_ok.mp h
            cases h
            have hrounds : Category.Rounds model staging.publication.routes
                (after, members, allTypes) :=
              foldlM_invariant (fun _ _ _ _ => describeCategory_rounds ih)
                ⟨.refl _, notedIn_summary hsummary⟩ hfold
            have hdocument : model.Documents
                (JsonObject.set members (bytes "types") (.object (model.types allTypes))) := by
              refine ⟨allTypes, ?_, hrounds.noted.subset ?_⟩
              · rw [JsonObject.find?_set, if_pos rfl]
              · intro member hmember
                obtain ⟨hset, hkey⟩ := List.mem_filter.mp hmember
                refine (mem_set hset).resolve_left ?_
                rintro rfl
                exact of_decide_eq_true hkey rfl
            refine ⟨hrounds.enters.trans ((insert_extends hinsert).enters ?_), hdocument⟩
            rw [List.forall_mem_singleton]
            exact fun _ => ⟨_, rfl, hdocument⟩

end ObjectModel

end RttHttp.Model
