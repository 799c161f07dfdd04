import RttHttp.Model.Schemas
import RttHttp.Registry.Canonical

/-! # Schemas of a frozen catalog

Every binding of a frozen catalog was validated when it was registered, so its
descriptor refers to its dependencies and to nothing else. The documents of the object
model are then self-contained.
-/

namespace RttHttp.Registry

open Model (AnyCodec Closes Gathering Mentions ObjectModel PortReader Service TypeCatalog
  TypeRegistration)
open Relation (ReflTransGen)

variable {formatter : Formatter} {Codec : Type} {typeName : TypeId → Bytes}

/-! ## References -/

/-- The type names that a descriptor of each kind refers to. -/
inductive Refers (descriptor : JsonObject) (name : Bytes) : Prop
  | element
      (hkind : JsonObject.find? descriptor (bytes "kind") = some (.string (bytes "array")))
      (htype : JsonObject.find? descriptor (bytes "elementType") = some (.string name))
  | underlying
      (hkind : JsonObject.find? descriptor (bytes "kind") = some (.string (bytes "enum")))
      (htype : JsonObject.find? descriptor (bytes "underlyingType") = some (.string name))
  | field {fields : List Json} {field : JsonObject}
      (hkind : JsonObject.find? descriptor (bytes "kind") = some (.string (bytes "object")))
      (hfields : JsonObject.find? descriptor (bytes "fields") = some (.array fields))
      (hfield : .object field ∈ fields)
      (htype : JsonObject.find? field (bytes "rttType") = some (.string name))

theorem find?_of_nameMember {object : JsonObject} {key text : Bytes}
    (h : nameMember object key = some text) : JsonObject.find? object key = some (.string text) := by
  unfold nameMember at h
  split at h
  next found hfound =>
    split at h
    next =>
      cases h
      exact hfound
    next => cases h
  next => cases h

/-- The loop over the fields keeps the references it has and takes that of every field. -/
theorem mem_fieldReferences {fields : List Json} {names references result : List Bytes}
    (h : fieldReferences fields names references = some result) :
    (∀ name ∈ references, name ∈ result) ∧ ∀ field, .object field ∈ fields → ∀ name,
      JsonObject.find? field (bytes "rttType") = some (.string name) → name ∈ result := by
  induction fields generalizing names references with
  | nil =>
      cases h
      exact ⟨fun _ hname => hname, fun _ hfield => absurd hfield List.not_mem_nil⟩
  | cons first rest ih =>
      cases first with
      | object members =>
          rw [fieldReferences] at h
          split at h
          next found type hname htype =>
            split at h
            next => cases h
            next =>
              obtain ⟨hkept, htaken⟩ := ih h
              refine ⟨fun name hname => hkept name (List.mem_cons_of_mem _ hname), ?_⟩
              intro field hfield name hfound
              rcases List.mem_cons.mp hfield with heq | hrest
              · cases heq
                rw [find?_of_nameMember htype] at hfound
                cases hfound
                exact hkept type List.mem_cons_self
              · exact htaken field hrest name hfound
          next => cases h
      | _ => cases h

/-- What a registered descriptor refers to is a registered dependency. -/
theorem ReferencesMatch.mem_dependencies {registration : TypeRegistration}
    (h : ReferencesMatch registration) {name : Bytes} (hrefers : Refers registration.descriptor name) :
    name ∈ registration.dependencies := by
  obtain ⟨kind, references, hkind, hreferences, hsame⟩ := h
  rw [← hsame]
  have hfound := find?_of_nameMember hkind
  unfold descriptorReferences at hreferences
  cases hrefers with
  | element hother htype =>
      cases hfound.symm.trans hother
      rw [if_neg (by decide), if_neg (by decide), if_neg (by decide), if_pos rfl] at hreferences
      split at hreferences
      next type helement =>
        cases (find?_of_nameMember helement).symm.trans htype
        split at hreferences
        next =>
          cases hreferences
          exact List.mem_cons_self
        next => cases hreferences
      next => cases hreferences
  | underlying hother htype =>
      cases hfound.symm.trans hother
      rw [if_neg (by decide), if_neg (by decide), if_pos rfl] at hreferences
      split at hreferences
      next type hunderlying =>
        cases (find?_of_nameMember hunderlying).symm.trans htype
        cases hreferences
        exact List.mem_cons_self
      next => cases hreferences
  | field hother hfields hfield htype =>
      cases hfound.symm.trans hother
      rw [if_neg (by decide), if_neg (by decide), if_neg (by decide), if_neg (by decide), if_pos rfl,
        hfields] at hreferences
      simp only at hreferences
      split at hreferences
      next found hloop =>
        cases hreferences
        exact (mem_fieldReferences hloop).2 _ hfield name htype
      next => cases hreferences

/-! ## Frozen catalogs -/

/-- Every binding of the catalog was validated. -/
def ValidCatalog (catalog : TypeCatalog Codec) : Prop :=
  ∀ name binding, catalog.findName name = some binding →
    validateRegistration binding.registration = .ok ()

theorem Consistent.validCatalog {state : State formatter Codec} (h : Consistent typeName state) :
    ValidCatalog (stagedCatalog typeName state.registrations) := by
  intro name binding hbinding
  rw [findName_stagedCatalog] at hbinding
  obtain ⟨⟨type, protocol⟩, hentry, heq⟩ := List.mem_map.mp (Model.mem_of_lookup hbinding)
  cases heq
  exact h.valid type protocol ((OrderedMap.lookup_eq_some_iff h.distinct).mpr hentry)

/-- A freeze returns the catalog it builds, or the one that is there. -/
theorem freeze_returned {state : State formatter Codec} {exhausted : Bool}
    {catalog : TypeCatalog Codec} {error : Bytes}
    (h : (freezeTypeCatalog typeName state exhausted).1 = .returned (some catalog) error) :
    catalog = stagedCatalog typeName state.registrations ∨ state.catalog = some catalog := by
  rcases freezeTypeCatalog_cases
    (Prod.mk.eta (p := freezeTypeCatalog typeName state exhausted)).symm with
    ⟨-, -, hreply⟩ | ⟨-, -, -, -, ⟨hreply, -⟩ | ⟨hreply, -⟩ | ⟨hreply, -⟩⟩
  · rw [hreply] at h
    exact .inr (FreezeReply.returned.inj h).1
  all_goals
    rw [hreply] at h
    cases h
  exact .inl rfl

/-- In every history the catalog that is kept was validated. -/
theorem validCatalog_of_run {slots : TypeId → Option (Occupant formatter Codec)}
    {calls : List (Call formatter Codec)} {state : State formatter Codec}
    (hrun : Machine.run (step typeName) { slots := slots } calls = some state) :
    Consistent typeName state ∧ ∀ catalog, state.catalog = some catalog → ValidCatalog catalog := by
  have hstep : ∀ (before : State formatter Codec) (action : Call formatter Codec) next,
      (Consistent typeName before ∧
        ∀ catalog, before.catalog = some catalog → ValidCatalog catalog) →
      step typeName before action = some next → Consistent typeName next ∧
        ∀ catalog, next.catalog = some catalog → ValidCatalog catalog := by
    rintro before action next ⟨hstate, hcatalog⟩ hnext
    cases hnext
    refine ⟨hstate.call action, ?_⟩
    cases action with
    | codec type => exact hcatalog
    | register type protocol outcome =>
        rcases registerTypeProtocol_cases
          (Prod.mk.eta (p := registerTypeProtocol typeName before type protocol outcome)).symm with
          hsame | ⟨-, added, stored, hadds⟩
        · exact fun catalog hfound => hcatalog catalog (hsame ▸ hfound)
        · intro catalog hfound
          refine hcatalog catalog ?_
          rw [show (call typeName before (.register type protocol outcome)).2 =
            before.added added stored from hadds.after_eq] at hfound
          exact hfound
    | freeze exhausted =>
        rcases freezeTypeCatalog_cases
          (Prod.mk.eta (p := freezeTypeCatalog typeName before exhausted)).symm with
          ⟨-, hsame, -⟩ | ⟨-, -, -, -, ⟨-, hkept, -⟩ | ⟨-, hkept⟩ | ⟨-, hstaged⟩⟩
        · exact fun catalog hfound => hcatalog catalog (hsame ▸ hfound)
        · exact fun catalog hfound => hcatalog catalog (hkept.symm.trans hfound)
        · exact fun catalog hfound => hcatalog catalog (hkept.symm.trans hfound)
        · intro catalog hfound
          cases hstaged.symm.trans hfound
          exact hstate.validCatalog
  exact Machine.run_invariant hstep ⟨Consistent.initial typeName slots, by simp⟩ hrun

theorem validCatalog_of_freeze {slots : TypeId → Option (Occupant formatter Codec)}
    {calls : List (Call formatter Codec)} {state : State formatter Codec}
    (hrun : Machine.run (step typeName) { slots := slots } calls = some state) {exhausted : Bool}
    {catalog : TypeCatalog Codec} {error : Bytes}
    (h : (freezeTypeCatalog typeName state exhausted).1 = .returned (some catalog) error) :
    ValidCatalog catalog := by
  obtain ⟨hstate, hcatalog⟩ := validCatalog_of_run hrun
  rcases freeze_returned h with rfl | hkept
  · exact hstate.validCatalog
  · exact hcatalog catalog hkept

/-! ## Self-contained documents -/

/-- The types of a document have an entry for every type that its other members mention,
and for every type that one of their descriptors refers to. -/
def SelfContained (members : JsonObject) : Prop :=
  ∃ types, JsonObject.find? members (bytes "types") = some (.object types) ∧
    (∀ name, Mentions (.object (JsonObject.erase members (bytes "types"))) name →
      JsonObject.contains types name = true) ∧
    ∀ name descriptor reference, JsonObject.find? types name = some (.object descriptor) →
      Refers descriptor reference → JsonObject.contains types reference = true

variable {model : ObjectModel Codec}

/-- What an entry refers to is a registered dependency of its name. -/
theorem depends_of_refers (hvalid : ValidCatalog model.catalog) {references : List Bytes}
    {name reference : Bytes} {descriptor : JsonObject}
    (hfind : JsonObject.find? (model.types references) name = some (.object descriptor))
    (hrefers : Refers descriptor reference) : model.catalog.Depends name reference := by
  have hentry := (model.closes_types references).entries _ (Model.mem_of_lookup hfind)
  unfold ObjectModel.typeEntry at hentry
  simp only at hentry
  split at hentry
  next binding hbinding =>
    cases hentry
    exact ⟨binding, hbinding,
      (referencesMatch_of_valid (hvalid name binding hbinding)).mem_dependencies hrefers⟩
  next =>
    -- The entry of an unknown name has no kind.
    cases hentry
    have hkind : ∀ (reason : Bytes) (kind : String), JsonObject.find?
        [(bytes "kind", .null), (bytes "jsonSupported", .bool false), (bytes "reason", .string reason)]
        (bytes "kind") ≠ some (.string (bytes kind)) := fun _ _ hkind => nomatch hkind
    cases hrefers with
    | element hother _ => exact absurd hother (hkind _ _)
    | underlying hother _ => exact absurd hother (hkind _ _)
    | field hother _ _ _ => exact absurd hother (hkind _ _)

theorem selfContained_of_documents (hvalid : ValidCatalog model.catalog) {members : JsonObject}
    (h : model.Documents members) : SelfContained members := by
  obtain ⟨references, htypes, hnoted⟩ := h
  refine ⟨model.types references, htypes, fun name hname => ?_, ?_⟩
  · exact model.contains_types (hnoted name hname)
  · intro name descriptor reference hfind hrefers
    refine model.contains_types_of_depends ?_ (depends_of_refers hvalid hfind hrefers)
    rw [JsonObject.contains, hfind]
    rfl

/-- With the catalog of a successful freeze, `types` ends with the closure of the given
names under registered dependencies, in whatever order the names are taken, and every
description of a service or a collection is self-contained. -/
theorem descriptions_self_contained [PortReader Codec]
    {slots : TypeId → Option (Occupant formatter Codec)} {calls : List (Call formatter Codec)}
    {state : State formatter Codec}
    (hrun : Machine.run (step typeName) { slots := slots } calls = some state) {exhausted : Bool}
    {catalog : TypeCatalog Codec} {error : Bytes}
    (hfreeze : (freezeTypeCatalog typeName state exhausted).1 = .returned (some catalog) error)
    (model : ObjectModel Codec) (hcatalog : model.catalog = catalog) :
    -- taking names comes to an end
    (WellFounded fun next gathering => Gathering.Takes model gathering next) ∧
    (∀ references,
      ReflTransGen (Gathering.Takes model) ⟨references.reverse, []⟩
        ⟨[], model.types references⟩ ∧
      Closes model references (model.types references) ∧
      ∀ pending result, (∀ name, name ∈ pending ↔ name ∈ references) →
        ReflTransGen (Gathering.Takes model) ⟨pending, []⟩ ⟨[], result⟩ →
        Closes model references result ∧
        ∀ name, JsonObject.find? result name = JsonObject.find? (model.types references) name) ∧
    ∀ services fuel staging service name path result,
      model.describeService services fuel staging service name path = .ok result →
      SelfContained result.2 ∧
      ∀ route ∈ result.1.publication.routes, route ∈ staging.publication.routes ∨
        (route.2.kind = .description →
          ∃ members, route.2.description = .object members ∧ SelfContained members) := by
  have hvalid : ValidCatalog model.catalog := hcatalog ▸ validCatalog_of_freeze hrun hfreeze
  refine ⟨?_, ?_, ?_⟩
  · exact Subrelation.wf Gathering.left_lt (measure (Gathering.left model)).wf
  · intro references
    refine ⟨model.takes_types references, model.closes_types references, ?_⟩
    intro pending result hpending hruns
    have hcloses := Model.closes_of_takes hpending hruns
    exact ⟨hcloses, hcloses.find?_eq (model.closes_types references) fun _ => Iff.rfl⟩
  · intro services fuel staging service name path result hdescribe
    obtain ⟨henters, hdocument⟩ :=
      ObjectModel.describeService_documents fuel staging service name path result hdescribe
    refine ⟨selfContained_of_documents hvalid hdocument, fun route hroute => ?_⟩
    rcases henters route hroute with hold | hdocumented
    · exact .inl hold
    · refine .inr fun hkind => ?_
      obtain ⟨members, hdescription, hmembers⟩ := hdocumented hkind
      exact ⟨members, hdescription, selfContained_of_documents hvalid hmembers⟩

/-- A boolean descriptor with a member that only arrays need. -/
def strayRegistration : TypeRegistration :=
  { boolRegistration with
    descriptor := [(bytes "kind", .string (bytes "boolean")),
      (bytes "elementType", .string (bytes "Missing"))] }

def strayProtocol : TypeProtocol plainFormatter (Option AnyCodec) where
  address := 7
  registration := normalize strayRegistration
  codec := some .typed
  fingerprint := serialize plainFormatter.double (identity (normalize strayRegistration))
  fingerprint_eq := by decide +kernel

def strayHistory : List (Call plainFormatter AnyCodec) := [.register (some 1) (some strayProtocol) .stored]

def strayState : State plainFormatter AnyCodec :=
  State.added { slots := fun _ => none } 1 (strayProtocol.withCodec .typed)

theorem run_strayHistory :
    Machine.run (step fun _ => bytes "Bool") { slots := fun _ => none } strayHistory =
      some strayState :=
  run_stored rfl rfl (by decide +kernel) rfl rfl rfl _

theorem freeze_strayState :
    (freezeTypeCatalog (fun _ => bytes "Bool") strayState false).1 =
      .returned (some (stagedCatalog (fun _ => bytes "Bool") strayState.registrations)) [] := by
  have hkept : ∀ entry ∈ strayState.registrations, slotKept strayState entry = true :=
    List.all_eq_true.mp (by decide +kernel)
  have hsearch : (searchCatalog (stagedCatalog (fun _ => bytes "Bool")
      strayState.registrations)).isOk = true := by
    decide +kernel
  exact freeze_searched rfl hkept hsearch

/-- A service with one property of the registered type. -/
def strayServices : Nat → Service := fun _ =>
  { Model.emptyService with
    propertyNames := [bytes "flag"]
    getProperty := fun _ => some ⟨some ⟨9, some ⟨1, bytes "Bool"⟩, true⟩, []⟩ }

def strayModel : ObjectModel AnyCodec where
  catalog := stagedCatalog (fun _ => bytes "Bool") strayState.registrations
  diagnostics := []

def strayDescription : Except String (ObjectModel.Staging AnyCodec × JsonObject) :=
  strayModel.describeService strayServices 65 ⟨{ component := 0, service := some 1 }, []⟩ (some 1)
    (bytes "robot") (bytes "/api/v1/components/robot")

/-- The type that a stray member names has no entry. -/
theorem stray_reference_missing :
    ∃ result types descriptor,
      Machine.run (step fun _ => bytes "Bool") { slots := fun _ => none } strayHistory =
        some strayState ∧
      (freezeTypeCatalog (fun _ => bytes "Bool") strayState false).1 =
        .returned (some strayModel.catalog) [] ∧
      strayDescription = .ok result ∧
      JsonObject.find? result.2 (bytes "types") = some (.object types) ∧
      JsonObject.find? types (bytes "Bool") = some (.object descriptor) ∧
      JsonObject.find? descriptor (bytes "elementType") = some (.string (bytes "Missing")) ∧
      JsonObject.contains types (bytes "Missing") = false := by
  have hok : strayDescription.toOption.isSome = true := by decide +kernel
  cases hdescription : strayDescription with
  | error message =>
      rw [hdescription] at hok
      cases hok
  | ok result =>
      have hfind : strayDescription.toOption.bind (fun result =>
          JsonObject.find? result.2 (bytes "types")) =
            some (.object (strayModel.types [bytes "Bool"])) := by rfl
      rw [hdescription] at hfind
      exact ⟨result, _, _, run_strayHistory, freeze_strayState, rfl, hfind, rfl, rfl,
        by decide +kernel⟩

def boardRegistration : TypeRegistration :=
  { boolRegistration with
    codecId := bytes "Board"
    rttType := bytes "Board"
    descriptor := recordDescriptor [(bytes "flags", bytes "Flags")]
    dependencies := [bytes "Flags"] }

def boardProtocol : TypeProtocol plainFormatter (Option Unit) where
  address := 9
  registration := normalize boardRegistration
  codec := some ()
  fingerprint := serialize plainFormatter.double (identity (normalize boardRegistration))
  fingerprint_eq := by decide +kernel

def boardName (type : TypeId) : Bytes :=
  if type = 1 then bytes "Bool" else if type = 2 then bytes "Flags" else bytes "Board"

/-- A structure of a sequence of a canonical type. -/
def boardHistory : List (Call plainFormatter AnyCodec) :=
  [.register (some 1) (some (boolProtocol.withCodec (some .typed))) .stored,
    .register (some 2) (some (flagsProtocol.withCodec (some .typed))) .stored,
    .register (some 3) (some (boardProtocol.withCodec (some .typed))) .stored]

def boardState : State plainFormatter AnyCodec :=
  ((State.added { slots := fun _ => none } 1 (boolProtocol.withCodec .typed)).added 2
    (flagsProtocol.withCodec .typed)).added 3 (boardProtocol.withCodec .typed)

theorem run_boardHistory :
    Machine.run (step boardName) { slots := fun _ => none } boardHistory = some boardState := by
  have hflags : validateRegistration flagsProtocol.registration = .ok () := by decide +kernel
  have hboard : validateRegistration boardProtocol.registration = .ok () := by decide +kernel
  apply Eq.trans (run_stored rfl rfl (by exact boolProtocol_valid) rfl rfl rfl _)
  apply Eq.trans (run_stored rfl rfl (by exact hflags) rfl rfl rfl _)
  exact run_stored rfl rfl (by exact hboard) rfl rfl rfl _

theorem freeze_boardState :
    (freezeTypeCatalog boardName boardState false).1 =
      .returned (some (stagedCatalog boardName boardState.registrations)) [] := by
  have hkept : ∀ entry ∈ boardState.registrations, slotKept boardState entry = true :=
    List.all_eq_true.mp (by decide +kernel)
  have hsearch : (searchCatalog (stagedCatalog boardName boardState.registrations)).isOk = true := by
    decide +kernel
  exact freeze_searched rfl hkept hsearch

/-- A service with one property, of the structure. -/
def boardServices : Nat → Service := fun _ =>
  { Model.emptyService with
    propertyNames := [bytes "board"]
    getProperty := fun _ => some ⟨some ⟨9, some ⟨3, bytes "Board"⟩, true⟩, []⟩ }

def boardModel : ObjectModel AnyCodec where
  catalog := stagedCatalog boardName boardState.registrations
  diagnostics := []

def boardDescription : Except String (ObjectModel.Staging AnyCodec × JsonObject) :=
  boardModel.describeService boardServices 65 ⟨{ component := 0, service := some 1 }, []⟩ (some 1)
    (bytes "robot") (bytes "/api/v1/components/robot")

theorem descriptions_self_contained_board :
    ∃ result, boardDescription = .ok result ∧ SelfContained result.2 ∧
      Closes boardModel [bytes "Board"] (boardModel.types [bytes "Board"]) ∧
      JsonObject.contains (boardModel.types [bytes "Board"]) (bytes "Bool") = true := by
  obtain ⟨-, htypes, hdocuments⟩ :=
    descriptions_self_contained run_boardHistory freeze_boardState boardModel rfl
  have hok : boardDescription.toOption.isSome = true := by decide +kernel
  have hchain : JsonObject.contains (boardModel.types [bytes "Board"]) (bytes "Bool") = true := by
    decide +kernel
  cases hdescription : boardDescription with
  | error message =>
      rw [hdescription] at hok
      cases hok
  | ok result =>
      exact ⟨result, rfl, (hdocuments _ _ _ _ _ _ _ hdescription).1, (htypes _).2.1, hchain⟩

end RttHttp.Registry
