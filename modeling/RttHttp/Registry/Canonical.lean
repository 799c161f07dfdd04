import RttHttp.Registry.Fixpoint
import RttHttp.Registry.Freeze
import Mathlib.Data.List.ReduceOption

/-! # Registries that can be frozen

`registerCanonicalTypeProtocols` registers the built-in types, each one after the
types that it depends on. Reflection then adds types whose members are registered
already. Either way a new type never closes a cycle, and the catalog can be frozen.
-/

namespace RttHttp.Registry

open Model (TypeRegistration)
open Relation (TransGen)

variable {formatter : Formatter} {Codec : Type}

/-! ## The canonical types -/

/-- What the build decides: whether there is an `rt_string`, and the sign of `char`. -/
structure Platform where
  rtMalloc : Bool
  charSigned : Bool
  deriving DecidableEq, Repr

def integerDescriptor (size : Int64) (signed : Bool) : JsonObject :=
  [(bytes "kind", .string (bytes "integer")), (bytes "bits", .int64 (size * 8)),
    (bytes "signed", .bool signed),
    (bytes "encoding", .string (if size = 8 then bytes "decimalString" else bytes "number"))]

def floatDescriptor (size : Int64) : JsonObject :=
  [(bytes "kind", .string (bytes "float")), (bytes "bits", .int64 (size * 8)),
    (bytes "nonFinite", .array [.string (bytes "NaN"), .string (bytes "Infinity"),
      .string (bytes "-Infinity")])]

def stringDescriptor : JsonObject :=
  [(bytes "kind", .string (bytes "string")), (bytes "encoding", .string (bytes "utf8"))]

def arrayDescriptor (elementType : String) : JsonObject :=
  [(bytes "kind", .string (bytes "array")), (bytes "elementType", .string (bytes elementType)),
    (bytes "length", .null)]

def enumDescriptor : JsonObject :=
  [(bytes "kind", .string (bytes "enum")), (bytes "underlyingType", .string (bytes "Int32"))]

/-- A row of the table: the name, the descriptor and the dependencies. -/
abbrev CanonicalType := String × JsonObject × List String

/-- The table of `canonicalProtocol`. -/
def canonicalTypes (platform : Platform) : List CanonicalType :=
  [("Bool", [(bytes "kind", .string (bytes "boolean"))], []),
    ("Int8", integerDescriptor 1 true, []),
    ("UInt8", integerDescriptor 1 false, []),
    ("Int16", integerDescriptor 2 true, []),
    ("UInt16", integerDescriptor 2 false, []),
    ("Int32", integerDescriptor 4 true, []),
    ("UInt32", integerDescriptor 4 false, []),
    ("Int64", integerDescriptor 8 true, []),
    ("UInt64", integerDescriptor 8 false, []),
    ("Char", integerDescriptor 1 platform.charSigned, []),
    ("Float32", floatDescriptor 4, []),
    ("Float64", floatDescriptor 8, []),
    ("String", stringDescriptor, []),
    ("Float64Array", arrayDescriptor "Float64", ["Float64"]),
    ("Int32Array", arrayDescriptor "Int32", ["Int32"]),
    ("StringArray", arrayDescriptor "String", ["String"]),
    ("FlowStatus", enumDescriptor, ["Int32"]),
    ("WriteStatus", enumDescriptor, ["Int32"]),
    ("TaskState", enumDescriptor, ["Int32"]),
    ("Void", [(bytes "kind", .string (bytes "void"))], [])] ++
  if platform.rtMalloc then [("RtString", stringDescriptor, [])] else []

/-- The registration that `makeProtocol` fills in. -/
def canonicalRegistration (name : String) (descriptor : JsonObject) (dependencies : List String) :
    TypeRegistration where
  providerId := bytes "orocos.rtt.http"
  providerVersion := bytes "1"
  codecId := bytes name
  codecVersion := bytes "1"
  rttType := bytes name
  descriptor := descriptor
  dependencies := dependencies.map bytes

/-- What the canonical types need from outside: the build, the codecs, the allocator,
the type that RTT finds under a name, and the outcome of `addProtocol`. -/
structure Canon (Codec : Type) where
  platform : Platform
  codec : String → Codec
  allocate : String → Nat
  type : String → Option TypeId
  addProtocol : String → AddOutcome

section Register

variable (typeName : TypeId → Bytes) (canon : Canon Codec)

def registerCanonicalTypeProtocol (state : State formatter Codec) (name : String)
    (type : Option TypeId) : Reply × State formatter Codec :=
  match (canonicalTypes canon.platform).lookup name with
  | none => (.refused (bytes "no canonical HTTP protocol for RTT type: " ++ bytes name), state)
  | some (descriptor, dependencies) =>
      match TypeProtocol.make formatter (canon.allocate name)
          (canonicalRegistration name descriptor dependencies) (some (canon.codec name)) with
      | .error _ => (.threw, state)
      | .ok protocol =>
          registerTypeProtocol typeName state type (some protocol) (canon.addProtocol name)

/-- The loop over the names, up to the first failure. -/
def registerCanonicalNames (state : State formatter Codec) :
    List String → Reply × State formatter Codec
  | [] => (.accepted, state)
  | name :: rest =>
      match registerCanonicalTypeProtocol typeName canon state name (canon.type name) with
      | (.accepted, after) => registerCanonicalNames after rest
      | failed => failed

/-- The names that are registered, in order. -/
def canonicalNames (platform : Platform) : List String :=
  ["Bool", "Int8", "UInt8", "Int16", "UInt16", "Int32", "UInt32", "Int64", "UInt64", "Char",
    "Float32", "Float64", "String", "Float64Array", "Int32Array", "StringArray", "FlowStatus",
    "WriteStatus", "TaskState", "Void"] ++ if platform.rtMalloc then ["RtString"] else []

def registerCanonicalTypeProtocols (state : State formatter Codec) :
    Reply × State formatter Codec :=
  registerCanonicalNames typeName canon state (canonicalNames canon.platform)

end Register

/-! ## One more type -/

section Founding

variable {typeName : TypeId → Bytes} {entries : Entries formatter Codec}
  {entry : TypeId × TypeProtocol formatter Codec}

/-- A type that may come next: it has a new name, it depends on registered types
only, and if it is an enum, on integers. -/
structure Extends (typeName : TypeId → Bytes) (entries : Entries formatter Codec)
    (entry : TypeId × TypeProtocol formatter Codec) : Prop where
  fresh : ∀ other ∈ entries, typeName other.1 ≠ typeName entry.1
  known : ∀ dependency ∈ entry.2.registration.dependencies,
    ∃ other ∈ entries, typeName other.1 = dependency
  integral : HasKind entry.2.registration "enum" →
    ∀ other ∈ entries, typeName other.1 ∈ entry.2.registration.dependencies →
      HasKind other.2.registration "integer"

/-- Nothing depends on the new type. -/
theorem Extends.not_dependency (h : Extends typeName entries entry)
    (hentries : Founded typeName entries) {source : TypeId × TypeProtocol formatter Codec}
    (hsource : source ∈ entry :: entries) :
    typeName entry.1 ∉ source.2.registration.dependencies := by
  intro hdependency
  obtain ⟨other, hother, hequal⟩ : ∃ other ∈ entries, typeName other.1 = typeName entry.1 := by
    rcases List.mem_cons.mp hsource with rfl | hold
    · exact h.known _ hdependency
    · exact hentries.closed source hold _ hdependency
  exact h.fresh other hother hequal

/-- A path that does not start at the new type has been there before. -/
theorem Extends.path (h : Extends typeName entries entry) (hentries : Founded typeName entries)
    {first last : Bytes} (hfirst : first ≠ typeName entry.1)
    (hpath : TransGen (DependsOn typeName (entry :: entries)) first last) :
    last ≠ typeName entry.1 ∧ TransGen (DependsOn typeName entries) first last := by
  have hedge : ∀ {source target}, source ≠ typeName entry.1 →
      DependsOn typeName (entry :: entries) source target →
      target ≠ typeName entry.1 ∧ DependsOn typeName entries source target := by
    rintro source target hsource ⟨found, hfound, hname, hdependency⟩
    refine ⟨?_, ?_⟩
    · rintro rfl
      exact h.not_dependency hentries hfound hdependency
    · rcases List.mem_cons.mp hfound with rfl | hold
      · exact absurd hname.symm hsource
      · exact ⟨found, hold, hname, hdependency⟩
  induction hpath with
  | single hdepends =>
      obtain ⟨htarget, hold⟩ := hedge hfirst hdepends
      exact ⟨htarget, .single hold⟩
  | tail _ hdepends ih =>
      obtain ⟨hmid, hbefore⟩ := ih
      obtain ⟨htarget, hold⟩ := hedge hmid hdepends
      exact ⟨htarget, hbefore.tail hold⟩

/-- The step lemma of every registry that can be frozen. -/
theorem Founded.extend (hentries : Founded typeName entries) (h : Extends typeName entries entry) :
    Founded typeName (entry :: entries) where
  closed := by
    intro source hsource dependency hdependency
    obtain ⟨other, hother, hequal⟩ : ∃ other ∈ entries, typeName other.1 = dependency := by
      rcases List.mem_cons.mp hsource with rfl | hold
      · exact h.known dependency hdependency
      · exact hentries.closed source hold dependency hdependency
    exact ⟨other, List.mem_cons_of_mem entry hother, hequal⟩
  acyclic := by
    intro name hcycle
    -- The last edge of a cycle ends where its first edge starts.
    have hname : name ≠ typeName entry.1 := by
      rintro rfl
      obtain ⟨source, -, found, hfound, -, hdependency⟩ := TransGen.tail'_iff.mp hcycle
      exact h.not_dependency hentries hfound hdependency
    exact hentries.acyclic name (h.path hentries hname hcycle).2
  integral := by
    intro source hsource henum other hother hdependency
    have hold : other ∈ entries := by
      rcases List.mem_cons.mp hother with rfl | hold
      · exact absurd hdependency (h.not_dependency hentries hsource)
      · exact hold
    rcases List.mem_cons.mp hsource with rfl | hbefore
    · exact h.integral henum other hold hdependency
    · exact hentries.integral source hbefore henum other hold hdependency

theorem Adds.mem_iff {state after : State formatter Codec} {type : TypeId}
    {protocol : TypeProtocol formatter Codec} (h : Adds typeName state type protocol after) :
    entry ∈ after.registrations ↔ entry = (type, protocol) ∨ entry ∈ state.registrations := by
  rw [h.after_eq, ← List.mem_cons]
  exact (OrderedMap.emplace_perm h.fresh).mem_iff

theorem Adds.founded {state after : State formatter Codec} {type : TypeId}
    {protocol : TypeProtocol formatter Codec} (h : Adds typeName state type protocol after)
    (hextends : Extends typeName state.registrations (type, protocol))
    (hstate : Founded typeName state.registrations) : Founded typeName after.registrations := by
  rw [h.after_eq]
  exact Founded.perm (OrderedMap.emplace_perm h.fresh) (hstate.extend hextends)

end Founding

/-! ## Reflected types -/

section Reflected

variable {world : World Codec} {pending : List TypeId} {state after : State formatter Codec}

/-- The kind of a reflected type is not that of an enum. -/
theorem not_enum_of_layout (typeName : TypeId → Bytes) (layout : Layout) (type : TypeId) :
    ¬ HasKind (normalize (layout.registration typeName type)) "enum" := by
  have hkind : ∀ kind : String, JsonObject.find? (layout.descriptor typeName) (bytes "kind") =
      some (.string (bytes kind)) → bytes kind ≠ bytes "enum" →
      ¬ HasKind (normalize (layout.registration typeName type)) "enum" := by
    intro kind hfound hne henum
    have hsame : descriptorKind (normalize (layout.registration typeName type)) =
        JsonObject.find? (layout.descriptor typeName) (bytes "kind") := by
      simp only [descriptorKind, normalize]
      rw [JsonObject.find?_set_ne _ (by decide), JsonObject.find?_set_ne _ (by decide)]
      rfl
    rw [HasKind, hsame, hfound] at henum
    exact hne (Json.string.inj (Option.some.inj henum))
  cases layout with
  | sequence element length => exact hkind "array" rfl (by decide)
  | record fields => exact hkind "object" rfl (by decide)

theorem extends_of_reflectable (hstate : Consistent world.typeName state) {type : TypeId}
    {layout : Layout} {protocol : TypeProtocol formatter Codec}
    (hlayout : Reflectable formatter world (registered state) type layout)
    (hprotocol : protocol.registration = normalize (layout.registration world.typeName type))
    (hfresh : ∀ other ∈ registered state, world.typeName other ≠ world.typeName type) :
    Extends world.typeName state.registrations (type, protocol) where
  fresh := by
    intro other hother
    apply hfresh
    exact OrderedMap.isSome_lookup_iff.mpr (List.mem_map_of_mem hother)
  known := by
    intro dependency hdependency
    have hpart : dependency ∈ layout.parts.map fun part => part.named world.typeName := by
      rw [hprotocol, mem_normalize_dependencies] at hdependency
      simpa [Layout.registration, reflectedRegistration, Model.mem_foldl_setInsert] using hdependency
    obtain ⟨part, hmem, rfl⟩ := List.mem_map.mp hpart
    obtain ⟨-, found, hfound, htype, -⟩ := hlayout.usable part hmem
    obtain ⟨known, hknown⟩ := Option.isSome_iff_exists.mp hfound
    refine ⟨(found, known), (OrderedMap.lookup_eq_some_iff hstate.distinct).mp hknown, ?_⟩
    simp [Part.named, htype]
  integral := by
    intro henum
    rw [hprotocol] at henum
    exact absurd henum (not_enum_of_layout _ layout type)

theorem mem_of_mem_pendingTypes {types : List (Option TypeId)} {type : TypeId}
    (htype : type ∈ pendingTypes world state types) : some type ∈ types := by
  have hmem := (List.perm_insertionSort ..).mem_iff.mp htype
  exact List.reduceOption_mem_iff.mp (List.mem_filter.mp (List.mem_dedup.mp hmem)).1

/-- A frozen registry takes no type. -/
theorem Registers.frozen (hfrozen : state.frozen = true) (h : Registers world pending state after) :
    after = state := by
  induction h with
  | refl => rfl
  | step _ _ hfresh hattempt ih =>
      obtain ⟨layout, protocol, -, -, hadds⟩ := adds_of_attempt hfresh hattempt
      rw [ih] at hadds
      exact absurd (hadds.unfrozen.symm.trans hfrozen) (by decide)

/-- Reflection keeps the registry well founded, however it ends. -/
theorem Registers.founded (hstate : Consistent world.typeName state)
    (hnames : Set.InjOn world.typeName (registered state ∪ {type | type ∈ pending}))
    (hfounded : Founded world.typeName state.registrations)
    (h : Registers world pending state after) :
    registered after ⊆ registered state ∪ {type | type ∈ pending} ∧
      Founded world.typeName after.registrations := by
  induction h with
  | refl => exact ⟨Set.subset_union_left, hfounded⟩
  | @step mid after type hmid htype hfresh hattempt ih =>
      obtain ⟨hknown, hbefore⟩ := ih
      obtain ⟨layout, protocol, hreflectable, hprotocol, hadds⟩ := adds_of_attempt hfresh hattempt
      have hconsistent := (hmid.reached hstate).consistent
      rw [hconsistent.coded_eq] at hreflectable
      have hpending : type ∈ registered state ∪ {type | type ∈ pending} := .inr htype
      refine ⟨?_, hadds.founded (extends_of_reflectable hconsistent hreflectable hprotocol ?_) hbefore⟩
      · rw [registered_of_adds hadds]
        exact Set.insert_subset hpending hknown
      · intro other hother hequal
        have hsame := hnames (hknown hother) hpending hequal
        exact not_mem_registered.mpr hfresh (hsame ▸ hother)

end Reflected

/-! ## Freezing a well-founded registry -/

section Freezing

variable {typeName : TypeId → Bytes} {state : State formatter Codec}

/-- The names of the registered types are distinct. -/
def DistinctNames (typeName : TypeId → Bytes) (state : State formatter Codec) : Prop :=
  Set.InjOn typeName (registered state)

theorem DistinctNames.nodup (h : DistinctNames typeName state)
    (hstate : Consistent typeName state) :
    (state.registrations.map fun entry => typeName entry.1).Nodup := by
  have hkeys : (state.registrations.map Prod.fst).Nodup := hstate.distinct
  have hmap : (state.registrations.map fun entry => typeName entry.1) =
      (state.registrations.map Prod.fst).map typeName := by
    rw [List.map_map]
    rfl
  rw [hmap]
  apply hkeys.map_on
  intro first hfirst second hsecond
  exact h (OrderedMap.isSome_lookup_iff.mpr hfirst) (OrderedMap.isSome_lookup_iff.mpr hsecond)

/-- A first freeze, when memory suffices. -/
theorem Consistent.freeze_founded (h : Consistent typeName state) (hopen : state.frozen = false)
    (hnames : DistinctNames typeName state) (hfounded : Founded typeName state.registrations) :
    ∃ catalog, (freezeTypeCatalog typeName state false).1 = .returned (some catalog) [] := by
  have hlookup : ∀ entry ∈ state.registrations,
      state.registrations.lookup entry.1 = some entry.2 :=
    fun entry hentry => (OrderedMap.lookup_eq_some_iff h.distinct).mpr hentry
  refine (freeze_returns_iff hopen ?_ ?_ (hnames.nodup h)).mpr hfounded
  · intro entry hentry
    simp [slotKept, h.kept _ _ (hlookup entry hentry)]
  · intro entry hentry
    exact h.valid _ _ (hlookup entry hentry)

/-- A frozen registry that is well founded has its catalog. -/
def Kept (typeName : TypeId → Bytes) (state : State formatter Codec) : Prop :=
  state.frozen = true → DistinctNames typeName state → Founded typeName state.registrations →
    state.catalog.isSome

theorem Kept.call (h : Kept typeName state) (hstate : Consistent typeName state)
    {action : Call formatter Codec} (hmemory : action ≠ .freeze true) :
    Kept typeName (call typeName state action).2 := by
  cases action with
  | register type protocol outcome =>
      rcases registerTypeProtocol_cases
        (Prod.mk.eta (p := registerTypeProtocol typeName state type protocol outcome)).symm with
        hsame | ⟨-, added, stored, hadds⟩
      · change Kept typeName (registerTypeProtocol typeName state type protocol outcome).2
        rwa [hsame]
      · intro hfrozen
        change (registerTypeProtocol typeName state type protocol outcome).2.frozen = true at hfrozen
        rw [hadds.after_eq] at hfrozen
        exact absurd (hadds.unfrozen.symm.trans hfrozen) (by decide)
  | codec type => exact h
  | freeze exhausted =>
      obtain rfl : exhausted = false := by
        cases exhausted with
        | true => exact absurd rfl hmemory
        | false => rfl
      have hfreeze := (Prod.mk.eta (p := freezeTypeCatalog typeName state false)).symm
      change Kept typeName (freezeTypeCatalog typeName state false).2
      rcases freezeTypeCatalog_cases hfreeze with ⟨-, hsame, -⟩ | ⟨hopen, -, hentries, -, hreply⟩
      · rwa [hsame]
      · intro _ hnames hfounded
        rw [DistinctNames, registered, hentries] at hnames
        rw [hentries] at hfounded
        obtain ⟨catalog, hcatalog⟩ := hstate.freeze_founded hopen hnames hfounded
        rcases hreply with ⟨hthrew, -⟩ | ⟨hnone, -⟩ | ⟨-, hsome⟩
        · rw [hthrew] at hcatalog
          cases hcatalog
        · rw [hnone] at hcatalog
          cases hcatalog
        · rw [hsome]
          rfl

/-- Histories in which no freeze ran out of memory. -/
theorem kept_of_run {slots : TypeId → Option (Occupant formatter Codec)}
    {calls : List (Call formatter Codec)} (hmemory : .freeze true ∉ calls)
    (hrun : Machine.run (step typeName) { slots := slots } calls = some state) :
    Consistent typeName state ∧ Kept typeName state := by
  have hstep : ∀ (mid : State formatter Codec) action next,
      Consistent typeName mid ∧ Kept typeName mid → action ≠ .freeze true →
      step typeName mid action = some next → Consistent typeName next ∧ Kept typeName next := by
    intro mid action next hmid haction hnext
    cases hnext
    exact ⟨hmid.1.call action, hmid.2.call hmid.1 haction⟩
  have hallowed : Machine.Along (step typeName) (fun _ action => action ≠ .freeze true)
      { slots := slots } calls := by
    apply Machine.Along.of_forall
    intro action haction _ hfreeze
    exact hmemory (hfreeze ▸ haction)
  exact Machine.run_invariant_of hstep ⟨.initial typeName slots, nofun⟩ hallowed hrun

end Freezing

/-! ## The canonical types are well founded -/

section Canonical

variable {typeName : TypeId → Bytes} {canon : Canon Codec} {state after : State formatter Codec}

/-- The registration of a row, as a protocol stores it. -/
def CanonicalType.registration (row : CanonicalType) : TypeRegistration :=
  normalize (canonicalRegistration row.1 row.2.1 row.2.2)

instance decidableHasKind (registration : TypeRegistration) (kind : String) :
    Decidable (HasKind registration kind) :=
  match h : descriptorKind registration with
  | some (.string text) => decidable_of_iff (text = bytes kind) (by simp [HasKind, h])
  | some .null | some (.bool _) | some (.int64 _) | some (.uint64 _) | some (.double _)
  | some (.array _) | some (.object _) | none => isFalse (by simp [HasKind, h])

/-- Every name is new, and its dependencies come before it. -/
def ordered (platform : Platform) : (done : List Bytes) → List String → Bool
  | _, [] => true
  | done, name :: rest =>
      !done.contains (bytes name) &&
      ((canonicalTypes platform).lookup name).all
        (fun row => row.2.all fun dependency => done.contains (bytes dependency)) &&
      ordered platform (bytes name :: done) rest

theorem ordered_canonicalNames (platform : Platform) :
    ordered platform [] (canonicalNames platform) = true := by
  obtain ⟨rtMalloc, charSigned⟩ := platform
  cases rtMalloc
  all_goals
    cases charSigned
    all_goals decide +kernel

/-- Enums of the table rest on integers. -/
theorem integer_of_enum {platform : Platform} {row other : CanonicalType}
    (hrow : row ∈ canonicalTypes platform) (hother : other ∈ canonicalTypes platform)
    (henum : HasKind row.registration "enum")
    (hdependency : bytes other.1 ∈ row.2.2.map bytes) : HasKind other.registration "integer" := by
  have hall : ((canonicalTypes platform).all fun row => (canonicalTypes platform).all fun other =>
      decide (HasKind row.registration "enum" → bytes other.1 ∈ row.2.2.map bytes →
        HasKind other.registration "integer")) = true := by
    obtain ⟨rtMalloc, charSigned⟩ := platform
    cases rtMalloc
    all_goals
      cases charSigned
      all_goals decide +kernel
  have hpair := List.all_eq_true.mp (List.all_eq_true.mp hall row hrow) other hother
  exact of_decide_eq_true hpair henum hdependency

/-- The registry after the names of `done` have been registered. -/
structure Canonized (typeName : TypeId → Bytes) (platform : Platform)
    (slots : TypeId → Option (Occupant formatter Codec)) (done : List Bytes)
    (state : State formatter Codec) : Prop where
  history : ∃ calls, Call.freeze true ∉ calls ∧
    Machine.run (step typeName) { slots := slots } calls = some state
  founded : Founded typeName state.registrations
  there : ∀ name ∈ done, ∃ entry ∈ state.registrations, typeName entry.1 = name
  rows : ∀ entry ∈ state.registrations, ∃ row ∈ canonicalTypes platform,
    entry.2.registration = row.registration ∧ typeName entry.1 = bytes row.1 ∧ bytes row.1 ∈ done

/-- A registration is a call of a history. -/
theorem history_register {slots : TypeId → Option (Occupant formatter Codec)}
    (h : ∃ calls, Call.freeze true ∉ calls ∧
      Machine.run (step typeName) { slots := slots } calls = some state)
    (type : Option TypeId) (protocol : Option (TypeProtocol formatter (Option Codec)))
    (outcome : AddOutcome) :
    ∃ calls, Call.freeze true ∉ calls ∧ Machine.run (step typeName) { slots := slots } calls =
      some (registerTypeProtocol typeName state type protocol outcome).2 := by
  obtain ⟨calls, hmemory, hrun⟩ := h
  refine ⟨calls ++ [.register type protocol outcome], ?_, ?_⟩
  · intro hmem
    rcases List.mem_append.mp hmem with hbefore | hlast
    · exact hmemory hbefore
    · cases List.mem_singleton.mp hlast
  · rw [Machine.run_append, hrun]
    rfl

/-- The next name of the table may come next. -/
theorem Canonized.extends {slots : TypeId → Option (Occupant formatter Codec)} {done : List Bytes}
    {row : CanonicalType} {type : TypeId} {protocol : TypeProtocol formatter Codec}
    (h : Canonized typeName canon.platform slots done state)
    (hrow : row ∈ canonicalTypes canon.platform)
    (hnew : ∀ entry ∈ state.registrations, typeName entry.1 ≠ bytes row.1)
    (hdependencies : ∀ dependency ∈ row.2.2, bytes dependency ∈ done)
    (hprotocol : protocol.registration = row.registration) (htype : typeName type = bytes row.1) :
    Extends typeName state.registrations (type, protocol) := by
  have hmem : ∀ dependency, dependency ∈ protocol.registration.dependencies ↔
      dependency ∈ row.2.2.map bytes := by
    intro dependency
    rw [hprotocol, CanonicalType.registration, mem_normalize_dependencies]
    rfl
  refine ⟨?_, ?_, ?_⟩
  · intro other hother
    rw [htype]
    exact hnew other hother
  · intro dependency hdependency
    obtain ⟨name, hname, rfl⟩ := List.mem_map.mp ((hmem dependency).mp hdependency)
    exact h.there _ (hdependencies name hname)
  · intro henum other hother hdependency
    obtain ⟨found, hfound, hregistration, hequal, -⟩ := h.rows other hother
    rw [hregistration]
    refine integer_of_enum hrow hfound (hprotocol ▸ henum) ?_
    rw [← hequal]
    exact (hmem _).mp hdependency

theorem Canonized.register {slots : TypeId → Option (Occupant formatter Codec)} {done : List Bytes}
    {name : String} (h : Canonized typeName canon.platform slots done state)
    (hname : bytes name ∉ done)
    (hdependencies : ∀ row, (canonicalTypes canon.platform).lookup name = some row →
      ∀ dependency ∈ row.2, bytes dependency ∈ done)
    (haccepted : registerCanonicalTypeProtocol typeName canon state name (canon.type name) =
      (.accepted, after)) :
    Canonized typeName canon.platform slots (bytes name :: done) after := by
  unfold registerCanonicalTypeProtocol at haccepted
  split at haccepted
  next => cases haccepted
  next descriptor dependencies hfound =>
    split at haccepted
    next => cases haccepted
    next protocol hmake =>
      obtain ⟨hprotocol, -, -⟩ := make_eq_ok hmake
      have hrow : (name, descriptor, dependencies) ∈ canonicalTypes canon.platform := by
        obtain ⟨before, rest, hsplit, -⟩ := List.lookup_eq_some_iff.mp hfound
        rw [hsplit]
        simp
      obtain ⟨type, codec, -, -, htype, hafter⟩ := registerTypeProtocol_accepted haccepted
      rw [hprotocol] at htype
      have hhistory := history_register h.history (canon.type name) (some protocol)
        (canon.addProtocol name)
      rw [haccepted] at hhistory
      have hnew : ∀ entry ∈ state.registrations, typeName entry.1 ≠ bytes name := by
        intro entry hentry hequal
        obtain ⟨row, -, -, hsame, hdone⟩ := h.rows entry hentry
        exact hname (hequal ▸ hsame ▸ hdone)
      rcases hafter with ⟨-, hpresent⟩ | hadds
      · -- The type would have been registered under this name before.
        obtain ⟨found, hfound⟩ := Option.isSome_iff_exists.mp hpresent
        obtain ⟨before, rest, hsplit, -⟩ := List.lookup_eq_some_iff.mp hfound
        exact absurd htype (hnew (type, found) (by rw [hsplit]; simp))
      · have hextends : Extends typeName state.registrations (type, protocol.withCodec codec) :=
          h.extends hrow hnew (hdependencies _ hfound) hprotocol htype
        refine ⟨hhistory, hadds.founded hextends h.founded, ?_, ?_⟩
        · intro other hother
          rcases List.mem_cons.mp hother with rfl | hbefore
          · exact ⟨_, hadds.mem_iff.mpr (.inl rfl), htype⟩
          · obtain ⟨entry, hentry, hequal⟩ := h.there other hbefore
            exact ⟨entry, hadds.mem_iff.mpr (.inr hentry), hequal⟩
        · intro entry hentry
          rcases hadds.mem_iff.mp hentry with rfl | hbefore
          · exact ⟨_, hrow, hprotocol, htype, List.mem_cons_self⟩
          · obtain ⟨row, hmem, hregistration, hequal, hdone⟩ := h.rows entry hbefore
            exact ⟨row, hmem, hregistration, hequal, List.mem_cons_of_mem _ hdone⟩

/-- A registration that fails changes nothing. -/
theorem registerCanonicalTypeProtocol_failed {name : String} {type : Option TypeId} {reply : Reply}
    (h : registerCanonicalTypeProtocol typeName canon state name type = (reply, after))
    (hfailed : reply ≠ .accepted) : after = state := by
  unfold registerCanonicalTypeProtocol at h
  split at h
  next =>
    cases h
    rfl
  next =>
    split at h
    next =>
      cases h
      rfl
    next =>
      rcases registerTypeProtocol_cases h with hsame | ⟨haccepted, -⟩
      · exact hsame
      · exact absurd haccepted hfailed

/-- The run lemma of the loop over the names. -/
theorem Canonized.names {slots : TypeId → Option (Occupant formatter Codec)} {names : List String}
    {done : List Bytes} (h : Canonized typeName canon.platform slots done state)
    (hordered : ordered canon.platform done names = true) :
    ∃ more, Canonized typeName canon.platform slots more
      (registerCanonicalNames typeName canon state names).2 := by
  induction names generalizing state done with
  | nil => exact ⟨done, h⟩
  | cons name rest ih =>
      simp only [ordered, Bool.and_eq_true, Bool.not_eq_true', List.contains_eq_mem,
        decide_eq_false_iff_not, decide_eq_true_eq, Option.all_eq_true, List.all_eq_true] at hordered
      obtain ⟨⟨hname, hdependencies⟩, hrest⟩ := hordered
      rcases hresult : registerCanonicalTypeProtocol typeName canon state name (canon.type name) with
        ⟨reply, after⟩
      cases reply with
      | accepted =>
          simp only [registerCanonicalNames, hresult]
          exact ih (h.register hname hdependencies hresult) hrest
      | refused error =>
          simp only [registerCanonicalNames, hresult]
          rw [registerCanonicalTypeProtocol_failed hresult nofun]
          exact ⟨done, h⟩
      | threw =>
          simp only [registerCanonicalNames, hresult]
          rw [registerCanonicalTypeProtocol_failed hresult nofun]
          exact ⟨done, h⟩

theorem canonized_types (typeName : TypeId → Bytes) (canon : Canon Codec)
    (slots : TypeId → Option (Occupant formatter Codec)) :
    ∃ done, Canonized typeName canon.platform slots done
      (registerCanonicalTypeProtocols typeName canon { slots := slots }).2 := by
  have hfounded : Founded typeName ([] : Entries formatter Codec) := by
    refine ⟨by simp, ?_, by simp⟩
    intro name hcycle
    obtain ⟨source, -, found, hfound, -⟩ := TransGen.tail'_iff.mp hcycle
    cases hfound
  have hempty : Canonized typeName canon.platform slots [] { slots := slots } :=
    ⟨⟨[], by simp, rfl⟩, hfounded, by simp, by simp⟩
  exact hempty.names (ordered_canonicalNames canon.platform)

end Canonical

/-! ## Reflection cannot spoil the freeze -/

/-- The references of a descriptor are the dependencies of its registration. -/
def ReferencesMatch (registration : TypeRegistration) : Prop :=
  ∃ kind references, nameMember registration.descriptor (bytes "kind") = some kind ∧
    descriptorReferences registration.descriptor kind = .ok references ∧
    ∀ name, name ∈ references ↔ name ∈ registration.dependencies

theorem referencesMatch_of_valid {registration : TypeRegistration}
    (h : validateRegistration registration = .ok ()) : ReferencesMatch registration := by
  unfold validateRegistration at h
  split at h
  next =>
    split at h
    next => cases h
    next kind hkind =>
      split at h
      next => cases h
      next references hreferences =>
        split at h
        next hsame =>
          exact ⟨kind, references, hkind, hreferences, fun name => ⟨fun h => hsame.1 h, fun h => hsame.2 h⟩⟩
        next => cases h
  next => cases h

/-- After reflection, however it ended, the registry is well founded if it was so
before, and it can be frozen; the canonical types alone are well founded. -/
theorem reflection_freezes (world : World Codec)
    (slots : TypeId → Option (Occupant formatter Codec)) :
    (∀ calls state types, Machine.run (step world.typeName) { slots := slots } calls = some state →
      Call.freeze true ∉ calls →
      Set.InjOn world.typeName (registered state ∪ {type | some type ∈ types}) →
      Founded world.typeName state.registrations →
      ∃ after, (registerReflectedTypeProtocols world state types).state? = some after ∧
        Founded world.typeName after.registrations ∧
        (∀ entry ∈ after.registrations, ReferencesMatch entry.2.registration) ∧
        ∃ catalog error,
          (freezeTypeCatalog world.typeName after false).1 = .returned (some catalog) error) ∧
    ∀ canon : Canon Codec, ∃ calls, Call.freeze true ∉ calls ∧
      Machine.run (step world.typeName) { slots := slots } calls =
        some (registerCanonicalTypeProtocols world.typeName canon { slots := slots }).2 ∧
      Founded world.typeName
        (registerCanonicalTypeProtocols world.typeName canon { slots := slots }).2.registrations := by
  refine ⟨?_, ?_⟩
  · intro calls state types hrun hmemory hnames hfounded
    obtain ⟨hstate, hkept⟩ := kept_of_run hmemory hrun
    obtain ⟨after, hafter, hregisters⟩ : ∃ after,
        (registerReflectedTypeProtocols world state types).state? = some after ∧
          Registers world (pendingTypes world state types) state after :=
      reflectLoop_registers (Nat.lt_succ_self _) (nodup_pendingTypes world state types)
        fun type htype => fresh_pendingTypes hstate htype
    have hreached := hregisters.reached hstate
    have hpending : registered state ∪ {type | type ∈ pendingTypes world state types} ⊆
        registered state ∪ {type | some type ∈ types} :=
      Set.union_subset_union_right _ fun type htype => mem_of_mem_pendingTypes htype
    obtain ⟨hknown, hwell⟩ := hregisters.founded hstate (hnames.mono hpending) hfounded
    refine ⟨after, hafter, hwell, ?_, ?_⟩
    · intro entry hentry
      have hlookup := (OrderedMap.lookup_eq_some_iff hreached.consistent.distinct).mpr hentry
      exact referencesMatch_of_valid (hreached.consistent.valid _ _ hlookup)
    · cases hfrozen : state.frozen with
      | false =>
          obtain ⟨catalog, hcatalog⟩ := hreached.consistent.freeze_founded
            (hreached.frozen.trans hfrozen) (hnames.mono (hknown.trans hpending)) hwell
          exact ⟨catalog, [], hcatalog⟩
      | true =>
          obtain rfl := hregisters.frozen hfrozen
          obtain ⟨catalog, hcatalog⟩ := Option.isSome_iff_exists.mp
            (hkept hfrozen (hnames.mono Set.subset_union_left) hfounded)
          refine ⟨catalog, after.freezeError, ?_⟩
          simp [freezeTypeCatalog, hfrozen, hcatalog]
  · intro canon
    obtain ⟨done, hcanonized⟩ := canonized_types world.typeName canon slots
    obtain ⟨calls, hmemory, hrun⟩ := hcanonized.history
    exact ⟨calls, hmemory, hrun, hcanonized.founded⟩

theorem founded_boolState : Founded nestedWorld.typeName boolState.registrations := by
  have hnone : boolProtocol.registration.dependencies = [] := by decide +kernel
  have hdepends : ∀ entry ∈ boolState.registrations,
      ∀ dependency, dependency ∉ entry.2.registration.dependencies := by
    intro entry hentry dependency hdependency
    rw [List.mem_singleton.mp hentry] at hdependency
    rw [show (boolProtocol.withCodec ()).registration.dependencies = [] from hnone] at hdependency
    cases hdependency
  refine ⟨?_, ?_, ?_⟩
  · intro entry hentry dependency hdependency
    exact absurd hdependency (hdepends entry hentry dependency)
  · intro name hcycle
    obtain ⟨source, -, found, hfound, -, hdependency⟩ := TransGen.tail'_iff.mp hcycle
    exact hdepends found hfound _ hdependency
  · intro entry hentry _ other _ hdependency
    exact absurd hdependency (hdepends entry hentry _)

/-- No two of the types have one name. -/
theorem injOn_nestedWorld : Set.InjOn nestedWorld.typeName {1, 2, 3} := by
  have hnames : bytes "Bool" ≠ bytes "Outer" ∧ bytes "Bool" ≠ bytes "Inner" ∧
      bytes "Outer" ≠ bytes "Inner" := by decide
  obtain ⟨hone, htwo, hthree⟩ := hnames
  rintro first (rfl | rfl | rfl) second (rfl | rfl | rfl) hequal
  · rfl
  · exact absurd hequal hone
  · exact absurd hequal htwo
  · exact absurd hequal.symm hone
  · rfl
  · exact absurd hequal hthree
  · exact absurd hequal.symm htwo
  · exact absurd hequal.symm hthree
  · rfl

theorem reflection_freezes_nested :
    ∀ types ∈ [[some 2, some 3], [some 3, some 2]], ∃ after catalog error,
      Machine.run (step nestedWorld.typeName) { slots := fun _ => none } boolHistory =
        some boolState ∧
      (registerReflectedTypeProtocols nestedWorld boolState types).state? = some after ∧
      after.registrations.map Prod.fst = [1, 2, 3] ∧
      Founded nestedWorld.typeName after.registrations ∧
      (freezeTypeCatalog nestedWorld.typeName after false).1 = .returned (some catalog) error := by
  intro types htypes
  have hmemory : Call.freeze true ∉ boolHistory := by
    intro hmem
    cases List.mem_singleton.mp hmem
  have hsmall : registered boolState ∪ {type | some type ∈ types} ⊆ {1, 2, 3} := by
    intro type htype
    rcases htype with hregistered | hpending
    · have hmem := OrderedMap.isSome_lookup_iff.mp (show (List.lookup type _).isSome from hregistered)
      exact .inl (List.mem_singleton.mp hmem)
    · right
      have hgiven : some type ∈ types := hpending
      rcases List.mem_cons.mp htypes with rfl | hswapped
      · simpa using hgiven
      · rw [List.mem_singleton.mp hswapped] at hgiven
        simpa [or_comm] using hgiven
  have hpending : pendingTypes nestedWorld boolState types = [2, 3] := by
    rcases List.mem_cons.mp htypes with rfl | hswapped
    · exact pendingTypes_nested
    · rw [List.mem_singleton.mp hswapped]
      decide +kernel
  obtain ⟨after, hafter, hfounded, -, catalog, error, hcatalog⟩ :=
    (reflection_freezes nestedWorld fun _ => none).1 _ _ types boolState_run hmemory
      (injOn_nestedWorld.mono hsmall) founded_boolState
  refine ⟨after, catalog, error, boolState_run, hafter, ?_, hfounded, hcatalog⟩
  have hregistered := types_nested
  rw [registerReflectedTypeProtocols, hpending] at hafter
  rw [Outcome.types, show (reflectLoop nestedWorld 3 [2, 3] boolState []).state? = _ from hafter]
    at hregistered
  exact Option.some.inj hregistered

end RttHttp.Registry
