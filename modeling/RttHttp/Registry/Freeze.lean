import RttHttp.Registry.History

/-! # Freezing the catalog

The search over the staged catalog decides whether the registered types are well
founded: nothing they depend on is missing, no type depends on itself, and enums
rest on integers.
-/

namespace RttHttp.Registry

open Model (TypeBinding TypeCatalog TypeRegistration)
open Relation (TransGen)

variable {formatter : Formatter} {Codec : Type}

abbrev Entries (formatter : Formatter) (Codec : Type) :=
  List (TypeId × TypeProtocol formatter Codec)

variable (typeName : TypeId → Bytes)

/-- One registered type depends on a type name. -/
def DependsOn (entries : Entries formatter Codec) (name dependency : Bytes) : Prop :=
  ∃ entry ∈ entries, typeName entry.1 = name ∧ dependency ∈ entry.2.registration.dependencies

def HasKind (registration : TypeRegistration) (kind : String) : Prop :=
  descriptorKind registration = some (.string (bytes kind))

/-- What makes a catalog of the registered types. -/
structure Founded (entries : Entries formatter Codec) : Prop where
  closed : ∀ entry ∈ entries, ∀ dependency ∈ entry.2.registration.dependencies,
    ∃ other ∈ entries, typeName other.1 = dependency
  acyclic : ∀ name, ¬ TransGen (DependsOn typeName entries) name name
  integral : ∀ entry ∈ entries, HasKind entry.2.registration "enum" →
    ∀ other ∈ entries, typeName other.1 ∈ entry.2.registration.dependencies →
      HasKind other.2.registration "integer"

/-- A reason for which the search may refuse the registered types. -/
def Blames (entries : Entries formatter Codec) (text : Bytes) : Prop :=
  (∃ dependency, text = bytes "missing HTTP type dependency: " ++ dependency ∧
    (∃ name, DependsOn typeName entries name dependency) ∧
    ∀ entry ∈ entries, typeName entry.1 ≠ dependency) ∨
  (∃ dependency, text = bytes "recursive HTTP type definition: " ++ dependency ∧
    TransGen (DependsOn typeName entries) dependency dependency) ∨
  (text = bytes "HTTP enum underlying type is not an integer" ∧
    ∃ entry ∈ entries, HasKind entry.2.registration "enum" ∧ ∃ other ∈ entries,
      typeName other.1 ∈ entry.2.registration.dependencies ∧
      ¬ HasKind other.2.registration "integer")

/-! ## The staged catalog -/

section Staged

variable {typeName} {entries : Entries formatter Codec}

theorem findName_stagedCatalog (name : Bytes) :
    (stagedCatalog typeName entries).findName name =
      (entries.map fun entry => (typeName entry.1, bindingOf entry.2)).lookup name := by
  simp [TypeCatalog.findName, stagedCatalog, OrderedMap.lookup_emplaceAll]

/-- With distinct names every entry is found under its name. -/
theorem findName_stagedCatalog_iff (hnames : (entries.map fun entry => typeName entry.1).Nodup)
    {name : Bytes} {binding : TypeBinding Codec} :
    (stagedCatalog typeName entries).findName name = some binding ↔
      ∃ entry ∈ entries, typeName entry.1 = name ∧ bindingOf entry.2 = binding := by
  rw [findName_stagedCatalog, OrderedMap.lookup_eq_some_iff (by rwa [List.map_map])]
  simp [List.mem_map]

theorem isSome_dependenciesOf (catalog : TypeCatalog Codec) (name : Bytes) :
    (dependenciesOf catalog name).isSome ↔ name ∈ catalog.types.map Prod.fst := by
  rw [dependenciesOf, Option.isSome_map, TypeCatalog.findName, OrderedMap.isSome_lookup_iff]

theorem nodup_stagedCatalog : ((stagedCatalog typeName entries).types.map Prod.fst).Nodup :=
  OrderedMap.nodup_keys_emplaceAll _ (by simp)

/-- An edge of the search is a dependency of a registered type. -/
theorem edge_stagedCatalog_iff (hnames : (entries.map fun entry => typeName entry.1).Nodup)
    {name dependency : Bytes} :
    Graph.Edge (dependenciesOf (stagedCatalog typeName entries)) name dependency ↔
      DependsOn typeName entries name dependency := by
  simp only [Graph.Edge, dependenciesOf, Option.map_eq_some_iff, findName_stagedCatalog_iff hnames]
  constructor
  · rintro ⟨_, ⟨_, ⟨entry, hentry, hname, rfl⟩, rfl⟩, hmem⟩
    exact ⟨entry, hentry, hname, hmem⟩
  · rintro ⟨entry, hentry, hname, hmem⟩
    exact ⟨_, ⟨_, ⟨entry, hentry, hname, rfl⟩, rfl⟩, hmem⟩

theorem edge_stagedCatalog (hnames : (entries.map fun entry => typeName entry.1).Nodup) :
    Graph.Edge (dependenciesOf (stagedCatalog typeName entries)) = DependsOn typeName entries := by
  funext name dependency
  exact propext (edge_stagedCatalog_iff hnames)

theorem isText_iff {value : Json} {text : String} :
    isText value text = true ↔ value = .string (bytes text) := by
  cases value <;> simp [isText]

/-- With kinds everywhere the check of a dependency finds what is wrong. -/
theorem inspectKinds_eq_none {definition referenced : TypeRegistration}
    (hdefinition : (descriptorKind definition).isSome) (hreferenced : (descriptorKind referenced).isSome) :
    inspectKinds definition referenced = none ∧
        (HasKind definition "enum" → HasKind referenced "integer") ∨
      inspectKinds definition referenced = some .notInteger ∧
        HasKind definition "enum" ∧ ¬ HasKind referenced "integer" := by
  obtain ⟨kind, hkind⟩ := Option.isSome_iff_exists.mp hdefinition
  obtain ⟨underlying, hunderlying⟩ := Option.isSome_iff_exists.mp hreferenced
  simp only [inspectKinds, HasKind, hkind, hunderlying, Option.some.injEq, ← isText_iff]
  by_cases henum : isText kind "enum" = true
  · by_cases hinteger : isText underlying "integer" = true
    · simp [henum, hinteger]
    · simp [henum, hinteger]
  · simp [henum]

/-- Every entry has a kind once it passed validation. -/
def Kinded (entries : Entries formatter Codec) : Prop :=
  ∀ entry ∈ entries, (descriptorKind entry.2.registration).isSome

/-- What the check of one dependency finds in a staged catalog. -/
theorem inspectDependency_staged (hnames : (entries.map fun entry => typeName entry.1).Nodup)
    (hkinds : Kinded entries) {name dependency : Bytes}
    (hdepends : DependsOn typeName entries name dependency) :
    match inspectDependency (stagedCatalog typeName entries) name dependency with
    | none => ∃ entry ∈ entries, typeName entry.1 = name ∧
        ∃ other ∈ entries, typeName other.1 = dependency ∧
        (HasKind entry.2.registration "enum" → HasKind other.2.registration "integer")
    | some (.missing missing) => missing = dependency ∧
        ∀ entry ∈ entries, typeName entry.1 ≠ dependency
    | some .notInteger => ∃ entry ∈ entries, typeName entry.1 = name ∧
        ∃ other ∈ entries, typeName other.1 = dependency ∧
        HasKind entry.2.registration "enum" ∧ ¬ HasKind other.2.registration "integer"
    | some .noKind => False := by
  obtain ⟨entry, hentry, hname, -⟩ := hdepends
  have hcurrent : (stagedCatalog typeName entries).findName name = some (bindingOf entry.2) :=
    (findName_stagedCatalog_iff hnames).mpr ⟨entry, hentry, hname, rfl⟩
  unfold inspectDependency
  cases hfound : (stagedCatalog typeName entries).findName dependency with
  | none =>
      refine ⟨rfl, ?_⟩
      intro other hother hequal
      have := (findName_stagedCatalog_iff hnames).mpr ⟨other, hother, hequal, rfl⟩
      rw [hfound] at this
      cases this
  | some referenced =>
      obtain ⟨other, hother, hdependency, rfl⟩ := (findName_stagedCatalog_iff hnames).mp hfound
      simp only [hcurrent, Option.bind_some]
      rcases inspectKinds_eq_none (hkinds entry hentry) (hkinds other hother) with
        ⟨hnone, himplies⟩ | ⟨hwrong, henum, hinteger⟩
      · rw [show inspectKinds (bindingOf entry.2).registration (bindingOf other.2).registration =
          none from hnone]
        exact ⟨entry, hentry, hname, other, hother, hdependency, himplies⟩
      · rw [show inspectKinds (bindingOf entry.2).registration (bindingOf other.2).registration =
          some .notInteger from hwrong]
        exact ⟨entry, hentry, hname, other, hother, hdependency, henum, hinteger⟩

/-- With distinct names an entry is determined by its name. -/
theorem entry_unique (hnames : (entries.map fun entry => typeName entry.1).Nodup)
    {first second : TypeId × TypeProtocol formatter Codec} (hfirst : first ∈ entries)
    (hsecond : second ∈ entries) (hequal : typeName first.1 = typeName second.1) :
    first = second :=
  List.inj_on_of_nodup_map hnames hfirst hsecond hequal

/-- Nothing is refused on sight exactly when all dependencies are there and fit. -/
theorem inspect_staged_iff (hnames : (entries.map fun entry => typeName entry.1).Nodup)
    (hkinds : Kinded entries) :
    (∀ source target, Graph.Edge (dependenciesOf (stagedCatalog typeName entries)) source target →
      inspectDependency (stagedCatalog typeName entries) source target = none) ↔
    (∀ entry ∈ entries, ∀ dependency ∈ entry.2.registration.dependencies,
      ∃ other ∈ entries, typeName other.1 = dependency ∧
        (HasKind entry.2.registration "enum" → HasKind other.2.registration "integer")) := by
  constructor
  · intro haccepted entry hentry dependency hdependency
    have hdepends : DependsOn typeName entries (typeName entry.1) dependency :=
      ⟨entry, hentry, rfl, hdependency⟩
    have hinspect := inspectDependency_staged hnames hkinds hdepends
    rw [haccepted _ _ ((edge_stagedCatalog_iff hnames).mpr hdepends)] at hinspect
    obtain ⟨found, hfound, hname, other, hother, hequal, himplies⟩ := hinspect
    obtain rfl := entry_unique hnames hfound hentry hname
    exact ⟨other, hother, hequal, himplies⟩
  · intro hall source target hedge
    have hdepends := (edge_stagedCatalog_iff hnames).mp hedge
    have hinspect := inspectDependency_staged hnames hkinds hdepends
    obtain ⟨entry, hentry, hname, hmem⟩ := hdepends
    obtain ⟨other, hother, hequal, himplies⟩ := hall entry hentry target hmem
    cases hresult : inspectDependency (stagedCatalog typeName entries) source target with
    | none => rfl
    | some reason =>
        rw [hresult] at hinspect
        cases reason with
        | missing missing => exact absurd hequal (hinspect.2 other hother)
        | notInteger =>
            obtain ⟨found, hfound, hfoundName, target, htarget, htargetName, henum, hnot⟩ := hinspect
            obtain rfl := entry_unique hnames hfound hentry (hfoundName.trans hname.symm)
            obtain rfl := entry_unique hnames htarget hother (htargetName.trans hequal.symm)
            exact absurd (himplies henum) hnot
        | noKind => exact hinspect.elim

end Staged

/-! ## The verdict of a freeze -/

section Verdict

variable {typeName} {entries : Entries formatter Codec}

theorem founded_iff (hnames : (entries.map fun entry => typeName entry.1).Nodup)
    (hkinds : Kinded entries) :
    Founded typeName entries ↔
      (∀ source target, Graph.Edge (dependenciesOf (stagedCatalog typeName entries)) source target →
        inspectDependency (stagedCatalog typeName entries) source target = none) ∧
      ∀ name, ¬ TransGen (Graph.Edge (dependenciesOf (stagedCatalog typeName entries))) name name := by
  rw [inspect_staged_iff hnames hkinds, edge_stagedCatalog hnames]
  constructor
  · intro h
    refine ⟨?_, h.acyclic⟩
    intro entry hentry dependency hdependency
    obtain ⟨other, hother, hequal⟩ := h.closed entry hentry dependency hdependency
    refine ⟨other, hother, hequal, ?_⟩
    intro henum
    exact h.integral entry hentry henum other hother (hequal ▸ hdependency)
  · rintro ⟨hall, hacyclic⟩
    refine ⟨?_, hacyclic, ?_⟩
    · intro entry hentry dependency hdependency
      obtain ⟨other, hother, hequal, -⟩ := hall entry hentry dependency hdependency
      exact ⟨other, hother, hequal⟩
    · intro entry hentry henum other hother hdependency
      obtain ⟨found, hfound, hequal, himplies⟩ := hall entry hentry _ hdependency
      obtain rfl := entry_unique hnames hfound hother hequal
      exact himplies henum

/-- The search over any iteration order of the staged names. -/
theorem searchCatalog_staged (hnames : (entries.map fun entry => typeName entry.1).Nodup)
    (hkinds : Kinded entries) {catalog : TypeCatalog Codec}
    (horder : catalog.types.Perm (stagedCatalog typeName entries).types) :
    ((searchCatalog catalog).isOk = true ↔ Founded typeName entries) ∧
      ∀ stop, searchCatalog catalog = .error stop →
        ∃ text, stopText stop = some text ∧ Blames typeName entries text := by
  have hfind : catalog.findName = (stagedCatalog typeName entries).findName := by
    funext name
    exact OrderedMap.lookup_perm horder nodup_stagedCatalog name
  have hexpand : dependenciesOf catalog = dependenciesOf (stagedCatalog typeName entries) := by
    funext name
    rw [dependenciesOf, hfind, ← dependenciesOf]
  have hinspect : inspectDependency catalog = inspectDependency (stagedCatalog typeName entries) := by
    funext name dependency
    rw [inspectDependency, hfind, ← inspectDependency]
  have hkeys : (catalog.types.map Prod.fst).Nodup :=
    (horder.map Prod.fst).nodup_iff.mpr nodup_stagedCatalog
  have hentry : ∀ source target, inspectDependency catalog source target = none →
      (dependenciesOf catalog target).isSome := by
    intro source target hnone
    unfold inspectDependency at hnone
    unfold dependenciesOf
    cases hfound : catalog.findName target with
    | none => simp [hfound] at hnone
    | some found => rfl
  obtain ⟨hok, hstop⟩ := Graph.exploreAll_decides hkeys (isSome_dependenciesOf catalog) hentry rfl
  rw [hexpand, hinspect] at hok
  refine ⟨?_, ?_⟩
  · rw [founded_iff hnames hkinds, ← hok, ← hexpand, ← hinspect]
    rfl
  · intro stop herror
    have hjustified := hstop stop herror
    rw [hexpand, hinspect] at hjustified
    cases stop with
    | refused reason =>
        obtain ⟨source, target, hedge, hreason⟩ := hjustified
        have hdepends := (edge_stagedCatalog_iff hnames).mp hedge
        have hfound := inspectDependency_staged hnames hkinds hdepends
        rw [hreason] at hfound
        cases reason with
        | missing missing =>
            obtain ⟨rfl, habsent⟩ := hfound
            exact ⟨_, rfl, .inl ⟨missing, rfl, ⟨source, hdepends⟩, habsent⟩⟩
        | notInteger =>
            obtain ⟨entry, hentry, hname, other, hother, hequal, henum, hnot⟩ := hfound
            obtain ⟨origin, horigin, horiginName, hmem⟩ := hdepends
            obtain rfl := entry_unique hnames horigin hentry (horiginName.trans hname.symm)
            exact ⟨_, rfl, .inr (.inr ⟨rfl, origin, hentry, henum, other, hother, hequal ▸ hmem, hnot⟩)⟩
        | noKind => exact hfound.elim
    | cycle name =>
        unfold Graph.Justified at hjustified
        rw [edge_stagedCatalog hnames] at hjustified
        exact ⟨_, rfl, .inr (.inl ⟨name, rfl, hjustified⟩)⟩
    | absent name => exact hjustified.elim
    | outOfFuel => exact hjustified.elim

theorem kinded_of_valid
    (hvalid : ∀ entry ∈ entries, validateRegistration entry.2.registration = .ok ()) :
    Kinded entries := by
  intro entry hentry
  obtain ⟨kind, hkind⟩ := kind_of_valid (hvalid entry hentry)
  simp [descriptorKind, hkind]

theorem Founded.perm {others : Entries formatter Codec} (hperm : others.Perm entries)
    (h : Founded typeName entries) : Founded typeName others := by
  have hdepends : DependsOn typeName others = DependsOn typeName entries := by
    funext name dependency
    simp only [DependsOn, hperm.mem_iff]
  refine ⟨?_, ?_, ?_⟩
  · intro entry hentry dependency hdependency
    obtain ⟨other, hother, hequal⟩ := h.closed entry (hperm.mem_iff.mp hentry) dependency hdependency
    exact ⟨other, hperm.mem_iff.mpr hother, hequal⟩
  · rw [hdepends]
    exact h.acyclic
  · intro entry hentry henum other hother
    exact h.integral entry (hperm.mem_iff.mp hentry) henum other (hperm.mem_iff.mp hother)

/-- The first freeze of registrations that are still in their slots. -/
theorem freeze_first {state : State formatter Codec} (hopen : state.frozen = false)
    (hkept : ∀ entry ∈ state.registrations, slotKept state entry = true) :
    freezeTypeCatalog typeName state false = freezeStaged typeName state := by
  have hall : state.registrations.all (slotKept state) = true := List.all_eq_true.mpr hkept
  simp [freezeTypeCatalog, hopen, hall]

/-- The search decides about the first freeze. -/
theorem freeze_searched {state : State formatter Codec} (hopen : state.frozen = false)
    (hkept : ∀ entry ∈ state.registrations, slotKept state entry = true)
    (hsearch : (searchCatalog (stagedCatalog typeName state.registrations)).isOk = true) :
    (freezeTypeCatalog typeName state false).1 =
      .returned (some (stagedCatalog typeName state.registrations)) [] := by
  rw [freeze_first hopen hkept, freezeStaged]
  split
  next => rfl
  next stop hstop =>
    rw [hstop] at hsearch
    cases hsearch

/-- What the first freeze says about well-founded registrations. -/
theorem freeze_returns_iff {state : State formatter Codec} (hopen : state.frozen = false)
    (hkept : ∀ entry ∈ state.registrations, slotKept state entry = true)
    (hvalid : ∀ entry ∈ state.registrations, validateRegistration entry.2.registration = .ok ())
    (hnames : (state.registrations.map fun entry => typeName entry.1).Nodup) :
    (∃ catalog, (freezeTypeCatalog typeName state false).1 = .returned (some catalog) []) ↔
      Founded typeName state.registrations := by
  obtain ⟨hok, hstop⟩ := searchCatalog_staged hnames (kinded_of_valid hvalid) (List.Perm.refl _)
  rw [freeze_first hopen hkept, freezeStaged, ← hok]
  split
  next hfound => simp [hfound, Except.isOk, Except.toBool]
  next stop hstopped =>
    obtain ⟨text, htext, -⟩ := hstop stop hstopped
    simp [htext, freezeFailed, hstopped, Except.isOk, Except.toBool]

/-- The first freeze returns a catalog exactly for well-founded registrations; when
it refuses, it names a dependency that is missing or lies on a cycle, or an enum
is to blame. -/
theorem freeze_decides {state : State formatter Codec} (hopen : state.frozen = false)
    (hkept : ∀ entry ∈ state.registrations, slotKept state entry = true)
    (hvalid : ∀ entry ∈ state.registrations, validateRegistration entry.2.registration = .ok ())
    (hnames : (state.registrations.map fun entry => typeName entry.1).Nodup) :
    (freezeTypeCatalog typeName state false).1 ≠ .threw ∧
    ((∃ catalog, (freezeTypeCatalog typeName state false).1 = .returned (some catalog) []) ↔
      Founded typeName state.registrations) ∧
    (∀ text, (freezeTypeCatalog typeName state false).1 = .returned none text →
      Blames typeName state.registrations text) ∧
    -- any order of the registrations, and any order of the staged names
    (∀ entries types, entries.Perm state.registrations →
      types.Perm (stagedCatalog typeName entries).types →
      ((searchCatalog { stagedCatalog typeName entries with types := types }).isOk = true ↔
        Founded typeName state.registrations)) := by
  have hkinds := kinded_of_valid hvalid
  obtain ⟨hok, hstop⟩ := searchCatalog_staged hnames hkinds (List.Perm.refl _)
  refine ⟨?_, freeze_returns_iff hopen hkept hvalid hnames, ?_, ?_⟩
  · rw [freeze_first hopen hkept, freezeStaged]
    split
    next => simp
    next stop hstopped =>
      obtain ⟨text, htext, -⟩ := hstop stop hstopped
      simp [htext, freezeFailed]
  · intro text hreturned
    rw [freeze_first hopen hkept, freezeStaged] at hreturned
    split at hreturned
    next => simp at hreturned
    next stop hstopped =>
      obtain ⟨found, hfound, hblames⟩ := hstop stop hstopped
      simp only [hfound, freezeFailed, FreezeReply.returned.injEq, true_and] at hreturned
      exact hreturned ▸ hblames
  · intro entries types hentries htypes
    have hnames' : (entries.map fun entry => typeName entry.1).Nodup :=
      (hentries.map _).nodup_iff.mpr hnames
    have hkinds' : Kinded entries := fun entry hentry => hkinds entry (hentries.mem_iff.mp hentry)
    rw [(searchCatalog_staged hnames' hkinds' htypes).1]
    exact ⟨Founded.perm hentries.symm, Founded.perm hentries⟩

end Verdict

def flagsRegistration : TypeRegistration :=
  { boolRegistration with
    codecId := bytes "Flags"
    rttType := bytes "Flags"
    descriptor := [(bytes "kind", .string (bytes "array")),
      (bytes "elementType", .string (bytes "Bool")), (bytes "length", .null)]
    dependencies := [bytes "Bool"] }

def flagsProtocol : TypeProtocol plainFormatter (Option Unit) where
  address := 8
  registration := normalize flagsRegistration
  codec := some ()
  fingerprint := serialize plainFormatter.double (identity (normalize flagsRegistration))
  fingerprint_eq := by decide +kernel

def flagsName (type : TypeId) : Bytes := if type = 1 then bytes "Bool" else bytes "Flags"

def flagsState : State plainFormatter Unit where
  registrations := [(1, boolProtocol.withCodec ()), (2, flagsProtocol.withCodec ())]
  slots := fun type =>
    if type = 1 then some (.protocol (boolProtocol.withCodec ()))
    else some (.protocol (flagsProtocol.withCodec ()))

theorem freeze_decides_flags :
    (freezeTypeCatalog flagsName flagsState false).1 ≠ .threw ∧
      ((∃ catalog, (freezeTypeCatalog flagsName flagsState false).1 = .returned (some catalog) []) ↔
        Founded flagsName flagsState.registrations) := by
  have hkept : ∀ entry ∈ flagsState.registrations, slotKept flagsState entry = true :=
    List.all_eq_true.mp (by decide +kernel)
  have hbool : validateRegistration boolProtocol.registration = .ok () := by decide +kernel
  have hflags : validateRegistration flagsProtocol.registration = .ok () := by decide +kernel
  have hvalid : ∀ entry ∈ flagsState.registrations,
      validateRegistration entry.2.registration = .ok () :=
    List.forall_mem_cons.mpr ⟨hbool, List.forall_mem_singleton.mpr hflags⟩
  have hnames : (flagsState.registrations.map fun entry => flagsName entry.1).Nodup := by
    decide +kernel
  obtain ⟨hthrew, hverdict, -⟩ := freeze_decides rfl hkept hvalid hnames
  exact ⟨hthrew, hverdict⟩

/-! ## The binding of each type -/

section Bindings

variable {typeName} {entries : Entries formatter Codec}

/-- A registered type is found under its identity through its name. -/
theorem find_stagedCatalog {type : TypeId} {protocol : TypeProtocol formatter Codec}
    (hentry : entries.lookup type = some protocol) :
    (stagedCatalog typeName entries).find (some ⟨type, typeName type⟩) =
      (stagedCatalog typeName entries).findName (typeName type) := by
  have hidentity : (stagedCatalog typeName entries).identities.lookup type =
      some (typeName type) := by
    rw [stagedCatalog, OrderedMap.lookup_emplaceAll, List.lookup_nil, Option.none_or]
    induction entries with
    | nil => simp at hentry
    | cons entry rest ih =>
        obtain ⟨other, found⟩ := entry
        by_cases heq : type = other
        · simp [heq]
        · have hbeq : (type == other) = false := by simpa using heq
          rw [List.lookup_cons, hbeq] at hentry
          rw [List.map_cons, List.lookup_cons, hbeq]
          exact ih hentry
  rw [TypeCatalog.find, hidentity, Option.bind_some]

/-- What is found under a name belongs to some type of that name. -/
theorem findName_stagedCatalog_some {type : TypeId} {protocol : TypeProtocol formatter Codec}
    (hkeys : (entries.map Prod.fst).Nodup) (hentry : entries.lookup type = some protocol) :
    ∃ other found, entries.lookup other = some found ∧ typeName other = typeName type ∧
      (stagedCatalog typeName entries).findName (typeName type) = some (bindingOf found) := by
  have hmem := (OrderedMap.lookup_eq_some_iff hkeys).mp hentry
  have hsome : ((entries.map fun entry => (typeName entry.1, bindingOf entry.2)).lookup
      (typeName type)).isSome := by
    rw [OrderedMap.isSome_lookup_iff]
    exact List.mem_map.mpr ⟨_, List.mem_map.mpr ⟨_, hmem, rfl⟩, rfl⟩
  obtain ⟨binding, hbinding⟩ := Option.isSome_iff_exists.mp hsome
  obtain ⟨before, after, hsplit, -⟩ := List.lookup_eq_some_iff.mp hbinding
  have hin : (typeName type, binding) ∈
      entries.map fun entry => (typeName entry.1, bindingOf entry.2) := by
    rw [hsplit]
    simp
  obtain ⟨⟨other, found⟩, hfound, heq⟩ := List.mem_map.mp hin
  obtain ⟨hname, rfl⟩ := Prod.mk.inj heq
  refine ⟨other, found, (OrderedMap.lookup_eq_some_iff hkeys).mpr hfound, hname, ?_⟩
  rw [findName_stagedCatalog, hbinding]

/-- After a successful first freeze every registered type has its own binding in the
catalog exactly when types of one name were registered with one binding. -/
theorem catalog_bindings {slots : TypeId → Option (Occupant formatter Codec)}
    {calls : List (Call formatter Codec)} {state : State formatter Codec}
    (hrun : Machine.run (step typeName) { slots := slots } calls = some state)
    (hopen : state.frozen = false) {exhausted : Bool} {catalog : TypeCatalog Codec} {error : Bytes}
    (hfreeze : (freezeTypeCatalog typeName state exhausted).1 = .returned (some catalog) error) :
    (∀ type protocol, state.registrations.lookup type = some protocol →
      catalog.find (some ⟨type, typeName type⟩) = some (bindingOf protocol) ∧
      (catalog.types.lookup (typeName type)).isSome) ↔
    ∀ first second protocol other, state.registrations.lookup first = some protocol →
      state.registrations.lookup second = some other → typeName first = typeName second →
      bindingOf protocol = bindingOf other := by
  obtain ⟨hstate, -⟩ := (Consistent.initial typeName slots).run hrun
  obtain rfl : catalog = stagedCatalog typeName state.registrations := by
    rcases freezeTypeCatalog_cases
      (Prod.mk.eta (p := freezeTypeCatalog typeName state exhausted)).symm with
      ⟨hfrozen, -⟩ | ⟨-, -, -, -, ⟨hreply, -⟩ | ⟨hreply, -⟩ | ⟨hreply, -⟩⟩
    · rw [hopen] at hfrozen
      cases hfrozen
    · rw [hreply] at hfreeze
      cases hfreeze
    · rw [hreply] at hfreeze
      cases hfreeze
    · rw [hreply] at hfreeze
      cases hfreeze
      rfl
  constructor
  · intro hown first second protocol other hfirst hsecond hname
    have hone := (hown first protocol hfirst).1
    have htwo := (hown second other hsecond).1
    rw [find_stagedCatalog hfirst] at hone
    rw [find_stagedCatalog hsecond, ← hname, hone] at htwo
    exact Option.some.inj htwo
  · intro hsame type protocol hentry
    obtain ⟨other, found, hfound, hname, hbinding⟩ :=
      findName_stagedCatalog_some hstate.distinct hentry
    refine ⟨?_, ?_⟩
    · rw [find_stagedCatalog hentry, hbinding, hsame other type found protocol hfound hentry hname]
    · rw [← TypeCatalog.findName, hbinding]
      rfl

end Bindings

/-- Two types of one name, registered with the codecs of two protocols. -/
def twinHistory : List (Call plainFormatter Nat) :=
  [.register (some 1) (some (boolProtocol.withCodec (some 10))) .stored,
    .register (some 2) (some (boolTwin.withCodec (some 20))) .stored]

def twinState : State plainFormatter Nat :=
  (State.added { slots := fun _ => none } 1 (boolProtocol.withCodec 10)).added 2
    (boolTwin.withCodec 20)

theorem run_twinHistory :
    Machine.run (step fun _ => bytes "Bool") { slots := fun _ => none } twinHistory =
      some twinState := by
  have htwin : validateRegistration boolTwin.registration = .ok () := boolProtocol_valid
  apply Eq.trans (run_stored rfl rfl (by exact boolProtocol_valid) rfl rfl rfl _)
  exact run_stored rfl rfl (by exact htwin) rfl rfl rfl _

theorem freeze_twinState :
    (freezeTypeCatalog (fun _ => bytes "Bool") twinState false).1 =
      .returned (some (stagedCatalog (fun _ => bytes "Bool") twinState.registrations)) [] := by
  have hkept : ∀ entry ∈ twinState.registrations, slotKept twinState entry = true :=
    List.all_eq_true.mp (by decide +kernel)
  have hsearch : (searchCatalog (stagedCatalog (fun _ => bytes "Bool")
      twinState.registrations)).isOk = true := by
    decide +kernel
  exact freeze_searched rfl hkept hsearch

/-- The second of two types with one name is looked up with the codec of the first. -/
theorem twin_loses_codec :
    ∃ state catalog protocol,
      Machine.run (step fun _ => bytes "Bool") { slots := fun _ => none } twinHistory =
        some state ∧
      (freezeTypeCatalog (fun _ => bytes "Bool") state false).1 = .returned (some catalog) [] ∧
      state.registrations.lookup 2 = some protocol ∧
      catalog.find (some ⟨2, bytes "Bool"⟩) ≠ some (bindingOf protocol) := by
  refine ⟨twinState, _, boolTwin.withCodec 20, run_twinHistory, freeze_twinState, rfl, ?_⟩
  intro hfind
  have hcodec := congrArg (fun binding => binding.map TypeBinding.codec) hfind
  revert hcodec
  decide +kernel

theorem catalog_bindings_twin :
    ¬ ∀ type protocol, twinState.registrations.lookup type = some protocol →
      (stagedCatalog (fun _ => bytes "Bool") twinState.registrations).find
        (some ⟨type, bytes "Bool"⟩) = some (bindingOf protocol) ∧
      ((stagedCatalog (fun _ => bytes "Bool") twinState.registrations).types.lookup
        (bytes "Bool")).isSome := by
  intro hown
  have hsame := (catalog_bindings run_twinHistory rfl freeze_twinState).mp hown 1 2
    (boolProtocol.withCodec 10) (boolTwin.withCodec 20) rfl rfl rfl
  exact absurd (congrArg TypeBinding.codec hsame) (by decide)

end RttHttp.Registry
