import RttHttp.Registry.Truthful

/-! # Startup

RTT hands types to the transport plugin as it loads them, and a server that starts
registers the canonical types and the types it can reflect, and freezes the catalog.
The schemas of every catalog that a server starts with are truthful.
-/

namespace RttHttp.Registry

open Codec (TypeCodec CodecContext RanOut Value makeDataSource toJson readCost readNesting)
open Model (TypeBinding TypeCatalog)
open Server (intMax)

variable {formatter : Formatter}

/-! ## Plugin and server -/

/-- What the calls find outside the registry: the types of RTT, the allocator and the
outcomes of `addProtocol`, and whether memory runs out during the freeze. -/
structure Surroundings where
  type : String → Option TypeId
  allocate : String → Nat
  addProtocol : String → AddOutcome
  types : List (Option TypeId)
  probe : TypeId → Probe
  allocateReflected : TypeId → Nat
  addReflected : TypeId → AddOutcome
  exhausted : Bool

def Surroundings.canon (surroundings : Surroundings) (platform : Platform) : Canon ProtocolCodec where
  platform := platform
  codec := canonicalCodec platform
  allocate := surroundings.allocate
  type := surroundings.type
  addProtocol := surroundings.addProtocol

def Surroundings.world (surroundings : Surroundings) (typeName : TypeId → Bytes) :
    World ProtocolCodec where
  typeName := typeName
  probe := surroundings.probe
  codec := reflectedCodec
  allocate := surroundings.allocateReflected
  addProtocol := surroundings.addReflected

/-- How `Server::start` fares with the catalog: an object model is made of it, or an
exception says why not. -/
inductive CatalogReply where
  | made (catalog : TypeCatalog ProtocolCodec) (diagnostics : List (Bytes × Bytes))
  | failed (error : Bytes)
  | threw

def CatalogReply.ofFreeze (diagnostics : List (Bytes × Bytes)) :
    FreezeReply ProtocolCodec → CatalogReply
  | .returned (some catalog) _ => .made catalog diagnostics
  | .returned none error => .failed error
  | .threw => .threw

section Startup

variable (typeName : TypeId → Bytes) (platform : Platform)

/-- `HttpTransportPlugin::registerTransport`. -/
def registerTransport (state : State formatter ProtocolCodec) (name : String) (type : Option TypeId)
    (surroundings : Surroundings) : Reply × State formatter ProtocolCodec :=
  registerCanonicalTypeProtocol typeName (surroundings.canon platform) state name type

/-- What `Server::start` does when it has no object model yet. -/
def startCatalog (state : State formatter ProtocolCodec) (surroundings : Surroundings) :
    CatalogReply × State formatter ProtocolCodec :=
  if state.frozen then
    let (reply, after) := freezeTypeCatalog typeName state surroundings.exhausted
    (.ofFreeze [] reply, after)
  else match registerCanonicalTypeProtocols typeName (surroundings.canon platform) state with
    | (.refused error, after) => (.failed error, after)
    | (.threw, after) => (.threw, after)
    | (.accepted, registered) =>
        match registerReflectedTypeProtocols (surroundings.world typeName) registered
          surroundings.types with
        | .returned reflected diagnostics =>
            let (reply, after) := freezeTypeCatalog typeName reflected surroundings.exhausted
            (.ofFreeze diagnostics reply, after)
        | .escaped after => (.threw, after)
        | .outOfFuel => (.threw, registered)

inductive Event where
  | transport (name : String) (type : Option TypeId) (surroundings : Surroundings)
  | start (surroundings : Surroundings)

def startup (state : State formatter ProtocolCodec) : Event → Option (State formatter ProtocolCodec)
  | .transport name type surroundings =>
      some (registerTransport typeName platform state name type surroundings).2
  | .start surroundings => some (startCatalog typeName platform state surroundings).2

/-! ## The invariant -/

/-- An entry that a row of the table was registered as. -/
structure IsRow (row : CanonicalType) (entry : TypeId × TypeProtocol formatter ProtocolCodec) :
    Prop where
  registration : entry.2.registration = row.registration
  name : typeName entry.1 = bytes row.1
  codec : entry.2.codec = canonicalCodec platform row.1

/-- All canonical types are registered, and the schemas are truthful. -/
structure Told (entries : Entries formatter ProtocolCodec) : Prop where
  rows : ∀ row ∈ canonicalTypes platform, ∃ entry ∈ entries, IsRow typeName platform row entry
  truthful : Truthful typeName entries

/-- Reflection begins only after all canonical types are registered. -/
structure Prepared (state : State formatter ProtocolCodec) : Prop where
  consistent : Consistent typeName state
  told : (∀ entry ∈ state.registrations, ∃ row ∈ canonicalTypes platform,
      IsRow typeName platform row entry) ∨ Told typeName platform state.registrations
  kept : ∀ catalog, state.catalog = some catalog → state.frozen = true ∧
    catalog = stagedCatalog typeName state.registrations ∧ Told typeName platform state.registrations

end Startup

section Steps

variable {typeName : TypeId → Bytes} {platform : Platform} {state after : State formatter ProtocolCodec}
  {type : TypeId} {protocol : TypeProtocol formatter ProtocolCodec}

theorem nodup_canonicalTypes (platform : Platform) :
    ((canonicalTypes platform).map fun row => bytes row.1).Nodup := by
  obtain ⟨rtMalloc, charSigned⟩ := platform
  cases rtMalloc
  all_goals
    cases charSigned
    all_goals decide +kernel

theorem mem_canonicalNames {platform : Platform} {row : CanonicalType}
    (hrow : row ∈ canonicalTypes platform) : row.1 ∈ canonicalNames platform := by
  have hsame : (canonicalTypes platform).map Prod.fst = canonicalNames platform := by
    obtain ⟨rtMalloc, charSigned⟩ := platform
    cases rtMalloc <;> rfl
  rw [← hsame]
  exact List.mem_map_of_mem hrow

/-- A row that is registered publishes its schema. -/
theorem IsRow.published {row : CanonicalType} {entry : TypeId × TypeProtocol formatter ProtocolCodec}
    (h : IsRow typeName platform row entry) {entries : Entries formatter ProtocolCodec}
    (hentry : entry ∈ entries) {schema : Schema Bytes} (hread : readSchema row.2.1 = some schema) :
    Published typeName entries (bytes row.1) schema := by
  refine ⟨entry, hentry, h.name, ?_⟩
  rw [h.registration, CanonicalType.registration, readSchema_normalize]
  exact hread

/-- With all rows registered, the codec of each row goes by what is published. -/
theorem IsRow.goesBy {row : CanonicalType} (hrow : row ∈ canonicalTypes platform)
    {entry : TypeId × TypeProtocol formatter ProtocolCodec} (h : IsRow typeName platform row entry)
    {entries : Entries formatter ProtocolCodec}
    (hrows : ∀ row ∈ canonicalTypes platform, ∃ entry ∈ entries,
      IsRow typeName platform row entry) :
    GoesBy (Published typeName entries) (typeName entry.1) entry.2.codec := by
  rw [h.name, h.codec]
  apply goesBy_canonical hrow
  intro other hother _ schema hread
  obtain ⟨found, hfound, hsame⟩ := hrows other hother
  exact hsame.published hfound hread

theorem Told.of_rows {entries : Entries formatter ProtocolCodec}
    (hall : ∀ entry ∈ entries, ∃ row ∈ canonicalTypes platform, IsRow typeName platform row entry)
    (hrows : ∀ row ∈ canonicalTypes platform, ∃ entry ∈ entries,
      IsRow typeName platform row entry) : Told typeName platform entries where
  rows := hrows
  truthful := by
    intro entry hentry
    obtain ⟨row, hrow, hsame⟩ := hall entry hentry
    exact hsame.goesBy hrow hrows

theorem Told.adds (h : Told typeName platform state.registrations)
    (hadds : Adds typeName state type protocol after)
    (hcodec : GoesBy (Published typeName after.registrations) (typeName type) protocol.codec) :
    Told typeName platform after.registrations where
  rows := by
    intro row hrow
    obtain ⟨entry, hentry, hsame⟩ := h.rows row hrow
    exact ⟨entry, hadds.mem_iff.mpr (.inr hentry), hsame⟩
  truthful := h.truthful.adds hadds hcodec

/-- No catalog is there while types are added. -/
theorem Prepared.adds (h : Prepared typeName platform state)
    (hadds : Adds typeName state type protocol after)
    (htold : (∀ entry ∈ after.registrations, ∃ row ∈ canonicalTypes platform,
      IsRow typeName platform row entry) ∨ Told typeName platform after.registrations) :
    Prepared typeName platform after where
  consistent := hadds.consistent h.consistent
  told := htold
  kept := by
    intro catalog hcatalog
    rw [hadds.after_eq] at hcatalog
    have hnone := h.consistent.unfrozen hadds.unfrozen
    exact absurd (hnone.symm.trans hcatalog) nofun

end Steps

/-! ## Canonical registrations -/

section Canonical

variable {typeName : TypeId → Bytes} {state after : State formatter ProtocolCodec}

variable {canon : Canon ProtocolCodec} (hcanon : canon.codec = canonicalCodec canon.platform)

include hcanon

/-- An accepted canonical type was there before, or is now what its row says. -/
theorem registerCanonicalTypeProtocol_accepted {name : String} {type : Option TypeId}
    (h : registerCanonicalTypeProtocol typeName canon state name type = (.accepted, after)) :
    ∃ row ∈ canonicalTypes canon.platform, row.1 = name ∧
      (after = state ∧ (∃ entry ∈ state.registrations, typeName entry.1 = bytes row.1) ∨
        ∃ found protocol, Adds typeName state found protocol after ∧
          IsRow typeName canon.platform row (found, protocol)) := by
  unfold registerCanonicalTypeProtocol at h
  split at h
  next => cases h
  next descriptor dependencies hfound =>
    split at h
    next => cases h
    next protocol hmake =>
      obtain ⟨hprotocol, hcodec, -⟩ := make_eq_ok hmake
      have hrow : (name, descriptor, dependencies) ∈ canonicalTypes canon.platform := by
        obtain ⟨before, rest, hsplit, -⟩ := List.lookup_eq_some_iff.mp hfound
        rw [hsplit]
        simp
      obtain ⟨found, stored, -, hstored, hname, hafter⟩ := registerTypeProtocol_accepted h
      obtain rfl := Option.some.inj (hstored.symm.trans hcodec)
      rw [hprotocol] at hname
      refine ⟨_, hrow, rfl, ?_⟩
      rcases hafter with ⟨hsame, hpresent⟩ | hadds
      · obtain ⟨known, hknown⟩ := Option.isSome_iff_exists.mp hpresent
        obtain ⟨before, rest, hsplit, -⟩ := List.lookup_eq_some_iff.mp hknown
        refine .inl ⟨hsame, (found, known), ?_, hname⟩
        rw [hsplit]
        simp
      · refine .inr ⟨found, _, hadds, hprotocol, hname, ?_⟩
        change canon.codec name = canonicalCodec canon.platform name
        rw [hcanon]

/-- The step lemma of canonical registrations. -/
theorem Prepared.canonical (hstate : Prepared typeName canon.platform state) {name : String}
    {type : Option TypeId} {reply : Reply}
    (h : registerCanonicalTypeProtocol typeName canon state name type = (reply, after)) :
    Prepared typeName canon.platform after := by
  by_cases haccepted : reply = .accepted
  · rw [haccepted] at h
    obtain ⟨row, hrow, -, ⟨rfl, -⟩ | ⟨found, protocol, hadds, hsame⟩⟩ :=
      registerCanonicalTypeProtocol_accepted hcanon h
    · exact hstate
    · apply hstate.adds hadds
      rcases hstate.told with hall | htold
      · left
        intro entry hentry
        rcases hadds.mem_iff.mp hentry with rfl | hold
        · exact ⟨row, hrow, hsame⟩
        · exact hall entry hold
      · right
        apply htold.adds hadds
        apply hsame.goesBy hrow
        intro other hother
        obtain ⟨entry, hentry, hknown⟩ := htold.rows other hother
        exact ⟨entry, hadds.mem_iff.mpr (.inr hentry), hknown⟩
  · rw [registerCanonicalTypeProtocol_failed h haccepted]
    exact hstate

/-- Rows stay registered. -/
theorem isRow_of_canonical {name : String} {type : Option TypeId} {reply : Reply}
    (h : registerCanonicalTypeProtocol typeName canon state name type = (reply, after))
    {row : CanonicalType}
    (hrow : ∃ entry ∈ state.registrations, IsRow typeName canon.platform row entry) :
    ∃ entry ∈ after.registrations, IsRow typeName canon.platform row entry := by
  obtain ⟨entry, hentry, hsame⟩ := hrow
  by_cases haccepted : reply = .accepted
  · rw [haccepted] at h
    obtain ⟨-, -, -, ⟨rfl, -⟩ | ⟨found, protocol, hadds, -⟩⟩ :=
      registerCanonicalTypeProtocol_accepted hcanon h
    · exact ⟨entry, hentry, hsame⟩
    · exact ⟨entry, hadds.mem_iff.mpr (.inr hentry), hsame⟩
  · rw [registerCanonicalTypeProtocol_failed h haccepted]
    exact ⟨entry, hentry, hsame⟩

/-- An accepted name has its row registered. -/
theorem isRow_of_accepted (hstate : Prepared typeName canon.platform state) {name : String}
    {type : Option TypeId}
    (h : registerCanonicalTypeProtocol typeName canon state name type = (.accepted, after))
    {row : CanonicalType} (hrow : row ∈ canonicalTypes canon.platform) (hname : row.1 = name) :
    ∃ entry ∈ after.registrations, IsRow typeName canon.platform row entry := by
  obtain ⟨other, hother, hsame, hafter⟩ := registerCanonicalTypeProtocol_accepted hcanon h
  have hunique : ∀ found ∈ canonicalTypes canon.platform, bytes found.1 = bytes row.1 →
      found = row :=
    fun found hfound => List.inj_on_of_nodup_map (nodup_canonicalTypes _) hfound hrow
  obtain rfl : other = row := hunique other hother (by rw [hsame, hname])
  rcases hafter with ⟨rfl, entry, hentry, hentryName⟩ | ⟨found, protocol, hadds, hprotocol⟩
  · rcases hstate.told with hall | htold
    · obtain ⟨found, hfound, hisRow⟩ := hall entry hentry
      obtain rfl := hunique found hfound (hisRow.name.symm.trans hentryName)
      exact ⟨entry, hentry, hisRow⟩
    · exact htold.rows other hother
  · exact ⟨(found, protocol), hadds.mem_iff.mpr (.inl rfl), hprotocol⟩

/-- The run lemma of the loop over the names. -/
theorem Prepared.names {names : List String} (hstate : Prepared typeName canon.platform state)
    {reply : Reply} (h : registerCanonicalNames typeName canon state names = (reply, after)) :
    Prepared typeName canon.platform after ∧
      (∀ row, (∃ entry ∈ state.registrations, IsRow typeName canon.platform row entry) →
        ∃ entry ∈ after.registrations, IsRow typeName canon.platform row entry) ∧
      (reply = .accepted → ∀ row ∈ canonicalTypes canon.platform, row.1 ∈ names →
        ∃ entry ∈ after.registrations, IsRow typeName canon.platform row entry) := by
  induction names generalizing state with
  | nil =>
      cases h
      exact ⟨hstate, fun _ hrow => hrow, fun _ _ _ hnone => absurd hnone List.not_mem_nil⟩
  | cons name rest ih =>
      rw [registerCanonicalNames] at h
      split at h
      next mid hfirst =>
        obtain ⟨hafter, hkept, hrows⟩ := ih (hstate.canonical hcanon hfirst) h
        refine ⟨hafter, fun row hrow => hkept row (isRow_of_canonical hcanon hfirst hrow), ?_⟩
        intro haccepted row hrow hname
        rcases List.mem_cons.mp hname with hthis | hlater
        · exact hkept row (isRow_of_accepted hcanon hstate hfirst hrow hthis)
        · exact hrows haccepted row hrow hlater
      next failed hfailed =>
        have hafter := hstate.canonical hcanon h
        refine ⟨hafter, fun row hrow => isRow_of_canonical hcanon h hrow, ?_⟩
        rintro rfl
        exact absurd h (hfailed after)

/-- After the whole loop has succeeded all canonical types are there. -/
theorem Prepared.allCanonical (hstate : Prepared typeName canon.platform state) {reply : Reply}
    (h : registerCanonicalTypeProtocols typeName canon state = (reply, after)) :
    Prepared typeName canon.platform after ∧
      (reply = .accepted → Told typeName canon.platform after.registrations) := by
  obtain ⟨hafter, -, hrows⟩ := hstate.names hcanon h
  refine ⟨hafter, fun haccepted => ?_⟩
  rcases hafter.told with hall | htold
  · exact .of_rows hall fun row hrow => hrows haccepted row hrow (mem_canonicalNames hrow)
  · exact htold

end Canonical

/-! ## Reflection -/

/-- What a successful attempt stored: the codec and the registration of the shape. -/
theorem attempt_adds {Codec : Type} {world : World Codec} {state after : State formatter Codec}
    {type : TypeId} (hfresh : state.registrations.lookup type = none)
    (h : attempt world state type = .registered after) :
    ∃ shape protocol,
      reflectShape world.typeName (registeredTypeCodec state) (world.probe type) = .ok shape ∧
      protocol.registration = normalize
        (shape.registration world.typeName type (reflectionIdentity (world.typeName type))) ∧
      protocol.codec = world.codec (shape.codec type) ∧
      Adds world.typeName state type protocol after := by
  unfold attempt at h
  split at h
  next => cases h
  next => cases h
  next protocol hmade =>
    obtain ⟨shape, hshape, hmade⟩ := Model.bind_eq_ok.mp hmade
    split at hmade
    next what hwhat => cases hmade
    next found hfound =>
      cases hmade
      obtain ⟨hprotocol, hcodec, -⟩ := make_eq_ok hfound
      split at h
      next registered hregistered =>
        cases h
        obtain ⟨same, codec, hsame, hstored, -, ⟨-, hpresent⟩ | hadds⟩ :=
          registerTypeProtocol_accepted hregistered
        · cases hsame
          rw [hfresh] at hpresent
          cases hpresent
        · cases hsame
          obtain rfl := Option.some.inj (hstored.symm.trans hcodec)
          exact ⟨shape, _, hshape, hprotocol, rfl, hadds⟩
      next => cases h
      next => cases h

section Reflection

variable {platform : Platform} {world : World ProtocolCodec} {pending : List TypeId}
  {state after : State formatter ProtocolCodec} (hworld : world.codec = reflectedCodec)

include hworld

/-- The step lemma of reflection. -/
theorem Told.attempt (h : Told world.typeName platform state.registrations) {type : TypeId}
    (hfresh : state.registrations.lookup type = none)
    (hattempt : attempt world state type = .registered after) :
    Told world.typeName platform after.registrations := by
  obtain ⟨shape, protocol, hshape, hprotocol, hcodec, hadds⟩ := attempt_adds hfresh hattempt
  apply h.adds hadds
  rw [hcodec, hworld]
  apply h.truthful.goesBy_reflected hshape fun name schema => published_of_adds hadds
  · rw [← hprotocol]
    exact hadds.valid
  · intro schema hread
    refine ⟨(type, protocol), hadds.mem_iff.mpr (.inl rfl), rfl, ?_⟩
    rw [hprotocol, readSchema_normalize]
    exact hread

/-- The run lemma of reflection. -/
theorem Told.registers (h : Told world.typeName platform state.registrations)
    (hregisters : Registers world pending state after) :
    Told world.typeName platform after.registrations := by
  induction hregisters with
  | refl => exact h
  | step _ _ hfresh hattempt ih => exact ih.attempt hworld hfresh hattempt

/-- Reflection adds truthful types, however it ends. -/
theorem Prepared.reflected (hstate : Prepared world.typeName platform state)
    (htold : Told world.typeName platform state.registrations) {types : List (Option TypeId)}
    (hafter : (registerReflectedTypeProtocols world state types).state? = some after) :
    Prepared world.typeName platform after ∧ Told world.typeName platform after.registrations := by
  obtain ⟨found, hfound, hregisters⟩ : ∃ found,
      (registerReflectedTypeProtocols world state types).state? = some found ∧
        Registers world (pendingTypes world state types) state found :=
    reflectLoop_registers (Nat.lt_succ_self _) (nodup_pendingTypes world state types)
      fun type htype => fresh_pendingTypes hstate.consistent htype
  obtain rfl : found = after := Option.some.inj (hfound.symm.trans hafter)
  have htrue := htold.registers hworld hregisters
  cases hfrozen : state.frozen with
  | true =>
      obtain rfl := hregisters.frozen hfrozen
      exact ⟨hstate, htold⟩
  | false =>
      have hreached := hregisters.reached hstate.consistent
      have hnone : found.catalog = none :=
        hreached.consistent.unfrozen (hreached.frozen.trans hfrozen)
      refine ⟨⟨hreached.consistent, .inr htrue, ?_⟩, htrue⟩
      intro catalog hcatalog
      exact absurd (hnone.symm.trans hcatalog) nofun

end Reflection

/-! ## Starting -/

section Starting

variable {typeName : TypeId → Bytes} {platform : Platform} {state after : State formatter ProtocolCodec}

theorem Consistent.of_freeze {exhausted : Bool} {reply : FreezeReply ProtocolCodec}
    (hstate : Consistent typeName state)
    (h : freezeTypeCatalog typeName state exhausted = (reply, after)) : Consistent typeName after := by
  have hafter : (Registry.call typeName state (.freeze exhausted)).2 = after := congrArg Prod.snd h
  rw [← hafter]
  exact hstate.call (.freeze exhausted)

/-- A freeze keeps a catalog only of truthful types. -/
theorem Prepared.freeze (hstate : Prepared typeName platform state)
    (htold : state.frozen = false → Told typeName platform state.registrations) {exhausted : Bool}
    {reply : FreezeReply ProtocolCodec}
    (h : freezeTypeCatalog typeName state exhausted = (reply, after)) :
    Prepared typeName platform after ∧
      ∀ catalog error, reply = .returned (some catalog) error → after.catalog = some catalog := by
  have hconsistent := hstate.consistent.of_freeze h
  rcases freezeTypeCatalog_cases h with ⟨hfrozen, rfl, hreply⟩ |
    ⟨hopen, hfrozen, hentries, -, hend⟩
  · refine ⟨hstate, ?_⟩
    rintro catalog error rfl
    exact (FreezeReply.returned.inj hreply).1.symm
  · have htrue := htold hopen
    rw [← hentries] at htrue
    have hnone := hstate.consistent.unfrozen hopen
    have hkept : ∀ catalog, after.catalog = some catalog →
        catalog = stagedCatalog typeName after.registrations := by
      intro catalog hcatalog
      rcases hend with ⟨-, hsame, -⟩ | ⟨-, hsame⟩ | ⟨-, hstaged⟩
      · exact absurd (hnone.symm.trans (hsame.symm.trans hcatalog)) nofun
      · exact absurd (hnone.symm.trans (hsame.symm.trans hcatalog)) nofun
      · rw [hentries]
        exact (Option.some.inj (hstaged.symm.trans hcatalog)).symm
    refine ⟨⟨hconsistent, .inr htrue, fun catalog hcatalog => ⟨hfrozen, hkept catalog hcatalog, htrue⟩⟩,
      ?_⟩
    rintro catalog error rfl
    rcases hend with ⟨hreply, -⟩ | ⟨hreply, -⟩ | ⟨hreply, hstaged⟩
    · cases hreply
    · cases hreply
    · rw [hstaged, (FreezeReply.returned.inj hreply).1]

/-- The step lemma of a start. -/
theorem Prepared.start (hstate : Prepared typeName platform state) {surroundings : Surroundings}
    {reply : CatalogReply} (h : startCatalog typeName platform state surroundings = (reply, after)) :
    Prepared typeName platform after ∧
      ∀ catalog diagnostics, reply = .made catalog diagnostics → after.catalog = some catalog := by
  have hfreeze : ∀ {mid next : State formatter ProtocolCodec} {freezeReply diagnostics},
      Prepared typeName platform mid →
      (mid.frozen = false → Told typeName platform mid.registrations) →
      freezeTypeCatalog typeName mid surroundings.exhausted = (freezeReply, next) →
      Prepared typeName platform next ∧ ∀ catalog noted,
        CatalogReply.ofFreeze diagnostics freezeReply = .made catalog noted →
        next.catalog = some catalog := by
    intro mid next freezeReply diagnostics hmid htold hresult
    obtain ⟨hnext, hcatalog⟩ := hmid.freeze htold hresult
    refine ⟨hnext, fun catalog noted hmade => ?_⟩
    cases freezeReply with
    | threw => cases hmade
    | returned found error =>
        cases found with
        | none => cases hmade
        | some found =>
            cases hmade
            exact hcatalog _ error rfl
  unfold startCatalog at h
  split at h
  next hfrozen =>
    cases h
    exact hfreeze hstate (fun hopen => absurd (hfrozen.symm.trans hopen) nofun) rfl
  next hopen =>
    split at h
    next error mid hcanonical =>
      cases h
      exact ⟨(hstate.allCanonical rfl hcanonical).1, fun _ _ hmade => nomatch hmade⟩
    next mid hcanonical =>
      cases h
      exact ⟨(hstate.allCanonical rfl hcanonical).1, fun _ _ hmade => nomatch hmade⟩
    next mid hcanonical =>
      obtain ⟨hmid, htold⟩ := hstate.allCanonical rfl hcanonical
      have hreflected : ∀ found, (registerReflectedTypeProtocols (surroundings.world typeName) mid
          surroundings.types).state? = some found → Prepared typeName platform found ∧
            Told typeName platform found.registrations :=
        fun found => Prepared.reflected rfl hmid (htold rfl)
      split at h
      next found diagnostics houtcome =>
        cases h
        obtain ⟨hfound, htrue⟩ := hreflected found (by rw [houtcome]; rfl)
        exact hfreeze hfound (fun _ => htrue) rfl
      next found houtcome =>
        cases h
        exact ⟨(hreflected after (by rw [houtcome]; rfl)).1, fun _ _ hmade => nomatch hmade⟩
      next =>
        cases h
        exact ⟨hmid, fun _ _ hmade => nomatch hmade⟩

theorem prepared_of_run {slots : TypeId → Option (Occupant formatter ProtocolCodec)}
    {events : List Event}
    (hrun : Machine.run (startup typeName platform) { slots := slots } events = some state) :
    Prepared typeName platform state := by
  have hstep : ∀ (before : State formatter ProtocolCodec) event next,
      Prepared typeName platform before → startup typeName platform before event = some next →
      Prepared typeName platform next := by
    intro before event next hbefore hnext
    cases event with
    | transport name type surroundings =>
        cases hnext
        have hcanon : Prepared typeName (surroundings.canon platform).platform before := hbefore
        exact hcanon.canonical rfl rfl
    | start surroundings =>
        cases hnext
        exact (hbefore.start rfl).1
  have hinitial : Prepared typeName platform
      ({ slots := slots } : State formatter ProtocolCodec) :=
    ⟨Consistent.initial typeName slots, .inl (by simp), by simp⟩
  exact Machine.run_invariant hstep hinitial hrun

end Starting

/-! ## Catalogs -/

/-- The schemas that a catalog has, as clients read them. -/
def catalogSchemas (catalog : TypeCatalog ProtocolCodec) (name : Bytes) (schema : Schema Bytes) :
    Prop :=
  ∃ binding, catalog.findName name = some binding ∧
    readSchema binding.registration.descriptor = some schema

/-- A codec that reads the JSON values of a type and no others, and writes only these. -/
structure Speaks (schemas : Bytes → Schema Bytes → Prop) (name : Bytes) (codec : TypeCodec) :
    Prop where
  published : ∃ schema, schemas name schema
  reads : ∀ json context, (makeDataSource codec json context).status = .converted →
    Conforms schemas name json
  /-- All that conforms is read, unless the limits of the context are too tight. -/
  complete : ∀ json, Conforms schemas name json → Json.Short intMax json → ∀ context,
    (makeDataSource codec json context).status = .converted ∨
      RanOut context (readCost codec json) (readNesting codec json)
        (makeDataSource codec json context)
  writes : ∀ value result context,
    (toJson codec value result context).status = .converted →
    Conforms schemas name (toJson codec value result context).output

theorem unambiguous_catalogSchemas (catalog : TypeCatalog ProtocolCodec) :
    Unambiguous (catalogSchemas catalog) := by
  rintro name first second ⟨binding, hbinding, hfirst⟩ ⟨same, hsame, hsecond⟩
  obtain rfl : binding = same := Option.some.inj (hbinding.symm.trans hsame)
  exact Option.some.inj (hfirst.symm.trans hsecond)

section Catalogs

variable {schemas : Bytes → Schema Bytes → Prop} {name : Bytes}

theorem exists_schema_of_described {codec : TypeCodec} (h : codec.Described schemas name) :
    ∃ schema, schemas name schema := by
  cases codec with
  | typed code =>
      cases code with
      | bool | int | float | string => exact ⟨_, h⟩
      | enum =>
          obtain ⟨underlying, hname, -⟩ := h
          exact ⟨_, hname⟩
      | vector | array =>
          obtain ⟨item, hname, -⟩ := h
          exact ⟨_, hname⟩
  | record =>
      obtain ⟨fields, hname, -⟩ := h
      exact ⟨_, hname⟩
  | sequence =>
      obtain ⟨item, hname, -⟩ := h
      exact ⟨_, hname⟩

/-- A codec that goes by the schemas speaks for its type. -/
theorem speaks_of_described (hunique : Unambiguous schemas) {codec : TypeCodec}
    (h : codec.Described schemas name) : Speaks schemas name codec where
  published := exists_schema_of_described h
  reads := by
    intro json context hconverted
    obtain ⟨value, -, haccepted⟩ := Codec.makeDataSource_output hconverted
    exact Codec.conforms_of_accepted hunique h (by rw [haccepted]; rfl)
  complete := by
    intro json hconforms hshort context
    obtain ⟨value, haccepted⟩ :=
      Option.isSome_iff_exists.mp (Codec.accepted_of_conforms hunique h hshort hconforms)
    have hends := Codec.makeDataSource_ends codec json context
    rw [haccepted, Option.map_some] at hends
    rcases hends.of_some with ⟨hconverted, -⟩ | hlimit
    · exact .inl hconverted
    · exact .inr hlimit
  writes := by
    intro value result context hconverted
    have hwritten := ((Codec.toJson_ends codec value result context).of_converted hconverted).1
    exact Codec.conforms_of_written h hwritten

variable {typeName : TypeId → Bytes} {platform : Platform} {state after : State formatter ProtocolCodec}

end Catalogs

/-! ### A structure of two fields -/

def deskPlatform : Platform := ⟨false, true⟩

def deskName (type : TypeId) : Bytes :=
  bytes (((canonicalNames deskPlatform)[type]?).getD "Sample")

def deskProbe : Probe where
  memberFactory := .ok true
  buildValue := .ok (some true)
  element := .ok none
  size := .ok none
  resize := .ok false
  sizeAgain := .ok 0
  memberNames := .ok [bytes "x", bytes "valid"]
  member name := .ok (some ⟨some (if name = bytes "x" then 11 else 0), true⟩)

def deskSurroundings : Surroundings where
  type name := (canonicalNames deskPlatform).findIdx? (· = name)
  allocate name := (canonicalNames deskPlatform).idxOf name
  addProtocol _ := .stored
  types := [some 20]
  probe _ := deskProbe
  allocateReflected type := type
  addReflected _ := .stored
  exhausted := false

/-- The registry after the plugin has got one type. -/
def deskState : State plainFormatter ProtocolCodec :=
  (registerTransport deskName deskPlatform { slots := fun _ => none } "Float64Array" (some 13)
    deskSurroundings).2

theorem distinctNames_of_nodup {typeName : TypeId → Bytes} {state : State formatter ProtocolCodec}
    (h : (state.registrations.map fun entry => typeName entry.1).Nodup) :
    DistinctNames typeName state := by
  intro first hfirst second hsecond hequal
  obtain ⟨one, hone⟩ := Option.isSome_iff_exists.mp (show (List.lookup first _).isSome from hfirst)
  obtain ⟨two, htwo⟩ := Option.isSome_iff_exists.mp (show (List.lookup second _).isSome from hsecond)
  have hmem : ∀ {type protocol}, state.registrations.lookup type = some protocol →
      (type, protocol) ∈ state.registrations := by
    intro type protocol hfound
    obtain ⟨before, rest, hsplit, -⟩ := List.lookup_eq_some_iff.mp hfound
    rw [hsplit]
    simp
  have hsame := List.inj_on_of_nodup_map h (hmem hone) (hmem htwo) hequal
  exact congrArg Prod.fst hsame

end RttHttp.Registry
