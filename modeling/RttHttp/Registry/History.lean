import RttHttp.Machine.Run
import RttHttp.Registry.Machine

/-! # Histories of the registry

The calls of the registration API in any order, from the empty registry. What
occupied the slots before the first call is not restricted.
-/

namespace RttHttp.Registry

open Model (TypeRegistration)

variable {formatter : Formatter} {Codec : Type}

inductive Call (formatter : Formatter) (Codec : Type) where
  | register (type : Option TypeId) (protocol : Option (TypeProtocol formatter (Option Codec)))
      (outcome : AddOutcome)
  | codec (type : Option TypeId)
  | freeze (exhausted : Bool)

inductive Response (Codec : Type) where
  | registered (reply : Reply)
  | codec (codec : Option Codec)
  | frozen (reply : FreezeReply Codec)

variable (typeName : TypeId → Bytes)

def call (state : State formatter Codec) :
    Call formatter Codec → Response Codec × State formatter Codec
  | .register type protocol outcome =>
      let (reply, state) := registerTypeProtocol typeName state type protocol outcome
      (.registered reply, state)
  | .codec type => (.codec (registeredTypeCodec state type), state)
  | .freeze exhausted =>
      let (reply, state) := freezeTypeCatalog typeName state exhausted
      (.frozen reply, state)

/-- Every call is possible in every state. -/
def step (state : State formatter Codec) (action : Call formatter Codec) :
    Option (State formatter Codec) :=
  some (call typeName state action).2

/-! ## What one call does -/

/-- The state after a type was added. -/
def State.added (state : State formatter Codec) (type : TypeId)
    (protocol : TypeProtocol formatter Codec) : State formatter Codec :=
  { state with
    registrations := OrderedMap.emplace addressLt state.registrations type protocol
    slots := Function.update state.slots type (some (.protocol protocol)) }

section Step

variable {typeName} {state : State formatter Codec}

/-- A registration that adds a type: the type and its protocol. -/
structure Adds (typeName : TypeId → Bytes) (state : State formatter Codec) (type : TypeId)
    (protocol : TypeProtocol formatter Codec) (after : State formatter Codec) : Prop where
  name : protocol.registration.rttType = typeName type
  valid : validateRegistration protocol.registration = .ok ()
  unfrozen : state.frozen = false
  fresh : state.registrations.lookup type = none
  free : state.slots type = none
  after_eq : after = state.added type protocol

theorem registerFree_cases {type : TypeId} {protocol : TypeProtocol formatter Codec}
    {outcome : AddOutcome} {reply : Reply} {after : State formatter Codec}
    (h : registerFree typeName state type protocol outcome = (reply, after)) :
    (reply ≠ .accepted ∧ after = state) ∨
    (reply = .accepted ∧ state.frozen = false ∧ state.registrations.lookup type = none ∧
      outcome = .stored ∧ after = state.added type protocol) := by
  unfold registerFree at h
  split at h
  next =>
    cases h
    exact .inl ⟨by simp, rfl⟩
  next hopen =>
    split at h
    next =>
      cases h
      exact .inl ⟨by simp, rfl⟩
    next hfresh =>
      cases outcome with
      | stored =>
          cases h
          exact .inr ⟨rfl, by simpa using hopen, Option.not_isSome_iff_eq_none.mp hfresh, rfl, rfl⟩
      | rejected =>
          cases h
          exact .inl ⟨by simp, rfl⟩
      | threw =>
          cases h
          exact .inl ⟨by simp, rfl⟩

/-- A registration adds one type, or it leaves everything as it was. -/
theorem registerTypeProtocol_cases {type : Option TypeId}
    {protocol : Option (TypeProtocol formatter (Option Codec))} {outcome : AddOutcome}
    {reply : Reply} {after : State formatter Codec}
    (h : registerTypeProtocol typeName state type protocol outcome = (reply, after)) :
    after = state ∨ (reply = .accepted ∧ ∃ added stored, Adds typeName state added stored after) := by
  unfold registerTypeProtocol at h
  split at h
  next type protocol =>
    split at h
    next =>
      cases h
      exact .inl rfl
    next codec hcodec =>
      split at h
      next =>
        cases h
        exact .inl rfl
      next hname =>
        split at h
        next =>
          cases h
          exact .inl rfl
        next hvalid =>
          split at h
          next =>
            cases h
            exact .inl rfl
          next hfree =>
            rcases registerFree_cases h with ⟨-, hafter⟩ | ⟨hreply, hopen, hfresh, -, hafter⟩
            · exact .inl hafter
            · refine .inr ⟨hreply, type, protocol.withCodec codec, ?_⟩
              exact ⟨(not_not.mp hname).symm, hvalid, hopen, hfresh, hfree, hafter⟩
  next =>
    cases h
    exact .inl rfl

/-- An accepted registration stored the codec of its protocol, or its type had an entry. -/
theorem registerTypeProtocol_accepted {type : Option TypeId}
    {protocol : TypeProtocol formatter (Option Codec)} {outcome : AddOutcome}
    {after : State formatter Codec}
    (h : registerTypeProtocol typeName state type (some protocol) outcome = (.accepted, after)) :
    ∃ found codec, type = some found ∧ protocol.codec = some codec ∧
      typeName found = protocol.registration.rttType ∧
      (after = state ∧ (state.registrations.lookup found).isSome ∨
        Adds typeName state found (protocol.withCodec codec) after) := by
  unfold registerTypeProtocol at h
  split at h
  next found given hgiven =>
    cases hgiven
    split at h
    next => cases h
    next codec hcodec =>
      split at h
      next => cases h
      next hname =>
        refine ⟨found, codec, rfl, hcodec, not_not.mp hname, ?_⟩
        split at h
        next => cases h
        next hvalid =>
          split at h
          next occupant hslot =>
            left
            obtain ⟨htaken, rfl⟩ := Prod.mk.inj h
            unfold registerTaken at htaken
            split at htaken
            next known hknown => exact ⟨rfl, by simp [hknown]⟩
            next => cases htaken
          next hfree =>
            right
            rcases registerFree_cases h with ⟨hrefused, -⟩ | ⟨-, hopen, hfresh, -, hafter⟩
            · exact absurd rfl hrefused
            · exact ⟨(not_not.mp hname).symm, hvalid, hopen, hfresh, hfree, hafter⟩
  next => cases h

/-- A valid registration of a free type gets as far as RTT. -/
theorem registerTypeProtocol_free {type : TypeId}
    {protocol : TypeProtocol formatter (Option Codec)} {codec : Codec} (outcome : AddOutcome)
    (hcodec : protocol.codec = some codec) (hname : typeName type = protocol.registration.rttType)
    (hvalid : validateRegistration protocol.registration = .ok ())
    (hfree : state.slots type = none) :
    registerTypeProtocol typeName state (some type) (some protocol) outcome =
      registerFree typeName state type (protocol.withCodec codec) outcome := by
  simp [registerTypeProtocol, hcodec, hname, hvalid, hfree]

theorem registerFree_stored {type : TypeId} {protocol : TypeProtocol formatter Codec}
    (hopen : state.frozen = false) (hfresh : state.registrations.lookup type = none) :
    registerFree typeName state type protocol .stored =
      (.accepted, state.added type protocol) := by
  simp [registerFree, hopen, hfresh, State.added]

/-- A run that begins with a valid registration that RTT takes. -/
theorem run_stored {type : TypeId} {protocol : TypeProtocol formatter (Option Codec)}
    {codec : Codec} (hcodec : protocol.codec = some codec)
    (hname : typeName type = protocol.registration.rttType)
    (hvalid : validateRegistration protocol.registration = .ok ())
    (hfree : state.slots type = none) (hopen : state.frozen = false)
    (hfresh : state.registrations.lookup type = none) (rest : List (Call formatter Codec)) :
    Machine.run (step typeName) state (.register (some type) (some protocol) .stored :: rest) =
      Machine.run (step typeName) (state.added type (protocol.withCodec codec)) rest := by
  have hregister : registerTypeProtocol typeName state (some type) (some protocol) .stored =
      (.accepted, state.added type (protocol.withCodec codec)) := by
    rw [registerTypeProtocol_free .stored hcodec hname hvalid hfree]
    exact registerFree_stored hopen hfresh
  simp only [Machine.run_cons, step, call, hregister, Option.bind_some]

/-- Freezing touches neither the entries nor the slots, and it happens once. -/
theorem freezeTypeCatalog_cases {exhausted : Bool} {reply : FreezeReply Codec}
    {after : State formatter Codec}
    (h : freezeTypeCatalog typeName state exhausted = (reply, after)) :
    (state.frozen = true ∧ after = state ∧ reply = .returned state.catalog state.freezeError) ∨
    (state.frozen = false ∧ after.frozen = true ∧ after.registrations = state.registrations ∧
      after.slots = state.slots ∧
      ((reply = .threw ∧ after.catalog = state.catalog ∧ after.freezeError = notFrozen) ∨
        (reply = .returned none after.freezeError ∧ after.catalog = state.catalog) ∨
        (reply = .returned (some (stagedCatalog typeName state.registrations)) after.freezeError ∧
          after.catalog = some (stagedCatalog typeName state.registrations)))) := by
  unfold freezeTypeCatalog at h
  split at h
  next hfrozen =>
    cases h
    exact .inl ⟨hfrozen, rfl, rfl⟩
  next hopen =>
    refine .inr ⟨by simpa using hopen, ?_⟩
    split at h
    next =>
      cases h
      exact ⟨rfl, rfl, rfl, .inl ⟨rfl, rfl, rfl⟩⟩
    next =>
      split at h
      next =>
        unfold freezeStaged at h
        split at h
        next =>
          cases h
          exact ⟨rfl, rfl, rfl, .inr (.inr ⟨rfl, rfl⟩)⟩
        next =>
          split at h
          next =>
            cases h
            exact ⟨rfl, rfl, rfl, .inr (.inl ⟨rfl, rfl⟩)⟩
          next =>
            cases h
            exact ⟨rfl, rfl, rfl, .inl ⟨rfl, rfl, rfl⟩⟩
      next =>
        cases h
        exact ⟨rfl, rfl, rfl, .inr (.inl ⟨rfl, rfl⟩)⟩

end Step

/-! ## The invariant of all histories -/

/-- The registry and the slots agree. -/
structure Consistent (typeName : TypeId → Bytes) (state : State formatter Codec) : Prop where
  kept : ∀ type protocol, state.registrations.lookup type = some protocol →
    state.slots type = some (.protocol protocol)
  named : ∀ type protocol, state.registrations.lookup type = some protocol →
    protocol.registration.rttType = typeName type
  valid : ∀ type protocol, state.registrations.lookup type = some protocol →
    validateRegistration protocol.registration = .ok ()
  distinct : (state.registrations.map Prod.fst).Nodup
  unfrozen : state.frozen = false → state.catalog = none

theorem Consistent.initial (slots : TypeId → Option (Occupant formatter Codec)) :
    Consistent typeName { slots := slots } where
  kept := by simp
  named := by simp
  valid := by simp
  distinct := by simp
  unfrozen := fun _ => rfl

/-- What may happen to a state later on: types are added until it is frozen. -/
structure Later (state later : State formatter Codec) : Prop where
  entries : ∀ type protocol, state.registrations.lookup type = some protocol →
    later.registrations.lookup type = some protocol
  frozen : state.frozen = true → later = state

theorem Later.refl (state : State formatter Codec) : Later state state :=
  ⟨fun _ _ h => h, fun _ => rfl⟩

section Invariant

variable {typeName} {state after : State formatter Codec}

theorem Adds.lookup {type : TypeId} {protocol : TypeProtocol formatter Codec}
    (h : Adds typeName state type protocol after) (other : TypeId) :
    after.registrations.lookup other =
      if other = type then some protocol else state.registrations.lookup other := by
  rw [h.after_eq]
  split
  next heq => rw [heq, State.added, OrderedMap.lookup_emplace_self, h.fresh, Option.getD_none]
  next hne => exact OrderedMap.lookup_emplace_ne hne

theorem Adds.consistent {type : TypeId} {protocol : TypeProtocol formatter Codec}
    (h : Adds typeName state type protocol after) (hstate : Consistent typeName state) :
    Consistent typeName after where
  kept := by
    intro other found hfound
    rw [h.lookup] at hfound
    rw [h.after_eq]
    split at hfound
    next heq =>
      cases hfound
      rw [heq]
      exact Function.update_self ..
    next hne => exact (Function.update_of_ne hne ..).trans (hstate.kept other found hfound)
  named := by
    intro other found hfound
    rw [h.lookup] at hfound
    split at hfound
    next heq =>
      cases hfound
      rw [heq, h.name]
    next => exact hstate.named other found hfound
  valid := by
    intro other found hfound
    rw [h.lookup] at hfound
    split at hfound
    next =>
      cases hfound
      exact h.valid
    next => exact hstate.valid other found hfound
  distinct := by
    rw [h.after_eq]
    exact OrderedMap.nodup_keys_emplace hstate.distinct
  unfrozen := by
    rw [h.after_eq]
    exact hstate.unfrozen

theorem Adds.later {type : TypeId} {protocol : TypeProtocol formatter Codec}
    (h : Adds typeName state type protocol after) : Later state after where
  entries := by
    intro other found hfound
    rw [h.lookup, if_neg, hfound]
    intro heq
    rw [heq, h.fresh] at hfound
    cases hfound
  frozen := by
    intro hfrozen
    rw [h.unfrozen] at hfrozen
    cases hfrozen

/-- The step lemma: a call adds one type, freezes, or changes nothing. -/
theorem call_cases (action : Call formatter Codec) :
    (call typeName state action).2 = state ∨
    ((call typeName state action).1 = .registered .accepted ∧
      ∃ type protocol, Adds typeName state type protocol (call typeName state action).2) ∨
    (state.frozen = false ∧ (call typeName state action).2.frozen = true ∧
      (call typeName state action).2.registrations = state.registrations ∧
      (call typeName state action).2.slots = state.slots) := by
  cases action with
  | register type protocol outcome =>
      rcases registerTypeProtocol_cases
        (Prod.mk.eta (p := registerTypeProtocol typeName state type protocol outcome)).symm with
        hsame | ⟨hreply, hadds⟩
      · exact .inl hsame
      · exact .inr (.inl ⟨congrArg Response.registered hreply, hadds⟩)
  | codec type => exact .inl rfl
  | freeze exhausted =>
      rcases freezeTypeCatalog_cases
        (Prod.mk.eta (p := freezeTypeCatalog typeName state exhausted)).symm with
        ⟨-, hsame, -⟩ | ⟨hopen, hfrozen, hentries, hslots, -⟩
      · exact .inl hsame
      · exact .inr (.inr ⟨hopen, hfrozen, hentries, hslots⟩)

theorem Consistent.call (h : Consistent typeName state) (action : Call formatter Codec) :
    Consistent typeName (call typeName state action).2 := by
  rcases call_cases action with hsame | ⟨-, type, protocol, hadds⟩ |
    ⟨-, hfrozen, hentries, hslots⟩
  · rwa [hsame]
  · exact hadds.consistent h
  · refine ⟨?_, ?_, ?_, ?_, ?_⟩
    · rw [hentries, hslots]
      exact h.kept
    · rw [hentries]
      exact h.named
    · rw [hentries]
      exact h.valid
    · rw [hentries]
      exact h.distinct
    · rw [hfrozen]
      exact fun hopen => nomatch hopen

theorem Later.call {earlier : State formatter Codec} (h : Later earlier state)
    (action : Call formatter Codec) : Later earlier (call typeName state action).2 := by
  rcases call_cases action with hsame | ⟨-, type, protocol, hadds⟩ |
    ⟨hopen, -, hentries, -⟩
  · rwa [hsame]
  · refine ⟨fun other found hfound => hadds.later.entries other found (h.entries other found hfound),
      ?_⟩
    intro hfrozen
    rw [h.frozen hfrozen] at hadds
    exact h.frozen hfrozen ▸ hadds.later.frozen hfrozen
  · refine ⟨?_, ?_⟩
    · rw [hentries]
      exact h.entries
    · intro hfrozen
      rw [h.frozen hfrozen, hfrozen] at hopen
      cases hopen

/-- The run lemma: a consistent registry stays consistent and only grows. -/
theorem Consistent.run (h : Consistent typeName state) {calls : List (Call formatter Codec)}
    {final : State formatter Codec} (hrun : Machine.run (step typeName) state calls = some final) :
    Consistent typeName final ∧ Later state final := by
  have hstep : ∀ mid action next, Consistent typeName mid ∧ Later state mid →
      step typeName mid action = some next → Consistent typeName next ∧ Later state next := by
    intro mid action next hmid hnext
    cases hnext
    exact ⟨hmid.1.call action, hmid.2.call action⟩
  exact Machine.run_invariant hstep ⟨h, .refl state⟩ hrun

/-- A registered type is found through its slot. -/
theorem Consistent.registeredTypeCodec (h : Consistent typeName state) {type : TypeId}
    {protocol : TypeProtocol formatter Codec}
    (hknown : state.registrations.lookup type = some protocol) :
    registeredTypeCodec state (some type) = some protocol.codec := by
  simp [Registry.registeredTypeCodec, hknown, h.kept type protocol hknown]

/-- A registered type meets its own slot again. -/
theorem registerTaken_known {type : TypeId}
    {known protocol : TypeProtocol formatter Codec}
    (hknown : state.registrations.lookup type = some known) :
    registerTaken typeName state type (.protocol known) protocol =
      if known.fingerprint = protocol.fingerprint then .accepted
      else .refused (bytes "conflicting HTTP type protocol registration: " ++ typeName type) := by
  simp [Registry.registerTaken, hknown]

theorem Consistent.register_equal (h : Consistent typeName state) {type : TypeId}
    {known : TypeProtocol formatter Codec} {protocol : TypeProtocol formatter (Option Codec)}
    (outcome : AddOutcome) (hknown : state.registrations.lookup type = some known)
    (hcodec : protocol.codec ≠ none) (hvalid : validateRegistration protocol.registration = .ok ())
    (hequal : protocol.fingerprint = known.fingerprint) :
    registerTypeProtocol typeName state (some type) (some protocol) outcome = (.accepted, state) := by
  obtain ⟨codec, hcodec⟩ := Option.ne_none_iff_exists'.mp hcodec
  -- An equal fingerprint means the same type name, so the first check passes too.
  have hname : protocol.registration.rttType = known.registration.rttType :=
    rttType_eq_of_fingerprint (hequal ▸ protocol.fingerprint_eq) known.fingerprint_eq
  have hself : typeName type = protocol.registration.rttType := by
    rw [hname, h.named type known hknown]
  have htaken : Registry.registerTaken typeName state type (.protocol known)
      (protocol.withCodec codec) = .accepted := by
    rw [registerTaken_known hknown, if_pos]
    exact hequal.symm
  simp [registerTypeProtocol, hcodec, hself, hvalid, h.kept type known hknown, htaken]

theorem Consistent.register_other (h : Consistent typeName state) {type : TypeId}
    {known : TypeProtocol formatter Codec} {protocol : TypeProtocol formatter (Option Codec)}
    (outcome : AddOutcome) (hknown : state.registrations.lookup type = some known)
    (hother : protocol.fingerprint ≠ known.fingerprint) :
    ∃ error, registerTypeProtocol typeName state (some type) (some protocol) outcome =
      (.refused error, state) := by
  unfold registerTypeProtocol
  dsimp only
  split
  next => exact ⟨_, rfl⟩
  next codec _ =>
    split
    next => exact ⟨_, rfl⟩
    next =>
      split
      next => exact ⟨_, rfl⟩
      next =>
        rw [h.kept type known hknown]
        dsimp only
        rw [registerTaken_known hknown, if_neg (fun heq => hother heq.symm)]
        exact ⟨_, rfl⟩

/-- What a freeze answers to the next freeze. -/
def FreezeReply.repeated : FreezeReply Codec → FreezeReply Codec
  | .returned catalog error => .returned catalog error
  | .threw => .returned none notFrozen

/-- A freeze leaves its own answer behind. -/
theorem Consistent.freeze_repeated (h : Consistent typeName state) (exhausted again : Bool) :
    freezeTypeCatalog typeName (freezeTypeCatalog typeName state exhausted).2 again =
      ((freezeTypeCatalog typeName state exhausted).1.repeated,
        (freezeTypeCatalog typeName state exhausted).2) := by
  generalize hfreeze : freezeTypeCatalog typeName state exhausted = result
  obtain ⟨reply, after⟩ := result
  have hfrozen : after.frozen = true → freezeTypeCatalog typeName after again =
      (.returned after.catalog after.freezeError, after) := fun hafter => if_pos hafter
  rcases freezeTypeCatalog_cases hfreeze with ⟨hstate, rfl, rfl⟩ | ⟨hopen, hafter, -, -, hreply⟩
  · exact hfrozen hstate
  · rw [hfrozen hafter]
    rcases hreply with ⟨rfl, hcatalog, herror⟩ | ⟨rfl, hcatalog⟩ | ⟨rfl, hcatalog⟩
    · rw [hcatalog, herror, h.unfrozen hopen]
      rfl
    · rw [hcatalog, h.unfrozen hopen]
      rfl
    · rw [hcatalog]
      rfl

end Invariant

/-! ## Every history -/

variable {typeName}

/-- What holds after any sequence of calls, and whatever is called next. -/
theorem registry_history {slots : TypeId → Option (Occupant formatter Codec)}
    {calls : List (Call formatter Codec)} {state : State formatter Codec}
    (hrun : Machine.run (step typeName) { slots := slots } calls = some state) :
    -- every entry is in its slot
    (∀ type protocol, state.registrations.lookup type = some protocol →
      state.slots type = some (.protocol protocol)) ∧
    -- the first registration wins, and a freeze is final
    (∀ more later, Machine.run (step typeName) state more = some later →
      (∀ type protocol, state.registrations.lookup type = some protocol →
        later.registrations.lookup type = some protocol ∧
        registeredTypeCodec later (some type) = some protocol.codec) ∧
      (state.frozen = true → later.frozen = true ∧ later.registrations = state.registrations)) ∧
    -- registering again
    (∀ type known protocol outcome, state.registrations.lookup type = some known →
      (protocol.codec ≠ none → validateRegistration protocol.registration = .ok () →
        protocol.fingerprint = known.fingerprint →
        registerTypeProtocol typeName state (some type) (some protocol) outcome =
          (.accepted, state)) ∧
      (protocol.fingerprint ≠ known.fingerprint → ∃ error,
        registerTypeProtocol typeName state (some type) (some protocol) outcome =
          (.refused error, state))) ∧
    -- a call that fails changes neither side
    (∀ action, (call typeName state action).1 ≠ .registered .accepted →
      (call typeName state action).2.registrations = state.registrations ∧
      (call typeName state action).2.slots = state.slots) ∧
    -- every later freeze repeats the first one
    (∀ exhausted more later,
      Machine.run (step typeName) (freezeTypeCatalog typeName state exhausted).2 more = some later →
      ∀ again, freezeTypeCatalog typeName later again =
        ((freezeTypeCatalog typeName state exhausted).1.repeated, later)) := by
  obtain ⟨hstate, -⟩ := (Consistent.initial typeName slots).run hrun
  refine ⟨hstate.kept, ?_, ?_, ?_, ?_⟩
  · intro more later hmore
    obtain ⟨hconsistent, hlater⟩ := hstate.run hmore
    refine ⟨?_, ?_⟩
    · intro type protocol hknown
      have hfound := hlater.entries type protocol hknown
      exact ⟨hfound, hconsistent.registeredTypeCodec hfound⟩
    · intro hfrozen
      rw [hlater.frozen hfrozen]
      exact ⟨hfrozen, rfl⟩
  · intro type known protocol outcome hknown
    exact ⟨hstate.register_equal outcome hknown, hstate.register_other outcome hknown⟩
  · intro action hfailed
    rcases call_cases action with hsame | ⟨haccepted, -⟩ | ⟨-, -, hentries, hslots⟩
    · rw [hsame]
      exact ⟨rfl, rfl⟩
    · exact absurd haccepted hfailed
    · exact ⟨hentries, hslots⟩
  · intro exhausted more later hmore again
    have hfrozen : (freezeTypeCatalog typeName state exhausted).2.frozen = true := by
      rcases freezeTypeCatalog_cases
        (Prod.mk.eta (p := freezeTypeCatalog typeName state exhausted)).symm with
        ⟨hfrozen, hsame, -⟩ | ⟨-, hfrozen, -⟩
      · rw [hsame, hfrozen]
      · exact hfrozen
    obtain ⟨-, hlater⟩ := (hstate.call (.freeze exhausted)).run hmore
    rw [hlater.frozen hfrozen]
    exact hstate.freeze_repeated exhausted again

def plainFormatter : Formatter := ⟨fun _ => bytes "0", fun _ => none⟩

def boolRegistration : TypeRegistration where
  providerId := bytes "orocos.rtt.http"
  providerVersion := bytes "1"
  codecId := bytes "Bool"
  codecVersion := bytes "1"
  rttType := bytes "Bool"
  descriptor := [(bytes "kind", .string (bytes "boolean"))]
  dependencies := []

def boolProtocol : TypeProtocol plainFormatter (Option Unit) where
  address := 7
  registration := normalize boolRegistration
  codec := some ()
  fingerprint := serialize plainFormatter.double (identity (normalize boolRegistration))
  fingerprint_eq := by decide +kernel

/-- A history that registers one type. -/
def boolHistory : List (Call plainFormatter Unit) :=
  [.register (some 1) (some (boolProtocol.withCodec (some ()))) .stored]

theorem boolProtocol_valid : validateRegistration boolProtocol.registration = .ok () := by
  decide +kernel

/-- RTT did not take the type at once. -/
def retriedHistory : List (Call plainFormatter Unit) :=
  .register (some 1) (some boolProtocol) .threw :: boolHistory

/-- The registration of another object. -/
def boolTwin : TypeProtocol plainFormatter (Option Unit) := { boolProtocol with address := 8 }

/-- A later version of the codec. -/
def boolSuccessor : TypeProtocol plainFormatter (Option Unit) where
  address := 9
  registration := normalize { boolRegistration with codecVersion := bytes "2" }
  codec := some ()
  fingerprint := serialize plainFormatter.double
    (identity (normalize { boolRegistration with codecVersion := bytes "2" }))
  fingerprint_eq := by decide +kernel

/-- What is tried after the freeze. -/
def frozenCalls : List (Call plainFormatter Unit) :=
  [.register (some 1) (some boolTwin) .stored, .register (some 1) (some boolSuccessor) .stored,
    .codec (some 1), .register (some 2) (some boolProtocol) .stored, .freeze false]

theorem boolSuccessor_fingerprint_ne :
    boolSuccessor.fingerprint ≠ (boolProtocol.withCodec ()).fingerprint := by
  decide +kernel

theorem retriedHistory_run :
    Machine.run (step fun _ => bytes "Bool") { slots := fun _ => none } retriedHistory =
      some (State.added { slots := fun _ => none } 1 (boolProtocol.withCodec ())) := by
  have hthrew : registerTypeProtocol (fun _ => bytes "Bool") { slots := fun _ => none } (some 1)
      (some boolProtocol) .threw = (.threw, { slots := fun _ => none }) :=
    registerTypeProtocol_free .threw rfl rfl boolProtocol_valid rfl
  simp only [retriedHistory, Machine.run_cons, step, call, hthrew, Option.bind_some]
  exact run_stored rfl rfl boolProtocol_valid rfl rfl rfl _

theorem registry_history_bool :
    ∃ state later,
      Machine.run (step fun _ => bytes "Bool") { slots := fun _ => none } retriedHistory =
        some state ∧
      Machine.run (step fun _ => bytes "Bool")
        (freezeTypeCatalog (fun _ => bytes "Bool") state false).2 frozenCalls = some later ∧
      state.slots 1 = some (.protocol (boolProtocol.withCodec ())) ∧
      registeredTypeCodec later (some 1) = some () ∧
      registerTypeProtocol (fun _ => bytes "Bool") state (some 1) (some boolTwin) .rejected =
        (.accepted, state) ∧
      (∃ error, registerTypeProtocol (fun _ => bytes "Bool") state (some 1) (some boolSuccessor)
        .stored = (.refused error, state)) ∧
      (call (fun _ => bytes "Bool") state
        (.register (some 2) (some boolProtocol) .rejected)).2.registrations = state.registrations ∧
      freezeTypeCatalog (fun _ => bytes "Bool") later true =
        ((freezeTypeCatalog (fun _ => bytes "Bool") state false).1.repeated, later) := by
  obtain ⟨hslot, hlater, hagain, hfailed, hfreeze⟩ := registry_history retriedHistory_run
  obtain ⟨later, hfrozen⟩ : ∃ later, Machine.run (step fun _ => bytes "Bool")
      (State.added { slots := fun _ => none } 1 (boolProtocol.withCodec ()))
      (.freeze false :: frozenCalls) = some later := ⟨_, rfl⟩
  have hrejected : registerTypeProtocol (fun _ => bytes "Bool")
      (State.added { slots := fun _ => none } 1 (boolProtocol.withCodec ())) (some 2)
      (some boolProtocol) .rejected =
      (.refused (bytes "RTT rejected HTTP type protocol registration"), _) :=
    registerTypeProtocol_free .rejected rfl rfl boolProtocol_valid rfl
  refine ⟨_, later, retriedHistory_run, hfrozen, hslot 1 _ rfl, ((hlater _ _ hfrozen).1 1 _ rfl).2,
    (hagain 1 _ boolTwin .rejected rfl).1 nofun boolProtocol_valid rfl,
    (hagain 1 _ boolSuccessor .stored rfl).2 boolSuccessor_fingerprint_ne, ?_,
    hfreeze false _ _ hfrozen true⟩
  refine (hfailed (.register (some 2) (some boolProtocol) .rejected) ?_).1
  simp only [call, hrejected]
  exact nofun

end RttHttp.Registry
