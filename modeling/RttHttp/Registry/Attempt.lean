import RttHttp.Registry.Layout

/-! # One attempt to reflect a type

What an attempt on a type without a codec does depends on the registry only
through the set of types that have one, through the slot of the type, and through
whether the catalog is frozen.
-/

namespace RttHttp.Registry

open Model (TypeRegistration bind_eq_ok)

variable {formatter : Formatter} {Codec : Type}

/-! ## Equal diagnostics -/

/-- Two computations that both succeed or both fail alike. -/
inductive Alike {ε α β : Type} : Except ε α → Except ε β → Prop
  | ok (first : α) (second : β) : Alike (.ok first) (.ok second)
  | error (reason : ε) : Alike (.error reason) (.error reason)

theorem Alike.refl {ε α : Type} (x : Except ε α) : Alike x x := by
  cases x with
  | ok value => exact .ok value value
  | error reason => exact .error reason

theorem Alike.bind {ε α β γ δ : Type} {x : Except ε α} {y : Except ε β} {f : α → Except ε γ}
    {g : β → Except ε δ} (h : Alike x y)
    (hrest : ∀ first second, x = .ok first → y = .ok second → Alike (f first) (g second)) :
    Alike (x >>= f) (y >>= g) := by
  cases h with
  | ok first second => exact hrest first second rfl rfl
  | error reason => exact .error reason

/-- The same probe, whatever is done with its answer. -/
theorem Alike.same {ε α γ δ : Type} {x : Except ε α} {f : α → Except ε γ} {g : α → Except ε δ}
    (hrest : ∀ value, Alike (f value) (g value)) : Alike (x >>= f) (x >>= g) := by
  apply Alike.bind (.refl x)
  intro first second hfirst hsecond
  obtain rfl : first = second := Except.ok.inj (hfirst.symm.trans hsecond)
  exact hrest first

section Codecs

variable {First Second : Type} {typeName : TypeId → Bytes}
  {firstOf : Option TypeId → Option First} {secondOf : Option TypeId → Option Second}

theorem isSome_addMember_iff {name : Bytes} {value : Option Part} :
    (addMember typeName firstOf name value).isSome ↔
      ∃ part, value = some part ∧ Usable typeName (coded firstOf) part := by
  constructor
  · intro hsome
    obtain ⟨member, hmember⟩ := Option.isSome_iff_exists.mp hsome
    obtain ⟨part, hpart, husable, -⟩ := addMember_eq_some hmember
    exact ⟨part, hpart, husable⟩
  · rintro ⟨part, rfl, husable⟩
    obtain ⟨member, hmember, -⟩ := addMember_of_usable name husable
    simp [hmember]

variable (typeName) (hsame : coded firstOf = coded secondOf)

include hsame

/-- Both registries give a member, or neither does. -/
theorem addMember_alike (name : Bytes) (value : Option Part) :
    (∃ first second, addMember typeName firstOf name value = some first ∧
      addMember typeName secondOf name value = some second) ∨
    (addMember typeName firstOf name value = none ∧ addMember typeName secondOf name value = none) := by
  have hiff : (addMember typeName firstOf name value).isSome ↔
      (addMember typeName secondOf name value).isSome := by
    rw [isSome_addMember_iff, isSome_addMember_iff, hsame]
  cases hfirst : addMember typeName firstOf name value with
  | none =>
      rw [hfirst] at hiff
      exact .inr ⟨rfl, Option.not_isSome_iff_eq_none.mp fun hsome => nomatch hiff.mpr hsome⟩
  | some first =>
      rw [hfirst] at hiff
      obtain ⟨second, hsecond⟩ := Option.isSome_iff_exists.mp (hiff.mp rfl)
      exact .inl ⟨first, second, rfl, hsecond⟩

theorem reflectFields_alike (probe : Probe) (names seen : List Bytes) (first : List (Member First))
    (second : List (Member Second)) :
    Alike (reflectFields typeName firstOf probe names seen first)
      (reflectFields typeName secondOf probe names seen second) := by
  induction names generalizing seen first second with
  | nil => exact .ok first second
  | cons name rest ih =>
      unfold reflectFields
      split
      next => exact .error _
      next =>
        apply Alike.same
        intro value
        rcases addMember_alike typeName hsame name value with
          ⟨_, _, hfirst, hsecond⟩ | ⟨hfirst, hsecond⟩
        · rw [hfirst, hsecond]
          exact ih _ _ _
        · rw [hfirst, hsecond]
          exact .error _

theorem reflectSequence_alike (probe : Probe) (element : Part) :
    Alike (reflectSequence typeName firstOf probe element)
      (reflectSequence typeName secondOf probe element) := by
  unfold reflectSequence
  rcases addMember_alike typeName hsame [] (some element) with
    ⟨_, _, hfirst, hsecond⟩ | ⟨hfirst, hsecond⟩
  · rw [hfirst, hsecond]
    apply Alike.same
    intro size
    split
    next => exact .error _
    next =>
      split
      next => exact .error _
      next =>
        apply Alike.same
        intro resized
        split
        next => exact .ok _ _
        next =>
          apply Alike.same
          intro length
          exact .ok _ _
  · rw [hfirst, hsecond]
    exact .error _

/-- Whether reflection fails, and why, depends only on which types have a codec. -/
theorem reflectShape_alike (probe : Probe) :
    Alike (reflectShape typeName firstOf probe) (reflectShape typeName secondOf probe) := by
  apply Alike.same
  intro factory
  split
  next => exact .error _
  next =>
    apply Alike.same
    intro prototype
    split
    next => exact .error _
    next =>
      apply Alike.same
      intro element
      cases element with
      | some element =>
          apply (reflectSequence_alike typeName hsame probe element).bind
          intro first second _ _
          exact .ok _ _
      | none =>
          apply Alike.same
          intro names
          split
          next => exact .error _
          next =>
            apply (reflectFields_alike typeName hsame probe names [] [] []).bind
            intro first second _ _
            exact .ok _ _

end Codecs

/-! ## Making a protocol -/

theorem make_eq_ok {Pointer : Type} {address : Nat} {registration : TypeRegistration}
    {pointer : Pointer} {protocol : TypeProtocol formatter Pointer}
    (h : TypeProtocol.make formatter address registration pointer = .ok protocol) :
    protocol.registration = normalize registration ∧ protocol.codec = pointer ∧
      fingerprint formatter (normalize registration) = .ok protocol.fingerprint := by
  unfold TypeProtocol.make at h
  split at h
  next => cases h
  next text htext =>
    cases h
    exact ⟨rfl, rfl, htext⟩

theorem make_of_fingerprint {Pointer : Type} {registration : TypeRegistration} {text : Bytes}
    (address : Nat) (pointer : Pointer)
    (h : fingerprint formatter (normalize registration) = .ok text) :
    ∃ protocol, TypeProtocol.make formatter address registration pointer = .ok protocol := by
  unfold TypeProtocol.make
  split
  next what hwhat =>
    rw [h] at hwhat
    cases hwhat
  next => exact ⟨_, rfl⟩

theorem make_eq_error {Pointer : Type} {address : Nat} {registration : TypeRegistration}
    {pointer : Pointer} {what : Bytes} :
    TypeProtocol.make formatter address registration pointer = .error what ↔
      fingerprint formatter (normalize registration) = .error what := by
  unfold TypeProtocol.make
  split
  next found hfound => simp [hfound]
  next text htext => simp [htext]

section Attempts

variable {world : World Codec} {state : State formatter Codec} {type : TypeId}

/-- How the registration of a reflected type ends when the type has no entry. -/
def freshReply (world : World Codec) (type : TypeId) (registration : TypeRegistration)
    (taken frozen : Bool) : Reply :=
  match validateRegistration registration with
  | .error message => .refused (bytes message)
  | .ok _ =>
      if taken then
        .refused (bytes "conflicting HTTP type protocol registration: " ++ world.typeName type)
      else if frozen then
        .refused (bytes "HTTP type catalog is frozen: " ++ world.typeName type)
      else match world.addProtocol type with
        | .stored => .accepted
        | .rejected => .refused (bytes "RTT rejected HTTP type protocol registration")
        | .threw => .threw

theorem register_fresh {protocol : TypeProtocol formatter (Option Codec)} {codec : Codec}
    (hcodec : protocol.codec = some codec)
    (hname : protocol.registration.rttType = world.typeName type)
    (hfresh : state.registrations.lookup type = none) :
    registerTypeProtocol world.typeName state (some type) (some protocol) (world.addProtocol type) =
      (freshReply world type protocol.registration (state.slots type).isSome state.frozen,
        if freshReply world type protocol.registration (state.slots type).isSome state.frozen =
          .accepted then state.added type (protocol.withCodec codec) else state) := by
  unfold registerTypeProtocol freshReply
  simp only [hcodec, hname, ne_eq, not_true_eq_false, if_false]
  cases validateRegistration protocol.registration with
  | error message => simp
  | ok _ =>
      cases hslot : state.slots type with
      | some occupant =>
          cases occupant with
          | foreign => simp [registerTaken]
          | protocol existing => simp [registerTaken, hfresh]
      | none =>
          unfold registerFree
          cases hfrozen : state.frozen with
          | true => simp
          | false =>
              cases hadd : world.addProtocol type with
              | stored => simp [hfresh, hfrozen, State.added]
              | rejected => simp [hfresh]
              | threw => simp [hfresh]

/-- Everything that has to be right for a registration to be accepted. -/
theorem freshReply_accepted {registration : TypeRegistration} {taken frozen : Bool} :
    freshReply world type registration taken frozen = .accepted ↔
      validateRegistration registration = .ok () ∧ taken = false ∧ frozen = false ∧
        world.addProtocol type = .stored := by
  unfold freshReply
  cases validateRegistration registration with
  | error message => simp
  | ok _ =>
      cases taken
      · cases frozen
        · cases world.addProtocol type <;> simp
        · simp
      · simp

/-- The outcome of an attempt without a shape. -/
def Refusal.attempt : Refusal → Attempt formatter Codec
  | .unsupported text => .unresolved text
  | .escaped => .escaped

theorem attempt_error {refusal : Refusal}
    (hshape : reflectShape world.typeName (registeredTypeCodec state) (world.probe type) =
      .error refusal) :
    attempt world state type = refusal.attempt := by
  unfold attempt makeReflectedTypeProtocol
  rw [hshape]
  cases refusal with
  | unsupported text => rfl
  | escaped => rfl

/-- What the rest of an attempt needs to know of a shape that was found. -/
theorem attempt_shape {shape : Shape Codec} {layout : Layout}
    (hshape : reflectShape world.typeName (registeredTypeCodec state) (world.probe type) = .ok shape)
    (hlayout : RepresentsLayout (registeredTypeCodec state) shape layout)
    (hfresh : state.registrations.lookup type = none) :
    match fingerprint formatter (normalize (layout.registration world.typeName type)) with
    | .error what =>
        attempt world state type = .unresolved (bytes "RTT reflection failed: " ++ what)
    | .ok _ =>
        match freshReply world type (normalize (layout.registration world.typeName type))
          (state.slots type).isSome state.frozen with
        | .accepted => ∃ protocol : TypeProtocol formatter Codec,
            protocol.registration = normalize (layout.registration world.typeName type) ∧
            attempt world state type = .registered (state.added type protocol)
        | .refused text => attempt world state type = .unresolved text
        | .threw => attempt world state type = .escaped := by
  have hregistration : shape.registration world.typeName type
      (reflectionIdentity (world.typeName type)) = layout.registration world.typeName type :=
    hlayout.registration type
  unfold attempt makeReflectedTypeProtocol
  rw [hshape]
  simp only [bind, Except.bind, hregistration]
  cases hmake : TypeProtocol.make formatter (world.allocate type)
      (layout.registration world.typeName type) (some (world.codec (shape.codec type))) with
  | error what =>
      rw [make_eq_error.mp hmake]
      simp [caught]
  | ok protocol =>
      obtain ⟨hprotocol, hcodec, hfingerprint⟩ := make_eq_ok hmake
      have hname : protocol.registration.rttType = world.typeName type := by
        rw [hprotocol]
        rfl
      rw [hfingerprint]
      simp only [pure, Except.pure, register_fresh hcodec hname hfresh, hprotocol]
      cases freshReply world type (normalize (layout.registration world.typeName type))
          (state.slots type).isSome state.frozen with
      | accepted =>
          exact ⟨protocol.withCodec (world.codec (shape.codec type)), hprotocol, by simp⟩
      | refused text => simp
      | threw => simp

/-- A type that an attempt registers, in terms of its layout. -/
structure Reflectable (formatter : Formatter) (world : World Codec) (known : Set TypeId)
    (type : TypeId) (layout : Layout) : Prop where
  probed : layoutOf (world.probe type) = some layout
  usable : ∀ part ∈ layout.parts, Usable world.typeName known part
  constructed : ∃ text,
    fingerprint formatter (normalize (layout.registration world.typeName type)) = .ok text
  valid : validateRegistration (normalize (layout.registration world.typeName type)) = .ok ()

theorem attempt_registered {after : State formatter Codec}
    (hfresh : state.registrations.lookup type = none)
    (h : attempt world state type = .registered after) :
    ∃ layout protocol,
      Reflectable formatter world (coded (registeredTypeCodec state)) type layout ∧
      state.slots type = none ∧ state.frozen = false ∧ world.addProtocol type = .stored ∧
      protocol.registration = normalize (layout.registration world.typeName type) ∧
      after = state.added type protocol := by
  cases hshape : reflectShape world.typeName (registeredTypeCodec state) (world.probe type) with
  | error refusal =>
      rw [attempt_error hshape] at h
      cases refusal <;> cases h
  | ok shape =>
      obtain ⟨layout, hlayout, hrepresents, husable⟩ := reflectShape_eq_ok hshape
      have hattempt := attempt_shape hshape hrepresents hfresh
      split at hattempt
      next =>
        rw [hattempt] at h
        cases h
      next text htext =>
        split at hattempt
        next hreply =>
          obtain ⟨protocol, hprotocol, hregistered⟩ := hattempt
          rw [hregistered] at h
          cases h
          obtain ⟨hvalid, htaken, hfrozen, hadd⟩ := freshReply_accepted.mp hreply
          exact ⟨layout, protocol, ⟨hlayout, husable, ⟨text, htext⟩, hvalid⟩,
            by simpa using htaken, hfrozen, hadd, hprotocol, rfl⟩
        next =>
          rw [hattempt] at h
          cases h
        next =>
          rw [hattempt] at h
          cases h

theorem attempt_of_reflectable {layout : Layout}
    (hfresh : state.registrations.lookup type = none)
    (h : Reflectable formatter world (coded (registeredTypeCodec state)) type layout)
    (hslot : state.slots type = none) (hfrozen : state.frozen = false)
    (hadd : world.addProtocol type = .stored) :
    ∃ after, attempt world state type = .registered after := by
  obtain ⟨shape, hshape, hrepresents⟩ := reflectShape_of_layout h.probed h.usable
  obtain ⟨text, htext⟩ := h.constructed
  have hattempt := attempt_shape hshape hrepresents hfresh
  have hreply : freshReply world type (normalize (layout.registration world.typeName type))
      (state.slots type).isSome state.frozen = .accepted :=
    freshReply_accepted.mpr ⟨h.valid, by simp [hslot], hfrozen, hadd⟩
  rw [htext] at hattempt
  simp only [hreply] at hattempt
  obtain ⟨protocol, -, hregistered⟩ := hattempt
  exact ⟨_, hregistered⟩

/-- The diagnostic of an attempt depends only on what both registries agree on. -/
theorem attempt_congr {other : State formatter Codec} {text : Bytes}
    (hcoded : coded (registeredTypeCodec state) = coded (registeredTypeCodec other))
    (hfresh : state.registrations.lookup type = none)
    (hother : other.registrations.lookup type = none)
    (hslots : (state.slots type).isSome = (other.slots type).isSome)
    (hfrozen : state.frozen = other.frozen)
    (h : attempt world state type = .unresolved text) :
    attempt world other type = .unresolved text := by
  have halike := reflectShape_alike world.typeName hcoded (world.probe type)
  generalize hfirst : reflectShape world.typeName (registeredTypeCodec state) (world.probe type) =
    first at halike
  generalize hsecond : reflectShape world.typeName (registeredTypeCodec other) (world.probe type) =
    second at halike
  cases halike with
  | error refusal =>
      rw [← h, attempt_error hfirst, attempt_error hsecond]
  | ok shape shape' =>
      obtain ⟨layout, hlayout, hrepresents, -⟩ := reflectShape_eq_ok hfirst
      obtain ⟨layout', hlayout', hrepresents', -⟩ := reflectShape_eq_ok hsecond
      obtain rfl : layout = layout' := Option.some.inj (hlayout.symm.trans hlayout')
      have hone := attempt_shape hfirst hrepresents hfresh
      have htwo := attempt_shape hsecond hrepresents' hother
      rw [← hslots, ← hfrozen] at htwo
      split at hone
      next what hwhat =>
        simp only [hwhat] at htwo
        rw [htwo, ← h, hone]
      next fingerprint hfingerprint =>
        simp only [hfingerprint] at htwo
        split at hone
        next =>
          obtain ⟨_, _, hregistered⟩ := hone
          rw [hregistered] at h
          cases h
        next reason hreason =>
          simp only [hreason] at htwo
          rw [htwo, ← h, hone]
        next =>
          rw [hone] at h
          cases h

/-! ## Diagnostics and exceptions -/

theorem validateRegistration_error {registration : TypeRegistration} {message : String}
    (h : validateRegistration registration = .error message) : bytes message ≠ [] := by
  have hreferences : ∀ {descriptor kind}, descriptorReferences descriptor kind = .error message →
      bytes message ≠ [] := by
    intro descriptor kind h
    unfold descriptorReferences at h
    repeat' split at h
    all_goals cases h
    all_goals decide
  unfold validateRegistration at h
  split at h
  next =>
    split at h
    next =>
      cases h
      decide
    next =>
      split at h
      next =>
        cases h
        exact hreferences (by assumption)
      next =>
        split at h
        next => cases h
        next =>
          cases h
          decide
  next =>
    cases h
    decide

/-- No probe of the type throws anything but a standard exception. -/
structure Probe.Standard (probe : Probe) : Prop where
  memberFactory : probe.memberFactory ≠ .error .foreign
  buildValue : probe.buildValue ≠ .error .foreign
  element : probe.element ≠ .error .foreign
  size : probe.size ≠ .error .foreign
  resize : probe.resize ≠ .error .foreign
  sizeAgain : probe.sizeAgain ≠ .error .foreign
  memberNames : probe.memberNames ≠ .error .foreign
  member : ∀ name, probe.member name ≠ .error .foreign

/-- A computation that fails only with a diagnostic that says something, or lets a
foreign exception out of a probe. -/
def Diagnoses {α : Type} (probe : Probe) (x : Except Refusal α) : Prop :=
  ∀ refusal, x = .error refusal →
    (∃ text, refusal = .unsupported text ∧ text ≠ []) ∨ refusal = .escaped ∧ ¬ probe.Standard

section Diagnoses

variable {α β : Type} {probe : Probe}

theorem Diagnoses.ok (value : α) : Diagnoses probe (.ok value) := fun _ h => nomatch h

theorem Diagnoses.unsupported {text : Bytes} (h : text ≠ []) :
    Diagnoses probe (.error (.unsupported text) : Except Refusal α) := by
  rintro refusal ⟨⟩
  exact .inl ⟨text, rfl, h⟩

theorem Diagnoses.bind {x : Except Refusal α} {f : α → Except Refusal β}
    (hx : Diagnoses probe x) (hf : ∀ value, Diagnoses probe (f value)) :
    Diagnoses probe (x >>= f) := by
  cases x with
  | ok value => exact hf value
  | error refusal =>
      rintro other ⟨⟩
      exact hx refusal rfl

theorem Diagnoses.caught {probed : Probed α} (h : probe.Standard → probed ≠ .error .foreign) :
    Diagnoses probe (Registry.caught probed) := by
  cases probed with
  | ok value => exact .ok value
  | error fault =>
      cases fault with
      | standard what =>
          apply Diagnoses.unsupported
          intro hnil
          exact absurd (List.append_eq_nil_iff.mp hnil).1 (by decide)
      | foreign =>
          rintro refusal ⟨⟩
          exact .inr ⟨rfl, fun hstandard => h hstandard rfl⟩

end Diagnoses

section Probing

variable {typeName : TypeId → Bytes} {codecOf : Option TypeId → Option Codec} {probe : Probe}

theorem reflectFields_diagnoses (names seen : List Bytes) (members : List (Member Codec)) :
    Diagnoses probe (reflectFields typeName codecOf probe names seen members) := by
  induction names generalizing seen members with
  | nil => exact .ok members
  | cons name rest ih =>
      unfold reflectFields
      split
      next => exact .unsupported (by decide)
      next =>
        apply (Diagnoses.caught fun hprobe => hprobe.member name).bind
        intro value
        split
        next =>
          apply Diagnoses.unsupported
          intro hnil
          exact absurd (List.append_eq_nil_iff.mp hnil).1 (by decide)
        next => exact ih _ _

theorem reflectSequence_diagnoses (element : Part) :
    Diagnoses probe (reflectSequence typeName codecOf probe element) := by
  unfold reflectSequence
  split
  next => exact .unsupported (by decide)
  next =>
    apply (Diagnoses.caught (·.size)).bind
    intro size
    split
    next => exact .unsupported (by decide)
    next =>
      split
      next => exact .unsupported (by decide)
      next =>
        apply (Diagnoses.caught (·.resize)).bind
        intro resized
        split
        next => exact .ok _
        next =>
          apply (Diagnoses.caught (·.sizeAgain)).bind
          intro length
          exact .ok _

theorem reflectShape_diagnoses : Diagnoses probe (reflectShape typeName codecOf probe) := by
  apply (Diagnoses.caught (·.memberFactory)).bind
  intro factory
  split
  next => exact .unsupported (by decide)
  next =>
    apply (Diagnoses.caught (·.buildValue)).bind
    intro prototype
    split
    next => exact .unsupported (by decide)
    next =>
      apply (Diagnoses.caught (·.element)).bind
      intro element
      split
      next =>
        apply (reflectSequence_diagnoses _).bind
        intro result
        exact .ok _
      next =>
        apply (Diagnoses.caught (·.memberNames)).bind
        intro names
        split
        next => exact .unsupported (by decide)
        next =>
          apply (reflectFields_diagnoses _ _ _).bind
          intro members
          exact .ok _

end Probing

/-- A registration that is refused says why. -/
theorem registerTypeProtocol_refused {typeName : TypeId → Bytes}
    {protocol : TypeProtocol formatter (Option Codec)} {outcome : AddOutcome} {text : Bytes}
    {after : State formatter Codec}
    (h : registerTypeProtocol typeName state (some type) (some protocol) outcome =
      (.refused text, after)) : text ≠ [] := by
  have happend : ∀ (first second : Bytes), first ≠ [] → first ++ second ≠ [] := by
    intro first second hfirst
    simp [hfirst]
  unfold registerTypeProtocol at h
  simp only at h
  split at h
  next =>
    cases h
    decide
  next =>
    split at h
    next =>
      cases h
      decide
    next =>
      split at h
      next message hmessage =>
        cases h
        exact validateRegistration_error hmessage
      next =>
        split at h
        next =>
          unfold registerTaken at h
          split at h
          next =>
            split at h
            next => cases h
            next =>
              cases h
              exact happend _ _ (by decide)
          next =>
            cases h
            exact happend _ _ (by decide)
        next =>
          unfold registerFree at h
          split at h
          next =>
            cases h
            exact happend _ _ (by decide)
          next =>
            split at h
            next =>
              cases h
              decide
            next =>
              cases outcome with
              | rejected =>
                  cases h
                  decide
              | threw => cases h
              | stored => cases h

/-- The diagnostic of an attempt is never empty. -/
theorem attempt_unresolved {text : Bytes} (h : attempt world state type = .unresolved text) :
    text ≠ [] := by
  cases hshape : reflectShape world.typeName (registeredTypeCodec state) (world.probe type) with
  | error refusal =>
      rw [attempt_error hshape] at h
      rcases reflectShape_diagnoses refusal hshape with ⟨other, rfl, hother⟩ | ⟨rfl, -⟩
      · cases h
        exact hother
      · cases h
  | ok shape =>
      unfold attempt makeReflectedTypeProtocol at h
      rw [hshape] at h
      simp only [bind, Except.bind] at h
      cases hmake : TypeProtocol.make formatter (world.allocate type)
          (shape.registration world.typeName type (reflectionIdentity (world.typeName type)))
          (some (world.codec (shape.codec type))) with
      | error what =>
          rw [hmake] at h
          cases h
          intro hnil
          exact absurd (List.append_eq_nil_iff.mp hnil).1 (by decide)
      | ok protocol =>
          rw [hmake] at h
          simp only [pure, Except.pure] at h
          split at h
          next => cases h
          next other _ hregister =>
            cases h
            exact registerTypeProtocol_refused hregister
          next => cases h

/-- An attempt registers the type, or it says why not. -/
theorem attempt_cases (hprobe : (world.probe type).Standard)
    (hadd : world.addProtocol type = .stored) (hfresh : state.registrations.lookup type = none) :
    (∃ after, attempt world state type = .registered after) ∨
      ∃ text, attempt world state type = .unresolved text ∧ text ≠ [] := by
  cases hshape : reflectShape world.typeName (registeredTypeCodec state) (world.probe type) with
  | error refusal =>
      rcases reflectShape_diagnoses refusal hshape with ⟨text, rfl, htext⟩ | ⟨-, hforeign⟩
      · exact .inr ⟨text, attempt_error hshape, htext⟩
      · exact absurd hprobe hforeign
  | ok shape =>
      obtain ⟨layout, -, hrepresents, -⟩ := reflectShape_eq_ok hshape
      have hattempt := attempt_shape hshape hrepresents hfresh
      split at hattempt
      next what hwhat =>
        exact .inr ⟨_, hattempt, attempt_unresolved hattempt⟩
      next =>
        split at hattempt
        next =>
          obtain ⟨protocol, -, hregistered⟩ := hattempt
          exact .inl ⟨_, hregistered⟩
        next text hreply => exact .inr ⟨text, hattempt, attempt_unresolved hattempt⟩
        next hreply =>
          -- Only an `addProtocol` that throws lets an exception out here.
          unfold freshReply at hreply
          rw [hadd] at hreply
          split at hreply
          next => cases hreply
          next =>
            split at hreply
            next => cases hreply
            next =>
              split at hreply
              next => cases hreply
              next => cases hreply

end Attempts

end RttHttp.Registry
