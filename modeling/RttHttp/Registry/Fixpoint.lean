import Mathlib.Data.List.ReduceOption
import RttHttp.Machine.Saturation
import RttHttp.Registry.Passes

/-! # The fixpoint of reflection

The registered types at the end of the loop are the least set that contains the
types registered before it and is closed under reflection, and every other pending
type has its diagnostic. Neither depends on the order of iteration.
-/

namespace RttHttp.Registry

open Model (TypeRegistration mem_foldl_setInsert mem_setInsert setInsert)
open Saturation (Closed Grows Persistent)

variable {formatter : Formatter} {Codec : Type}

/-- A pending type that the types of `known` suffice to reflect, seen from the
registry at the start. -/
structure Ready (world : World Codec) (pending : List TypeId) (state : State formatter Codec)
    (known : Set TypeId) (type : TypeId) : Prop where
  pending : type ∈ pending
  free : state.slots type = none
  unfrozen : state.frozen = false
  layout : ∃ layout, Reflectable formatter world known type layout

section Chain

variable {world : World Codec} {pending : List TypeId} {state after : State formatter Codec}

/-- The order of the pending types says nothing about which of them are ready. -/
theorem ready_of_perm {order : List TypeId} (horder : order.Perm pending) :
    Ready world order state = Ready world pending state := by
  funext known type
  apply propext
  constructor
  · exact fun h => ⟨horder.mem_iff.mp h.pending, h.free, h.unfrozen, h.layout⟩
  · exact fun h => ⟨horder.mem_iff.mpr h.pending, h.free, h.unfrozen, h.layout⟩

theorem persistent_ready : Persistent (Ready world pending state) := by
  intro small large type hsubset h
  obtain ⟨layout, hprobed, husable, hconstructed, hvalid⟩ := h.layout
  refine ⟨h.pending, h.free, h.unfrozen, layout, hprobed, ?_, hconstructed, hvalid⟩
  intro part hpart
  obtain ⟨hassignable, member, hmember, htype, hvoid⟩ := husable part hpart
  exact ⟨hassignable, member, hsubset hmember, htype, hvoid⟩

/-- What holds of every state that the loop reaches. -/
structure Reached (world : World Codec) (pending : List TypeId) (state after : State formatter Codec) :
    Prop where
  consistent : Consistent world.typeName after
  frozen : after.frozen = state.frozen
  slots : ∀ type, after.registrations.lookup type = none → after.slots type = state.slots type
  grows : Grows (Ready world pending state) (registered state) (registered after)

theorem adds_of_attempt {mid : State formatter Codec} {type : TypeId}
    (hfresh : mid.registrations.lookup type = none)
    (hattempt : attempt world mid type = .registered after) :
    ∃ layout protocol,
      Reflectable formatter world (coded (registeredTypeCodec mid)) type layout ∧
      protocol.registration = normalize (layout.registration world.typeName type) ∧
      Adds world.typeName mid type protocol after := by
  obtain ⟨layout, protocol, hreflectable, hslot, hfrozen, -, hprotocol, hafter⟩ :=
    attempt_registered hfresh hattempt
  refine ⟨layout, protocol, hreflectable, hprotocol, ?_, ?_, hfrozen, hfresh, hslot, hafter⟩
  · rw [hprotocol]
    rfl
  · rw [hprotocol]
    exact hreflectable.valid

theorem registered_of_adds {typeName : TypeId → Bytes} {mid : State formatter Codec} {type : TypeId}
    {protocol : TypeProtocol formatter Codec} (h : Adds typeName mid type protocol after) :
    registered after = insert type (registered mid) := by
  ext other
  change (after.registrations.lookup other).isSome ↔
    other = type ∨ (mid.registrations.lookup other).isSome
  rw [h.lookup]
  split
  next heq => simp [heq]
  next hne => simp [hne]

/-- The run lemma of the loop. -/
theorem Registers.reached (hstate : Consistent world.typeName state)
    (h : Registers world pending state after) : Reached world pending state after := by
  induction h with
  | refl => exact ⟨hstate, rfl, fun _ _ => rfl, .refl⟩
  | @step mid after type hmid htype hfresh hattempt ih =>
      obtain ⟨layout, protocol, hreflectable, -, hadds⟩ := adds_of_attempt hfresh hattempt
      refine ⟨hadds.consistent ih.consistent, ?_, ?_, ?_⟩
      · rw [hadds.after_eq]
        exact ih.frozen
      · intro other hother
        rw [hadds.lookup] at hother
        split at hother
        next => cases hother
        next hne =>
          rw [hadds.after_eq]
          exact (Function.update_of_ne hne ..).trans (ih.slots other hother)
      · rw [registered_of_adds hadds]
        rw [ih.consistent.coded_eq] at hreflectable
        refine .insert ih.grows ⟨htype, ?_, ?_, layout, hreflectable⟩
        · rw [← ih.slots type hfresh]
          exact hadds.free
        · rw [← ih.frozen]
          exact hadds.unfrozen

end Chain

/-! ## The loop comes to rest -/

section Rest

variable {world : World Codec} {pending : List TypeId} {state : State formatter Codec}

theorem reflectPass_returns {rest : List TypeId} (loop : Reflection formatter Codec)
    (hprobe : ∀ type ∈ rest, (world.probe type).Standard)
    (hadd : ∀ type ∈ rest, world.addProtocol type = .stored) (hnodup : rest.Nodup)
    (hfresh : ∀ type ∈ rest, loop.state.registrations.lookup type = none) :
    ∃ result, reflectPass world rest loop = .ok result := by
  induction rest generalizing loop with
  | nil => exact ⟨loop, rfl⟩
  | cons type rest ih =>
      obtain ⟨-, hrestNodup⟩ := List.nodup_cons.mp hnodup
      obtain ⟨hprobeHead, hprobeRest⟩ := List.forall_mem_cons.mp hprobe
      obtain ⟨haddHead, haddRest⟩ := List.forall_mem_cons.mp hadd
      obtain ⟨hhead, hrest⟩ := List.forall_mem_cons.mp hfresh
      rcases attempt_cases hprobeHead haddHead hhead with ⟨after, hattempt⟩ | ⟨text, hattempt, -⟩
      · rw [reflectPass_registered hattempt]
        exact ih _ hprobeRest haddRest hrestNodup (fresh_rest hnodup hfresh hattempt)
      · rw [reflectPass_unresolved hattempt]
        exact ih (loop.keep type (world.typeName type) text) hprobeRest haddRest hrestNodup hrest

/-- What the loop returns: a state on which every type that is left was tried in
vain, with the diagnostics of these attempts. -/
structure Settled (world : World Codec) (pending : List TypeId) (state after : State formatter Codec)
    (notes : List (Bytes × Bytes)) : Prop where
  registers : Registers world pending state after
  noted : Noted world (freshTypes after pending) notes
  tried : ∀ type ∈ freshTypes after pending, ∃ text,
    attempt world after type = .unresolved text ∧ notes.lookup (world.typeName type) = some text

theorem reflectLoop_settles {fuel : Nat} {unresolved : List (Bytes × Bytes)}
    (hfuel : pending.length < fuel) (hprobe : ∀ type ∈ pending, (world.probe type).Standard)
    (hadd : ∀ type ∈ pending, world.addProtocol type = .stored) (hnodup : pending.Nodup)
    (hnames : (pending.map world.typeName).Nodup)
    (hfresh : ∀ type ∈ pending, state.registrations.lookup type = none)
    (hnoted : Noted world pending unresolved) :
    ∃ after notes, reflectLoop world fuel pending state unresolved = .returned after notes ∧
      Settled world pending state after notes := by
  induction fuel generalizing pending state unresolved with
  | zero => omega
  | succ fuel ih =>
      obtain ⟨loop, hpass⟩ := reflectPass_returns ⟨state, unresolved, [], false⟩ hprobe hadd hnodup
        hfresh
      have hregisters : Registers world pending state loop.state :=
        registers_of_reflectPass hpass hnodup hfresh
      have hkept : loop.kept = freshTypes loop.state pending :=
        reflectPass_kept ⟨state, unresolved, [], false⟩ hnodup hfresh hpass
      have hnotes : Noted world (freshTypes loop.state pending) loop.unresolved := by
        rw [← hkept]
        exact reflectPass_noted _ hpass hnoted
      simp only [reflectLoop, hpass]
      split
      next hprogress =>
        obtain ⟨type, htype, hentry⟩ :=
          exists_entry_of_progress ⟨state, unresolved, [], false⟩ hnodup hfresh hpass rfl hprogress
        have hless : (freshTypes loop.state pending).length < fuel :=
          Nat.lt_of_lt_of_le (length_freshTypes_lt htype hentry) (Nat.le_of_lt_succ hfuel)
        have hsubset : freshTypes loop.state pending ⊆ pending :=
          fun type htype => (mem_freshTypes.mp htype).1
        rw [hkept]
        obtain ⟨after, notes, hreturned, hsettled⟩ := ih hless
          (fun type htype => hprobe type (hsubset htype))
          (fun type htype => hadd type (hsubset htype)) (hnodup.filter _)
          (hnames.sublist (List.filter_sublist.map world.typeName))
          (fun type htype => (mem_freshTypes.mp htype).2) hnotes
        have hleft : freshTypes after (freshTypes loop.state pending) = freshTypes after pending :=
          freshTypes_freshTypes hsettled.registers
        exact ⟨after, notes, hreturned,
          hregisters.trans (hsettled.registers.mono hsubset),
          hleft ▸ hsettled.noted, hleft ▸ hsettled.tried⟩
      next hprogress =>
        obtain ⟨hstate, htried, -⟩ :=
          reflectPass_still ⟨state, unresolved, [], false⟩ hnames hpass (by simpa using hprogress)
        refine ⟨loop.state, loop.unresolved, rfl, hregisters, hnotes, ?_⟩
        intro type htype
        rw [hstate]
        exact htried type (mem_freshTypes.mp htype).1

/-- A settled registry is the least one that is closed under reflection. -/
theorem Settled.isLeast {after : State formatter Codec} {notes : List (Bytes × Bytes)}
    (h : Settled world pending state after notes) (hstate : Consistent world.typeName state)
    (hadd : ∀ type ∈ pending, world.addProtocol type = .stored) :
    IsLeast {known | Closed (Ready world pending state) (registered state) known}
      (registered after) := by
  have hreached := h.registers.reached hstate
  apply hreached.grows.isLeast persistent_ready
  intro type hready
  by_contra hnot
  have hnone := not_mem_registered.mp hnot
  obtain ⟨layout, hlayout⟩ := hready.layout
  rw [← hreached.consistent.coded_eq] at hlayout
  obtain ⟨next, hregistered⟩ := attempt_of_reflectable hnone hlayout
    ((hreached.slots type hnone).trans hready.free) (hreached.frozen.trans hready.unfrozen)
    (hadd type hready.pending)
  obtain ⟨text, hunresolved, -⟩ := h.tried type (mem_freshTypes.mpr ⟨hready.pending, hnone⟩)
  rw [hregistered] at hunresolved
  cases hunresolved

/-- Two settled registries with the same types give the same diagnostics. -/
theorem Settled.same_text {other : List TypeId} {first second : State formatter Codec}
    {notes others : List (Bytes × Bytes)} (hfirst : Settled world pending state first notes)
    (hsecond : Settled world other state second others) (hstate : Consistent world.typeName state)
    (hsame : registered first = registered second) {type : TypeId} {text : Bytes}
    (hfresh : first.registrations.lookup type = none)
    (h : attempt world first type = .unresolved text) :
    attempt world second type = .unresolved text := by
  have hone := hfirst.registers.reached hstate
  have htwo := hsecond.registers.reached hstate
  have hother : second.registrations.lookup type = none := by
    rw [← not_mem_registered, ← hsame, not_mem_registered, hfresh]
  apply attempt_congr _ hfresh hother _ _ h
  · rw [hone.consistent.coded_eq, htwo.consistent.coded_eq, hsame]
  · rw [hone.slots type hfresh, htwo.slots type hother]
  · rw [hone.frozen, htwo.frozen]

end Rest

/-! ## Every order of iteration -/

theorem nodup_pendingTypes (world : World Codec) (state : State formatter Codec)
    (types : List (Option TypeId)) : (pendingTypes world state types).Nodup :=
  (List.perm_insertionSort ..).nodup_iff.mpr (List.nodup_dedup _)

theorem fresh_pendingTypes {world : World Codec} {state : State formatter Codec}
    {types : List (Option TypeId)} (hstate : Consistent world.typeName state) {type : TypeId}
    (htype : type ∈ pendingTypes world state types) :
    state.registrations.lookup type = none := by
  have hpending : isPending world state type = true := by
    have hmem := (List.perm_insertionSort ..).mem_iff.mp htype
    exact (List.mem_filter.mp (List.mem_dedup.mp hmem)).2
  by_contra hsome
  obtain ⟨protocol, hprotocol⟩ := Option.ne_none_iff_exists'.mp hsome
  simp [isPending, hstate.registeredTypeCodec hprotocol] at hpending

/-- The diagnostic of an attempt. -/
def Attempt.text : Attempt formatter Codec → Bytes
  | .unresolved text => text
  | .registered _ | .escaped => []

/-- The diagnostics that are returned are those of the attempts in the end. -/
theorem Settled.lookup_iff {world : World Codec} {pending : List TypeId}
    {state after : State formatter Codec} {notes : List (Bytes × Bytes)}
    (h : Settled world pending state after notes) {name message : Bytes} :
    notes.lookup name = some message ↔ ∃ type ∈ pending, type ∉ registered after ∧
      world.typeName type = name ∧ (attempt world after type).text = message := by
  constructor
  · intro hlookup
    have hentry := (OrderedMap.lookup_eq_some_iff h.noted.distinct).mp hlookup
    obtain ⟨type, htype, rfl⟩ := h.noted.pending _ hentry
    obtain ⟨text, hattempt, hnote⟩ := h.tried type htype
    obtain ⟨hpending, hfresh⟩ := mem_freshTypes.mp htype
    refine ⟨type, hpending, not_mem_registered.mpr hfresh, rfl, ?_⟩
    rw [hattempt]
    exact Option.some.inj (hnote.symm.trans hlookup)
  · rintro ⟨type, hpending, hfresh, rfl, rfl⟩
    obtain ⟨text, hattempt, hnote⟩ :=
      h.tried type (mem_freshTypes.mpr ⟨hpending, not_mem_registered.mp hfresh⟩)
    rw [hnote, hattempt]
    rfl

/-- For any history of the registry and any set of types: there is one set of types
and one diagnostic for each type that is left, and the loop ends with them whatever
the order of the pending types is. The set is the least closed one. -/
theorem reflection_confluent {world : World Codec}
    {slots : TypeId → Option (Occupant formatter Codec)} {calls : List (Call formatter Codec)}
    {state : State formatter Codec}
    (hrun : Machine.run (step world.typeName) { slots := slots } calls = some state)
    (types : List (Option TypeId))
    (hnames : ((pendingTypes world state types).map world.typeName).Nodup)
    (hprobe : ∀ type ∈ pendingTypes world state types, (world.probe type).Standard)
    (hadd : ∀ type ∈ pendingTypes world state types, world.addProtocol type = .stored) :
    ∃ (known : Set TypeId) (text : TypeId → Bytes),
      IsLeast {known | Closed (Ready world (pendingTypes world state types) state)
        (registered state) known} known ∧
      (∀ type ∈ pendingTypes world state types, type ∉ known → text type ≠ []) ∧
      ∀ order : List TypeId, order.Perm (pendingTypes world state types) →
        ∃ after notes, reflectLoop world (order.length + 1) order state [] =
            .returned after notes ∧
          registered after = known ∧ (notes.map Prod.fst).Nodup ∧
          ∀ name message, notes.lookup name = some message ↔
            ∃ type ∈ order, type ∉ known ∧ world.typeName type = name ∧ text type = message := by
  obtain ⟨hstate, -⟩ := (Consistent.initial world.typeName slots).run hrun
  have hsettles : ∀ order : List TypeId, order.Perm (pendingTypes world state types) →
      ∃ after notes, reflectLoop world (order.length + 1) order state [] = .returned after notes ∧
        Settled world order state after notes := by
    intro order horder
    have hmem : ∀ type ∈ order, type ∈ pendingTypes world state types :=
      fun type htype => horder.mem_iff.mp htype
    exact reflectLoop_settles (Nat.lt_succ_self _) (fun type htype => hprobe type (hmem type htype))
      (fun type htype => hadd type (hmem type htype))
      (horder.nodup_iff.mpr (nodup_pendingTypes world state types))
      ((horder.map world.typeName).nodup_iff.mpr hnames)
      (fun type htype => fresh_pendingTypes hstate (hmem type htype)) ⟨by simp, by simp⟩
  -- The set and the texts are read off one order, and any other is compared with it.
  obtain ⟨first, notes, -, hfirst⟩ := hsettles _ (List.Perm.refl _)
  have hleast := hfirst.isLeast hstate hadd
  refine ⟨registered first, fun type => (attempt world first type).text, hleast, ?_, ?_⟩
  · intro type htype hfresh
    have hnone := not_mem_registered.mp hfresh
    rcases attempt_cases (hprobe type htype) (hadd type htype) hnone with
      ⟨after, hregistered⟩ | ⟨text, hunresolved, htext⟩
    · obtain ⟨text, hunresolved, -⟩ := hfirst.tried type (mem_freshTypes.mpr ⟨htype, hnone⟩)
      rw [hregistered] at hunresolved
      cases hunresolved
    · simpa [hunresolved, Attempt.text] using htext
  · intro order horder
    obtain ⟨after, others, hreturned, hafter⟩ := hsettles order horder
    -- Both runs end in the least set, and there is one.
    have hsame : registered after = registered first := by
      have hother := hafter.isLeast hstate fun type htype => hadd type (horder.mem_iff.mp htype)
      rw [ready_of_perm horder] at hother
      exact hother.unique hleast
    refine ⟨after, others, hreturned, hsame, hafter.noted.distinct, ?_⟩
    intro name message
    rw [hafter.lookup_iff, hsame]
    -- A type that no order registers is refused over the same set, so with the same text.
    have htext : ∀ type ∈ order, type ∉ registered first →
        (attempt world after type).text = (attempt world first type).text := by
      intro type htype hfresh
      rw [← hsame] at hfresh
      have hnone := not_mem_registered.mp hfresh
      obtain ⟨text, hunresolved, -⟩ := hafter.tried type (mem_freshTypes.mpr ⟨htype, hnone⟩)
      rw [hunresolved, hafter.same_text hfirst hstate hsame hnone hunresolved]
    constructor
    · rintro ⟨type, htype, hfresh, hname, hmessage⟩
      exact ⟨type, htype, hfresh, hname, (htext type htype hfresh).symm.trans hmessage⟩
    · rintro ⟨type, htype, hfresh, hname, hmessage⟩
      exact ⟨type, htype, hfresh, hname, (htext type htype hfresh).trans hmessage⟩

/-! ## Structures with fields of one type -/

theorem fieldLayout_of_valid {probe : Probe} {part : Part} {names seen : List Bytes}
    (hvalid : ∀ name ∈ names, validName name = true) (hnodup : names.Nodup)
    (hseen : ∀ name ∈ names, name ∉ seen)
    (hmember : ∀ name, probe.member name = .ok (some part)) :
    fieldLayout probe names seen = some (names.map fun name => (name, part)) := by
  induction names generalizing seen with
  | nil => rfl
  | cons name rest ih =>
      obtain ⟨hname, hrest⟩ := List.forall_mem_cons.mp hvalid
      obtain ⟨hfresh, hrestNodup⟩ := List.nodup_cons.mp hnodup
      have hok : ¬ (name.isEmpty ∨ validUtf8 name = false ∨ name ∈ seen) := by
        simp only [validName, Bool.and_eq_true, Bool.not_eq_true'] at hname
        simp [hname.1.1.1, hname.1.2, hseen name List.mem_cons_self]
      rw [fieldLayout, if_neg hok, hmember]
      simp only
      rw [ih hrest hrestNodup]
      · rfl
      · intro other hother
        simp only [List.mem_cons, not_or]
        refine ⟨?_, hseen other (List.mem_cons_of_mem name hother)⟩
        exact fun heq => hfresh (heq ▸ hother)

/-- The descriptor of a structure, as a protocol stores it. -/
theorem normalize_recordDescriptor (fields : List (Bytes × Bytes)) :
    JsonObject.set (JsonObject.set (recordDescriptor fields) (bytes "jsonSupported") (.bool true))
      (bytes "reason") .null =
    recordDescriptor fields ++ [(bytes "jsonSupported", .bool true), (bytes "reason", .null)] := by
  rfl

theorem fieldReferences_of_valid {type : Bytes} {names seen references : List Bytes}
    (hvalid : ∀ name ∈ names, validName name = true) (htype : validName type = true)
    (hnodup : names.Nodup) (hseen : ∀ name ∈ names, name ∉ seen) :
    fieldReferences (names.map fun name => .object
      [(bytes "name", .string name), (bytes "rttType", .string type)]) seen references =
      some (List.replicate names.length type ++ references) := by
  induction names generalizing seen references with
  | nil => rfl
  | cons name rest ih =>
      obtain ⟨hname, hrest⟩ := List.forall_mem_cons.mp hvalid
      obtain ⟨hfresh, hrestNodup⟩ := List.nodup_cons.mp hnodup
      have hfirst : nameMember [(bytes "name", .string name), (bytes "rttType", .string type)]
          (bytes "name") = some name := by
        have : JsonObject.find? [(bytes "name", Json.string name), (bytes "rttType", .string type)]
          (bytes "name") = some (.string name) := rfl
        simp [nameMember, this, hname]
      have hsecond : nameMember [(bytes "name", .string name), (bytes "rttType", .string type)]
          (bytes "rttType") = some type := by
        have : JsonObject.find? [(bytes "name", Json.string name), (bytes "rttType", .string type)]
          (bytes "rttType") = some (.string type) := rfl
        simp [nameMember, this, htype]
      rw [List.map_cons, fieldReferences, hfirst, hsecond]
      simp only [hseen name List.mem_cons_self, if_false]
      rw [ih hrest hrestNodup]
      · rw [List.length_cons, List.replicate_succ', List.append_assoc, List.singleton_append]
      · intro other hother
        simp only [List.mem_cons, not_or]
        refine ⟨?_, hseen other (List.mem_cons_of_mem name hother)⟩
        exact fun heq => hfresh (heq ▸ hother)

/-! ## The limits of the rule -/

/-- The rule of reflection without the limits of a protocol and of the registry. -/
structure Qualifies (world : World Codec) (pending : List TypeId) (state : State formatter Codec)
    (known : Set TypeId) (type : TypeId) : Prop where
  pending : type ∈ pending
  free : state.slots type = none
  layout : ∃ layout, layoutOf (world.probe type) = some layout ∧
    (∀ part ∈ layout.parts, Usable world.typeName known part) ∧
    validateRegistration (normalize (layout.registration world.typeName type)) = .ok ()

/-- Reflection returns, with the least set that is closed under the rule. -/
def ReturnsLeast (world : World Codec) (state : State formatter Codec)
    (types : List (Option TypeId)) : Prop :=
  ∃ after notes, registerReflectedTypeProtocols world state types = .returned after notes ∧
    IsLeast {known | Closed (Qualifies world (pendingTypes world state types) state)
      (registered state) known} (registered after)

theorem not_returnsLeast {world : World Codec} {state : State formatter Codec}
    {types : List (Option TypeId)} {type : TypeId} (hstate : Consistent world.typeName state)
    (hqualifies : Qualifies world (pendingTypes world state types) state (registered state) type)
    (hready : ∀ known, ¬ Ready world (pendingTypes world state types) state known type) :
    ¬ ReturnsLeast world state types := by
  rintro ⟨after, notes, hreturned, hleast, -⟩
  have hfresh : ∀ type ∈ pendingTypes world state types, state.registrations.lookup type = none :=
    fun type htype => fresh_pendingTypes hstate htype
  obtain ⟨found, hfound, hregisters⟩ : ∃ found,
      (registerReflectedTypeProtocols world state types).state? = some found ∧
        Registers world (pendingTypes world state types) state found :=
    reflectLoop_registers (Nat.lt_succ_self _) (nodup_pendingTypes world state types) hfresh
  rw [hreturned] at hfound
  cases hfound
  have hmem : type ∈ registered after := by
    obtain ⟨layout, hlayout, husable, hvalid⟩ := hqualifies.layout
    refine hleast.closed type ⟨hqualifies.pending, hqualifies.free, layout, hlayout, ?_, hvalid⟩
    intro part hpart
    obtain ⟨hassignable, member, hmember, hrest⟩ := husable part hpart
    exact ⟨hassignable, member, hleast.base hmember, hrest⟩
  rcases (hregisters.reached hstate).grows.ready_of_mem hmem with hbase | ⟨known, hknown⟩
  · exact not_mem_registered.mpr (hfresh type hqualifies.pending) hbase
  · exact hready known hknown

section Samples

/-- A structure whose fields all have one type. -/
def recordProbe (factory : Probed Bool) (names : List Bytes) : Probe where
  memberFactory := factory
  buildValue := .ok (some true)
  element := .ok none
  size := .ok none
  resize := .ok false
  sizeAgain := .ok 0
  memberNames := .ok names
  member _ := .ok (some ⟨some 1, true⟩)

def recordWorld (probe : Probe) : World Unit where
  typeName type := if type = 1 then bytes "Bool" else bytes "Record"
  probe _ := probe
  codec _ := ()
  allocate type := type
  addProtocol _ := .stored

/-- The fields of the structure. -/
def recordFields (names : List Bytes) : Layout :=
  .record (names.map fun name => (name, ⟨some 1, true⟩))

theorem layoutOf_recordProbe {names : List Bytes} (hnames : names ≠ [])
    (hvalid : ∀ name ∈ names, validName name = true) (hnodup : names.Nodup) :
    layoutOf (recordProbe (.ok true) names) = some (recordFields names) := by
  have hrecord : layoutOf (recordProbe (.ok true) names) =
      recordLayout (recordProbe (.ok true) names) := rfl
  rw [hrecord]
  simp only [recordLayout, recordProbe, List.isEmpty_iff, hnames, if_false]
  rw [fieldLayout_of_valid hvalid hnodup (by simp) (fun _ => rfl)]
  rfl

/-- The descriptor of the structure, as a protocol stores it. -/
theorem descriptor_recordFields (names : List Bytes) (probe : Probe) :
    (normalize ((recordFields names).registration (recordWorld probe).typeName 2)).descriptor =
      recordDescriptor (names.map fun name => (name, bytes "Bool")) ++
        [(bytes "jsonSupported", .bool true), (bytes "reason", .null)] := by
  have hfields : (recordFields names).descriptor (recordWorld probe).typeName =
      recordDescriptor (names.map fun name => (name, bytes "Bool")) := by
    simp only [recordFields, Layout.descriptor, List.map_map]
    rfl
  rw [← normalize_recordDescriptor, ← hfields]
  rfl

theorem valid_recordFields {names : List Bytes}
    (hvalid : ∀ name ∈ names, validName name = true) (hnodup : names.Nodup) (probe : Probe) :
    validateRegistration (normalize ((recordFields names).registration
      (recordWorld probe).typeName 2)) = .ok () := by
  have hreferences : fieldReferences ((names.map fun name => (name, bytes "Bool")).map fun field =>
      .object [(bytes "name", .string field.1), (bytes "rttType", .string field.2)]) [] [] =
      some (List.replicate names.length (bytes "Bool")) := by
    rw [List.map_map]
    rw [← List.append_nil (List.replicate _ _)]
    exact fieldReferences_of_valid hvalid (by decide) hnodup (by simp)
  have hmem : ∀ name, name ∈ (normalize ((recordFields names).registration
      (recordWorld probe).typeName 2)).dependencies ↔
      name ∈ List.replicate names.length (bytes "Bool") := by
    intro name
    rw [mem_normalize_dependencies]
    simp only [Layout.registration, reflectedRegistration, mem_foldl_setInsert, recordFields,
      Layout.parts, List.map_map, List.not_mem_nil, or_false]
    rw [← List.map_const']
    rfl
  have hkind : nameMember (recordDescriptor (names.map fun name => (name, bytes "Bool")) ++
      [(bytes "jsonSupported", .bool true), (bytes "reason", .null)]) (bytes "kind") =
      some (bytes "object") := by
    rfl
  have hfound : JsonObject.find? (recordDescriptor (names.map fun name => (name, bytes "Bool")) ++
      [(bytes "jsonSupported", .bool true), (bytes "reason", .null)]) (bytes "fields") =
      some (.array ((names.map fun name => (name, bytes "Bool")).map fun field => .object
        [(bytes "name", .string field.1), (bytes "rttType", .string field.2)])) := rfl
  have hnone : bytes "object" ≠ bytes "integer" ∧ bytes "object" ≠ bytes "float" ∧
      bytes "object" ≠ bytes "string" ∧ bytes "object" ≠ bytes "enum" ∧
      bytes "object" ≠ bytes "array" := by decide
  have hall : (identityParts (normalize ((recordFields names).registration
      (recordWorld probe).typeName 2))).all validName = true := by
    change (identityParts (reflectedRegistration (reflectionIdentity (bytes "Record"))
      (bytes "Record") [] [])).all validName = true
    decide
  rw [validateRegistration, if_pos hall, descriptor_recordFields, hkind]
  simp only [descriptorReferences, hnone, or_self, if_false, hfound, hreferences, if_true]
  apply if_pos
  exact ⟨fun name hname => (hmem name).mpr hname, fun name hname => (hmem name).mp hname⟩

/-- Registering a type frees no room for a second one and leaves the others as they are. -/
theorem boolHistory_run (probe : Probe) :
    Machine.run (step (recordWorld probe).typeName) { slots := fun _ => none } boolHistory =
      some (State.added { slots := fun _ => none } 1 (boolProtocol.withCodec ())) :=
  run_stored rfl rfl boolProtocol_valid rfl rfl rfl _

theorem boolHistory_freeze (probe : Probe) :
    ∃ state, Machine.run (step (recordWorld probe).typeName) { slots := fun _ => none }
        (boolHistory ++ [.freeze false]) = some state ∧ state.frozen = true ∧
      state.registrations = [(1, boolProtocol.withCodec ())] ∧ state.slots 2 = none := by
  rw [Machine.run_append, boolHistory_run]
  have hfreeze := (Prod.mk.eta (p := freezeTypeCatalog (recordWorld probe).typeName
    (State.added { slots := fun _ => none } 1 (boolProtocol.withCodec ())) false)).symm
  rcases freezeTypeCatalog_cases hfreeze with ⟨hfrozen, -⟩ | ⟨-, hfrozen, hentries, hslots, -⟩
  · cases hfrozen
  · refine ⟨_, rfl, hfrozen, hentries, ?_⟩
    exact congrFun hslots 2

theorem descriptor_of_fingerprint {registration : TypeRegistration} {text : Bytes}
    (h : fingerprint formatter registration = .ok text) :
    ∃ found, serializeJson formatter.double (.object registration.descriptor) fingerprintLimits =
      .ok found := by
  unfold fingerprint at h
  split at h
  next => cases h
  next found hfound => exact ⟨found, hfound⟩

theorem length_le_quoted (text : Bytes) : text.length ≤ (quoted text).length := by
  have hescape : text.length ≤ (text.flatMap escapeByte).length := by
    induction text with
    | nil => simp
    | cons c rest ih =>
        rw [List.flatMap_cons, List.length_append, List.length_cons]
        rcases escapeByte_cases c with ⟨hform, -⟩ | ⟨letter, hform, -⟩ | ⟨a, b, hform, -⟩
        all_goals
          rw [hform]
          simp only [List.length_cons, List.length_nil]
          omega
  simp only [quoted, List.length_cons, List.length_append]
  omega

/-- A descriptor is at least as long as the names of its fields. -/
theorem length_serialize_recordDescriptor (double : Double → Bytes) (fields : List (Bytes × Bytes))
    (more : JsonObject) :
    (fields.map fun field => field.1.length).sum ≤
      (serialize double (.object (recordDescriptor fields ++ more))).length := by
  have hfields : (fields.map fun field => field.1.length).sum ≤
      ((fields.map fun field => Json.object [(bytes "name", .string field.1),
        (bytes "rttType", .string field.2)]).map fun item => (serialize double item).length).sum := by
    rw [List.map_map]
    apply List.sum_le_sum
    intro field _
    have hname := length_le_quoted field.1
    simp only [Function.comp, serialize, serializeMembers, List.length_cons, List.length_append]
    omega
  refine hfields.trans ?_
  simp only [recordDescriptor, List.cons_append, List.nil_append, serialize, List.length_cons,
    List.length_append, length_serializeMembers, List.map_cons, List.sum_cons, memberLength,
    length_serializeItems]
  omega

/-- Names that are valid one by one, but too long together for a descriptor. -/
def longNames : List Bytes := (List.range 100).map fun index => List.replicate (900 + index) 0x61

theorem longNames_valid : ∀ name ∈ longNames, validName name = true := by
  intro name hname
  obtain ⟨index, hindex, rfl⟩ := List.mem_map.mp hname
  have hsmall := List.mem_range.mp hindex
  have hletter : ∀ c ∈ List.replicate (900 + index) 0x61, c = (0x61 : UInt8) :=
    fun c hc => List.eq_of_mem_replicate hc
  have hutf8 : validUtf8 (List.replicate (900 + index) 0x61) = true := by
    apply validUtf8_ascii
    intro c hc
    rw [hletter c hc]
    decide
  have hzero : (List.replicate (900 + index) (0x61 : UInt8)).contains 0 = false := by
    rw [← Bool.not_eq_true, List.contains_iff_mem]
    intro hmem
    exact absurd (hletter 0 hmem) (by decide)
  simp only [validName, hutf8, hzero, List.isEmpty_replicate, List.length_replicate]
  simp only [Bool.and_true, Bool.not_false, Bool.and_eq_true, decide_eq_true_eq,
    Bool.not_eq_true', decide_eq_false_iff_not]
  omega

theorem longNames_nodup : longNames.Nodup := by
  apply List.Nodup.map _ List.nodup_range
  intro first second heq
  have hlength := congrArg List.length heq
  simp only [List.length_replicate] at hlength
  omega

theorem length_longNames : (longNames.map List.length).sum = 94950 := by
  have hlengths : longNames.map List.length = (List.range 100).map (900 + ·) := by
    simp [longNames, Function.comp_def]
  rw [hlengths]
  decide

/-- The constructor of a protocol throws for the structure with these names. -/
theorem longNames_not_constructed (probe : Probe) {text : Bytes} :
    fingerprint formatter (normalize ((recordFields longNames).registration
      (recordWorld probe).typeName 2)) ≠ .ok text := by
  intro h
  obtain ⟨found, hfound⟩ := descriptor_of_fingerprint h
  obtain ⟨rfl, hlength⟩ := serializeJson_ok hfound
  rw [descriptor_recordFields] at hlength
  have hlong := length_serialize_recordDescriptor formatter.double
    (longNames.map fun name => (name, bytes "Bool"))
    [(bytes "jsonSupported", .bool true), (bytes "reason", .null)]
  rw [List.map_map] at hlong
  have hsum := length_longNames
  have hlimit : fingerprintLimits.maxDocumentBytes = 65536 := rfl
  change (longNames.map List.length).sum ≤ _ at hlong
  omega

section State

variable {state : State plainFormatter Unit} {names : List Bytes}
  (hentries : state.registrations = [(1, boolProtocol.withCodec ())])

include hentries

theorem pendingTypes_record (probe : Probe) :
    pendingTypes (recordWorld probe) state [some 2] = [2] := by
  have hfresh : state.registrations.lookup 2 = none := by
    rw [hentries]
    rfl
  have hname : (recordWorld probe).typeName 2 ≠ bytes "unknown_t" := by
    change bytes "Record" ≠ bytes "unknown_t"
    decide
  have hpending : isPending (recordWorld probe) state 2 = true := by
    simpa [isPending, registeredTypeCodec, hfresh] using hname
  simp [pendingTypes, List.reduceOption_cons_of_some, List.reduceOption_nil, hpending]

/-- The structure satisfies the rule once its fields do. -/
theorem qualifies_record (hslot : state.slots 2 = none) (hnames : names ≠ [])
    (hvalid : ∀ name ∈ names, validName name = true) (hnodup : names.Nodup) :
    Qualifies (recordWorld (recordProbe (.ok true) names))
      (pendingTypes (recordWorld (recordProbe (.ok true) names)) state [some 2]) state
      (registered state) 2 := by
  refine ⟨?_, hslot, recordFields names, layoutOf_recordProbe hnames hvalid hnodup, ?_,
    valid_recordFields hvalid hnodup _⟩
  · rw [pendingTypes_record hentries]
    exact List.mem_singleton_self 2
  · intro part hpart
    obtain ⟨name, -, rfl⟩ := by simpa [recordFields, Layout.parts] using hpart
    have hname : bytes "Bool" ≠ bytes "Void" := by decide
    refine ⟨rfl, 1, ?_, rfl, hname⟩
    change (state.registrations.lookup 1).isSome
    rw [hentries]
    rfl

end State

theorem reflection_limits :
    (∃ state, Machine.run (step (recordWorld (recordProbe (.ok true) [bytes "flag"])).typeName)
        { slots := fun _ => none } (boolHistory ++ [.freeze false]) = some state ∧
      ¬ ReturnsLeast (recordWorld (recordProbe (.ok true) [bytes "flag"])) state [some 2]) ∧
    (∃ state, Machine.run (step (recordWorld (recordProbe (.ok true) longNames)).typeName)
        { slots := fun _ => none } boolHistory = some state ∧
      ¬ ReturnsLeast (recordWorld (recordProbe (.ok true) longNames)) state [some 2]) ∧
    ∃ state, Machine.run (step (recordWorld (recordProbe (.error .foreign) [])).typeName)
        { slots := fun _ => none } boolHistory = some state ∧
      ¬ ReturnsLeast (recordWorld (recordProbe (.error .foreign) [])) state [some 2] := by
  refine ⟨?_, ⟨_, boolHistory_run _, ?_⟩, _, boolHistory_run _, ?_⟩
  · obtain ⟨state, hrun, hfrozen, hentries, hslot⟩ :=
      boolHistory_freeze (recordProbe (.ok true) [bytes "flag"])
    refine ⟨state, hrun, ?_⟩
    apply not_returnsLeast ((Consistent.initial _ _).run hrun).1
      (qualifies_record hentries hslot (by simp) (by decide) (by simp))
    intro known hready
    exact absurd (hfrozen.symm.trans hready.unfrozen) (by decide)
  · apply not_returnsLeast ((Consistent.initial _ _).run (boolHistory_run _)).1
      (qualifies_record rfl rfl (by decide) longNames_valid longNames_nodup)
    intro known hready
    obtain ⟨layout, hlayout⟩ := hready.layout
    obtain rfl : recordFields longNames = layout :=
      Option.some.inj ((layoutOf_recordProbe (by decide) longNames_valid longNames_nodup).symm.trans
        hlayout.probed)
    obtain ⟨text, htext⟩ := hlayout.constructed
    exact longNames_not_constructed _ htext
  · rintro ⟨after, notes, hreturned, -⟩
    have hescaped : registerReflectedTypeProtocols (recordWorld (recordProbe (.error .foreign) []))
        (State.added { slots := fun _ => none } 1 (boolProtocol.withCodec ())) [some 2] =
        .escaped (State.added { slots := fun _ => none } 1 (boolProtocol.withCodec ())) := rfl
    rw [hescaped] at hreturned
    cases hreturned

/-- A structure of one field. -/
def fieldProbe (name : String) (type : TypeId) : Probe :=
  { recordProbe (.ok true) [bytes name] with member := fun _ => .ok (some ⟨some type, true⟩) }

/-- Two structures, of which the first in the order of addresses holds the other. -/
def nestedWorld : World Unit where
  typeName type :=
    if type = 1 then bytes "Bool" else if type = 2 then bytes "Outer" else bytes "Inner"
  probe type := if type = 2 then fieldProbe "inner" 3 else fieldProbe "flag" 1
  codec _ := ()
  allocate type := type
  addProtocol _ := .stored

/-- The registry with the one canonical type. -/
def boolState : State plainFormatter Unit :=
  State.added { slots := fun _ => none } 1 (boolProtocol.withCodec ())

theorem boolState_run :
    Machine.run (step nestedWorld.typeName) { slots := fun _ => none } boolHistory =
      some boolState :=
  run_stored rfl rfl boolProtocol_valid rfl rfl rfl _

theorem nestedWorld_standard (type : TypeId) : (nestedWorld.probe type).Standard := by
  unfold nestedWorld
  dsimp only
  split
  next => exact ⟨nofun, nofun, nofun, nofun, nofun, nofun, nofun, nofun⟩
  next => exact ⟨nofun, nofun, nofun, nofun, nofun, nofun, nofun, nofun⟩

theorem pendingTypes_nested : pendingTypes nestedWorld boolState [some 2, some 3] = [2, 3] := by
  decide +kernel

/-- The types that are registered in the end. -/
def Outcome.types (outcome : Outcome plainFormatter Unit) : Option (List TypeId) :=
  outcome.state?.map fun state => state.registrations.map Prod.fst

theorem types_nested : (reflectLoop nestedWorld 3 [2, 3] boolState []).types = some [1, 2, 3] := by
  decide +kernel

theorem reflection_confluent_nested :
    ∃ after notes later others,
      Machine.run (step nestedWorld.typeName) { slots := fun _ => none } boolHistory =
        some boolState ∧
      reflectLoop nestedWorld 3 [2, 3] boolState [] = .returned after notes ∧
      reflectLoop nestedWorld 3 [3, 2] boolState [] = .returned later others ∧
      registered after = registered later ∧
      IsLeast {known | Closed (Ready nestedWorld [2, 3] boolState) (registered boolState) known}
        (registered after) ∧
      after.registrations.map Prod.fst = [1, 2, 3] := by
  obtain ⟨known, text, hleast, -, horder⟩ := reflection_confluent boolState_run [some 2, some 3]
    (by rw [pendingTypes_nested]; decide) (fun type _ => nestedWorld_standard type)
    (fun type _ => rfl)
  rw [pendingTypes_nested] at hleast horder
  obtain ⟨after, notes, hfirst, hknown, -⟩ := horder [2, 3] (List.Perm.refl _)
  obtain ⟨later, others, hsecond, hsame, -⟩ := horder [3, 2] (List.Perm.swap 2 3 [])
  have htypes := types_nested
  rw [← hknown] at hleast
  refine ⟨after, notes, later, others, boolState_run, hfirst, hsecond, hknown.trans hsame.symm,
    hleast, ?_⟩
  rw [show reflectLoop nestedWorld 3 [2, 3] boolState [] = _ from hfirst] at htypes
  exact Option.some.inj htypes

end Samples

end RttHttp.Registry
