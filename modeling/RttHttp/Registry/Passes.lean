import RttHttp.Registry.Attempt

/-! # Passes over the pending types

A run of the reflection loop registers one pending type after the other. What a
pass keeps is what is not registered at its end, and a pass without progress has
tried everything on one state.
-/

namespace RttHttp.Registry

variable {formatter : Formatter} {Codec : Type}

/-- The types with an entry. -/
def registered (state : State formatter Codec) : Set TypeId :=
  {type | (state.registrations.lookup type).isSome}

theorem not_mem_registered {state : State formatter Codec} {type : TypeId} :
    type ∉ registered state ↔ state.registrations.lookup type = none :=
  Option.not_isSome_iff_eq_none

theorem Consistent.coded_eq {typeName : TypeId → Bytes} {state : State formatter Codec}
    (h : Consistent typeName state) :
    coded (Registry.registeredTypeCodec state) = registered state := by
  ext type
  change (Registry.registeredTypeCodec state (some type)).isSome ↔
    (state.registrations.lookup type).isSome
  cases hlookup : state.registrations.lookup type with
  | none => simp [Registry.registeredTypeCodec, hlookup]
  | some protocol => simp [h.registeredTypeCodec hlookup]

/-- The states that attempts on types of a list lead to. -/
inductive Registers (world : World Codec) (types : List TypeId) (state : State formatter Codec) :
    State formatter Codec → Prop
  | refl : Registers world types state state
  | step {mid after : State formatter Codec} {type : TypeId}
      (hmid : Registers world types state mid) (htype : type ∈ types)
      (hfresh : mid.registrations.lookup type = none)
      (hattempt : attempt world mid type = .registered after) : Registers world types state after

section Chains

variable {world : World Codec} {types : List TypeId} {state mid after : State formatter Codec}

theorem Registers.mono {more : List TypeId} (h : Registers world types state after)
    (hsubset : types ⊆ more) : Registers world more state after := by
  induction h with
  | refl => exact .refl
  | step _ htype hfresh hattempt ih => exact .step ih (hsubset htype) hfresh hattempt

theorem Registers.trans (hfirst : Registers world types state mid)
    (hsecond : Registers world types mid after) : Registers world types state after := by
  induction hsecond with
  | refl => exact hfirst
  | step _ htype hfresh hattempt ih => exact .step ih htype hfresh hattempt

/-- One registration, as seen from the entries. -/
theorem lookup_of_attempt {type : TypeId} (hfresh : mid.registrations.lookup type = none)
    (hattempt : attempt world mid type = .registered after) :
    ∃ protocol, ∀ other, after.registrations.lookup other =
      if other = type then some protocol else mid.registrations.lookup other := by
  obtain ⟨layout, protocol, -, -, -, -, -, rfl⟩ := attempt_registered hfresh hattempt
  refine ⟨protocol, ?_⟩
  intro other
  split
  next heq => rw [heq, State.added, OrderedMap.lookup_emplace_self, hfresh, Option.getD_none]
  next hne => exact OrderedMap.lookup_emplace_ne hne

/-- Entries stay. -/
theorem Registers.entries (h : Registers world types state after) {type : TypeId}
    {protocol : TypeProtocol formatter Codec}
    (hentry : state.registrations.lookup type = some protocol) :
    after.registrations.lookup type = some protocol := by
  induction h with
  | refl => exact hentry
  | step _ _ hfresh hattempt ih =>
      obtain ⟨added, hlookup⟩ := lookup_of_attempt hfresh hattempt
      rw [hlookup, if_neg, ih]
      intro heq
      rw [heq, hfresh] at ih
      cases ih

/-- Only types of the list get entries. -/
theorem Registers.others (h : Registers world types state after) {type : TypeId}
    (htype : type ∉ types) :
    after.registrations.lookup type = state.registrations.lookup type := by
  induction h with
  | refl => rfl
  | step _ hmem hfresh hattempt ih =>
      obtain ⟨added, hlookup⟩ := lookup_of_attempt hfresh hattempt
      rw [hlookup, if_neg, ih]
      exact fun heq => htype (heq ▸ hmem)

end Chains

/-! ## One pass -/

section Pass

variable {world : World Codec} {type : TypeId} {rest : List TypeId}
  {loop : Reflection formatter Codec}

theorem reflectPass_registered {state : State formatter Codec}
    (h : attempt world loop.state type = .registered state) :
    reflectPass world (type :: rest) loop =
      reflectPass world rest (loop.resolve (world.typeName type) state) := by
  simp only [reflectPass, h]

theorem reflectPass_unresolved {text : Bytes}
    (h : attempt world loop.state type = .unresolved text) :
    reflectPass world (type :: rest) loop =
      reflectPass world rest (loop.keep type (world.typeName type) text) := by
  simp only [reflectPass, h]

theorem reflectPass_escaped (h : attempt world loop.state type = .escaped) :
    reflectPass world (type :: rest) loop = .error loop.state := by
  simp only [reflectPass, h]

/-- The state that a pass leaves behind, also when an exception ends it. -/
def passState : Except (State formatter Codec) (Reflection formatter Codec) →
    State formatter Codec
  | .ok loop => loop.state
  | .error state => state

/-- A registered type leaves the rest of the pass fresh. -/
theorem fresh_rest {state : State formatter Codec} (hnodup : (type :: rest).Nodup)
    (hfresh : ∀ other ∈ type :: rest, loop.state.registrations.lookup other = none)
    (hattempt : attempt world loop.state type = .registered state) :
    ∀ other ∈ rest, state.registrations.lookup other = none := by
  obtain ⟨hhead, hrest⟩ := List.forall_mem_cons.mp hfresh
  obtain ⟨protocol, hlookup⟩ := lookup_of_attempt hhead hattempt
  intro other hother
  rw [hlookup, if_neg, hrest other hother]
  exact fun heq => (List.nodup_cons.mp hnodup).1 (heq ▸ hother)

theorem reflectPass_registers (loop : Reflection formatter Codec) (hnodup : rest.Nodup)
    (hfresh : ∀ other ∈ rest, loop.state.registrations.lookup other = none) :
    Registers world rest loop.state (passState (reflectPass world rest loop)) := by
  induction rest generalizing loop with
  | nil => exact .refl
  | cons type rest ih =>
      obtain ⟨-, hrestNodup⟩ := List.nodup_cons.mp hnodup
      obtain ⟨hhead, hrest⟩ := List.forall_mem_cons.mp hfresh
      cases hattempt : attempt world loop.state type with
      | registered state =>
          rw [reflectPass_registered hattempt]
          have hnext := ih (loop.resolve (world.typeName type) state) hrestNodup
            (fresh_rest hnodup hfresh hattempt)
          exact (Registers.step .refl List.mem_cons_self hhead hattempt).trans
            (hnext.mono (List.subset_cons_self type rest))
      | unresolved text =>
          rw [reflectPass_unresolved hattempt]
          exact (ih (loop.keep type (world.typeName type) text) hrestNodup hrest).mono
            (List.subset_cons_self type rest)
      | escaped =>
          rw [reflectPass_escaped hattempt]
          exact .refl

theorem registers_of_reflectPass {loop result : Reflection formatter Codec}
    (h : reflectPass world rest loop = .ok result) (hnodup : rest.Nodup)
    (hfresh : ∀ other ∈ rest, loop.state.registrations.lookup other = none) :
    Registers world rest loop.state result.state := by
  have hregisters : Registers world rest loop.state (passState (reflectPass world rest loop)) :=
    reflectPass_registers loop hnodup hfresh
  rwa [h] at hregisters

/-- What stays pending is what has no entry at the end of the pass. -/
theorem reflectPass_kept (loop : Reflection formatter Codec) {result : Reflection formatter Codec}
    (hnodup : rest.Nodup) (hfresh : ∀ other ∈ rest, loop.state.registrations.lookup other = none)
    (h : reflectPass world rest loop = .ok result) :
    result.kept = loop.kept ++
      rest.filter fun type => (result.state.registrations.lookup type).isNone := by
  induction rest generalizing loop with
  | nil =>
      cases h
      simp
  | cons type rest ih =>
      obtain ⟨htype, hrestNodup⟩ := List.nodup_cons.mp hnodup
      obtain ⟨hhead, hrest⟩ := List.forall_mem_cons.mp hfresh
      cases hattempt : attempt world loop.state type with
      | registered state =>
          rw [reflectPass_registered hattempt] at h
          have hfreshRest := fresh_rest hnodup hfresh hattempt
          rw [ih (loop.resolve (world.typeName type) state) hrestNodup hfreshRest h]
          -- The type has an entry now, and entries stay.
          obtain ⟨protocol, hlookup⟩ := lookup_of_attempt hhead hattempt
          have hentry := (registers_of_reflectPass h hrestNodup hfreshRest).entries
            ((hlookup type).trans (if_pos rfl))
          rw [List.filter_cons_of_neg (by simp [hentry])]
          rfl
      | unresolved text =>
          rw [reflectPass_unresolved hattempt] at h
          rw [ih (loop.keep type (world.typeName type) text) hrestNodup hrest h]
          have hstill := (registers_of_reflectPass h hrestNodup hrest).others htype
          have hnone : result.state.registrations.lookup type = none := hstill.trans hhead
          rw [List.filter_cons_of_pos (by simp [hnone])]
          simp [Reflection.keep]
      | escaped =>
          rw [reflectPass_escaped hattempt] at h
          cases h

/-- A pass that reports no progress had no progress before it either. -/
theorem reflectPass_progress (loop : Reflection formatter Codec)
    {result : Reflection formatter Codec} (h : reflectPass world rest loop = .ok result)
    (hprogress : loop.progress = true) : result.progress = true := by
  induction rest generalizing loop with
  | nil =>
      cases h
      exact hprogress
  | cons type rest ih =>
      cases hattempt : attempt world loop.state type with
      | registered state =>
          rw [reflectPass_registered hattempt] at h
          exact ih _ h rfl
      | unresolved text =>
          rw [reflectPass_unresolved hattempt] at h
          exact ih _ h hprogress
      | escaped =>
          rw [reflectPass_escaped hattempt] at h
          cases h

/-- Progress means that one of the types has an entry now. -/
theorem exists_entry_of_progress (loop : Reflection formatter Codec)
    {result : Reflection formatter Codec} (hnodup : rest.Nodup)
    (hfresh : ∀ other ∈ rest, loop.state.registrations.lookup other = none)
    (h : reflectPass world rest loop = .ok result) (hbefore : loop.progress = false)
    (hprogress : result.progress = true) :
    ∃ type ∈ rest, result.state.registrations.lookup type ≠ none := by
  induction rest generalizing loop with
  | nil =>
      cases h
      rw [hbefore] at hprogress
      cases hprogress
  | cons type rest ih =>
      obtain ⟨-, hrestNodup⟩ := List.nodup_cons.mp hnodup
      obtain ⟨hhead, hrest⟩ := List.forall_mem_cons.mp hfresh
      cases hattempt : attempt world loop.state type with
      | registered state =>
          rw [reflectPass_registered hattempt] at h
          obtain ⟨protocol, hlookup⟩ := lookup_of_attempt hhead hattempt
          have hentry := (registers_of_reflectPass h hrestNodup
            (fresh_rest hnodup hfresh hattempt)).entries ((hlookup type).trans (if_pos rfl))
          exact ⟨type, List.mem_cons_self, by simp [hentry]⟩
      | unresolved text =>
          rw [reflectPass_unresolved hattempt] at h
          obtain ⟨other, hother, hentry⟩ :=
            ih (loop.keep type (world.typeName type) text) hrestNodup hrest h hbefore
          exact ⟨other, List.mem_cons_of_mem type hother, hentry⟩
      | escaped =>
          rw [reflectPass_escaped hattempt] at h
          cases h

/-! ## Diagnostics -/

theorem lookup_noteUnresolved_self (unresolved : List (Bytes × Bytes)) (name text : Bytes) :
    (noteUnresolved unresolved name text).lookup name = some text := by
  have habsent : (unresolved.filter fun entry => entry.1 ≠ name).lookup name = none := by
    rw [List.lookup_eq_none_iff]
    intro entry hentry
    have hne : entry.1 ≠ name := of_decide_eq_true (List.mem_filter.mp hentry).2
    exact bne_iff_ne.mpr hne.symm
  rw [noteUnresolved, OrderedMap.lookup_emplace_self, habsent, Option.getD_none]

theorem lookup_filter_ne {entries : List (Bytes × Bytes)} {name other : Bytes} (hne : other ≠ name) :
    (entries.filter fun entry => entry.1 ≠ name).lookup other = entries.lookup other := by
  induction entries with
  | nil => rfl
  | cons entry rest ih =>
      obtain ⟨key, value⟩ := entry
      by_cases heq : key = name
      · have hbeq : (other == key) = false := by simpa [heq] using hne
        rw [List.filter_cons_of_neg (by simp [heq]), ih, List.lookup_cons, hbeq]
      · rw [List.filter_cons_of_pos (by simp [heq]), List.lookup_cons, List.lookup_cons, ih]

theorem lookup_noteUnresolved_ne {unresolved : List (Bytes × Bytes)} {name other : Bytes}
    (text : Bytes) (hne : other ≠ name) :
    (noteUnresolved unresolved name text).lookup other = unresolved.lookup other := by
  rw [noteUnresolved, OrderedMap.lookup_emplace_ne hne, lookup_filter_ne hne]

/-- A pass without progress tried every type on the same state, and noted why it
was not registered. -/
theorem reflectPass_still (loop : Reflection formatter Codec)
    {result : Reflection formatter Codec} (hnames : (rest.map world.typeName).Nodup)
    (h : reflectPass world rest loop = .ok result) (hprogress : result.progress = false) :
    result.state = loop.state ∧
    (∀ type ∈ rest, ∃ text, attempt world loop.state type = .unresolved text ∧
      result.unresolved.lookup (world.typeName type) = some text) ∧
    ∀ name, name ∉ rest.map world.typeName →
      result.unresolved.lookup name = loop.unresolved.lookup name := by
  induction rest generalizing loop with
  | nil =>
      cases h
      exact ⟨rfl, by simp, fun _ _ => rfl⟩
  | cons type rest ih =>
      obtain ⟨htype, hrestNames⟩ := List.nodup_cons.mp hnames
      cases hattempt : attempt world loop.state type with
      | registered state =>
          rw [reflectPass_registered hattempt] at h
          rw [reflectPass_progress _ h rfl] at hprogress
          cases hprogress
      | unresolved text =>
          rw [reflectPass_unresolved hattempt] at h
          obtain ⟨hstate, hnoted, hothers⟩ := ih _ hrestNames h
          refine ⟨hstate, List.forall_mem_cons.mpr ⟨⟨text, hattempt, ?_⟩, hnoted⟩, ?_⟩
          · rw [hothers _ htype]
            exact lookup_noteUnresolved_self ..
          · intro name hname
            obtain ⟨hne, hname⟩ := not_or.mp (fun h => hname (List.mem_cons.mpr h))
            rw [hothers name hname]
            exact lookup_noteUnresolved_ne text hne
      | escaped =>
          rw [reflectPass_escaped hattempt] at h
          cases h

/-- Diagnostics of pending types only, one a name. -/
structure Noted (world : World Codec) (pending : List TypeId) (unresolved : List (Bytes × Bytes)) :
    Prop where
  distinct : (unresolved.map Prod.fst).Nodup
  pending : ∀ entry ∈ unresolved, ∃ type ∈ pending, world.typeName type = entry.1

theorem Noted.filter {pending : List TypeId} {unresolved : List (Bytes × Bytes)} {name : Bytes}
    (h : Noted world pending unresolved) :
    Noted world (pending.filter fun type => world.typeName type ≠ name)
      (unresolved.filter fun entry => entry.1 ≠ name) where
  distinct := h.distinct.sublist (List.filter_sublist.map Prod.fst)
  pending := by
    intro entry hentry
    obtain ⟨hmem, hne⟩ := List.mem_filter.mp hentry
    obtain ⟨type, htype, hname⟩ := h.pending entry hmem
    exact ⟨type, List.mem_filter.mpr ⟨htype, by rwa [hname]⟩, hname⟩

theorem Noted.mono {pending more : List TypeId} {unresolved : List (Bytes × Bytes)}
    (h : Noted world pending unresolved) (hsubset : pending ⊆ more) :
    Noted world more unresolved where
  distinct := h.distinct
  pending := by
    intro entry hentry
    obtain ⟨type, htype, hname⟩ := h.pending entry hentry
    exact ⟨type, hsubset htype, hname⟩

theorem Noted.note {pending : List TypeId} {unresolved : List (Bytes × Bytes)}
    (h : Noted world pending unresolved) (htype : type ∈ pending) (text : Bytes) :
    Noted world pending (noteUnresolved unresolved (world.typeName type) text) where
  distinct := OrderedMap.nodup_keys_emplace (h.distinct.sublist (List.filter_sublist.map Prod.fst))
  pending := by
    intro entry hentry
    rcases OrderedMap.mem_emplace hentry with rfl | hentry
    · exact ⟨type, htype, rfl⟩
    · exact h.pending entry (List.mem_filter.mp hentry).1

theorem reflectPass_noted (loop : Reflection formatter Codec)
    {result : Reflection formatter Codec} (h : reflectPass world rest loop = .ok result)
    (hnoted : Noted world (loop.kept ++ rest) loop.unresolved) :
    Noted world result.kept result.unresolved := by
  induction rest generalizing loop with
  | nil =>
      cases h
      simpa using hnoted
  | cons type rest ih =>
      cases hattempt : attempt world loop.state type with
      | registered state =>
          rw [reflectPass_registered hattempt] at h
          apply ih _ h
          apply hnoted.filter.mono
          intro other hother
          obtain ⟨hmem, hne⟩ := List.mem_filter.mp hother
          -- The name of the registered type has just been erased.
          have hother : other ≠ type := fun heq => of_decide_eq_true hne (by rw [heq])
          simpa [Reflection.resolve, hother] using hmem
      | unresolved text =>
          rw [reflectPass_unresolved hattempt] at h
          apply ih _ h
          apply (hnoted.note (by simp) text).mono
          simp [Reflection.keep]
      | escaped =>
          rw [reflectPass_escaped hattempt] at h
          cases h

/-- No diagnostic is the empty text. -/
def Explained (unresolved : List (Bytes × Bytes)) : Prop :=
  ∀ entry ∈ unresolved, entry.2 ≠ []

theorem reflectPass_explained (loop : Reflection formatter Codec)
    {result : Reflection formatter Codec} (h : reflectPass world rest loop = .ok result)
    (hloop : Explained loop.unresolved) : Explained result.unresolved := by
  induction rest generalizing loop with
  | nil =>
      cases h
      exact hloop
  | cons type rest ih =>
      cases hattempt : attempt world loop.state type with
      | registered state =>
          rw [reflectPass_registered hattempt] at h
          apply ih _ h
          intro entry hentry
          exact hloop entry (List.mem_filter.mp hentry).1
      | unresolved text =>
          rw [reflectPass_unresolved hattempt] at h
          apply ih _ h
          intro entry hentry
          rcases OrderedMap.mem_emplace hentry with rfl | hold
          · exact attempt_unresolved hattempt
          · exact hloop entry (List.mem_filter.mp hold).1
      | escaped =>
          rw [reflectPass_escaped hattempt] at h
          cases h

end Pass

/-! ## The whole loop -/

section Loop

variable {world : World Codec}

/-- The registry that the loop leaves behind, also when an exception ends it. -/
def Outcome.state? : Outcome formatter Codec → Option (State formatter Codec)
  | .returned state _ | .escaped state => some state
  | .outOfFuel => none

/-- The types that a pass leaves pending. -/
def freshTypes (state : State formatter Codec) (types : List TypeId) : List TypeId :=
  types.filter fun type => (state.registrations.lookup type).isNone

theorem mem_freshTypes {state : State formatter Codec} {types : List TypeId} {type : TypeId} :
    type ∈ freshTypes state types ↔ type ∈ types ∧ state.registrations.lookup type = none := by
  simp [freshTypes, List.mem_filter, Option.isNone_iff_eq_none]

/-- A pass with progress leaves fewer types. -/
theorem length_freshTypes_lt {state : State formatter Codec} {types : List TypeId} {type : TypeId}
    (htype : type ∈ types) (hentry : state.registrations.lookup type ≠ none) :
    (freshTypes state types).length < types.length := by
  apply List.length_filter_lt_length_iff_exists.mpr
  exact ⟨type, htype, by simpa [Option.isNone_iff_eq_none] using hentry⟩

/-- What has an entry keeps it, so what is left later was left before. -/
theorem freshTypes_freshTypes {types more : List TypeId} {state after : State formatter Codec}
    (h : Registers world more state after) :
    freshTypes after (freshTypes state types) = freshTypes after types := by
  unfold freshTypes
  rw [List.filter_filter]
  apply List.filter_congr
  intro type _
  cases hlookup : state.registrations.lookup type with
  | none => simp
  | some protocol => simp [h.entries hlookup]

/-- The loop ends, and it only registers pending types. -/
theorem reflectLoop_registers {fuel : Nat} {pending : List TypeId} {state : State formatter Codec}
    {unresolved : List (Bytes × Bytes)} (hfuel : pending.length < fuel) (hnodup : pending.Nodup)
    (hfresh : ∀ type ∈ pending, state.registrations.lookup type = none) :
    ∃ after, (reflectLoop world fuel pending state unresolved).state? = some after ∧
      Registers world pending state after := by
  induction fuel generalizing pending state unresolved with
  | zero => omega
  | succ fuel ih =>
      have hpass : Registers world pending state (passState (reflectPass world pending
          { state := state, unresolved := unresolved })) :=
        reflectPass_registers ⟨state, unresolved, [], false⟩ hnodup hfresh
      unfold reflectLoop
      cases hresult : reflectPass world pending { state := state, unresolved := unresolved } with
      | error after =>
          rw [hresult] at hpass
          exact ⟨after, rfl, hpass⟩
      | ok loop =>
          rw [hresult] at hpass
          dsimp only
          split
          next hprogress =>
            have hkept : loop.kept = freshTypes loop.state pending :=
              reflectPass_kept ⟨state, unresolved, [], false⟩ hnodup hfresh hresult
            obtain ⟨type, htype, hentry⟩ :=
              exists_entry_of_progress ⟨state, unresolved, [], false⟩ hnodup hfresh hresult rfl
                hprogress
            have hshorter := length_freshTypes_lt htype hentry
            rw [hkept]
            have hless : (freshTypes loop.state pending).length < fuel :=
              Nat.lt_of_lt_of_le hshorter (Nat.le_of_lt_succ hfuel)
            obtain ⟨after, hafter, hregisters⟩ := ih hless (hnodup.filter _)
              fun type htype => (mem_freshTypes.mp htype).2
            refine ⟨after, hafter, hpass.trans (hregisters.mono ?_)⟩
            exact fun type htype => (mem_freshTypes.mp htype).1
          next => exact ⟨loop.state, rfl, hpass⟩

theorem reflectLoop_explained {fuel : Nat} {pending : List TypeId}
    {state after : State formatter Codec} {unresolved diagnostics : List (Bytes × Bytes)}
    (hunresolved : Explained unresolved)
    (h : reflectLoop world fuel pending state unresolved = .returned after diagnostics) :
    Explained diagnostics := by
  induction fuel generalizing pending state unresolved with
  | zero => cases h
  | succ fuel ih =>
      unfold reflectLoop at h
      cases hpass : reflectPass world pending { state := state, unresolved := unresolved } with
      | error left =>
          rw [hpass] at h
          cases h
      | ok loop =>
          rw [hpass] at h
          have hloop : Explained loop.unresolved := reflectPass_explained _ hpass hunresolved
          dsimp only at h
          split at h
          next => exact ih hloop h
          next =>
            cases h
            exact hloop

/-- Every diagnostic that automatic reflection returns says something. -/
theorem registerReflectedTypeProtocols_explained {state after : State formatter Codec}
    {types : List (Option TypeId)} {diagnostics : List (Bytes × Bytes)}
    (h : registerReflectedTypeProtocols world state types = .returned after diagnostics) :
    Explained diagnostics :=
  reflectLoop_explained (fun _ hentry => absurd hentry List.not_mem_nil) h

end Loop

end RttHttp.Registry
