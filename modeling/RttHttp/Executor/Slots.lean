import RttHttp.Executor.OutputStorage

/-! # Where collected values are kept

Every collected value of an invocation has a data source: storage of its own or,
where a direct call gives an argument back, the storage of that argument. For a
callable operation the loop that binds them follows no null pointer and reads
nothing out of range.
-/

namespace RttHttp.Executor

open Codec (CodecContext TypeCodec Value)
open Model (Operation OperationPart TypeBinding TypeInfo)
open Server (ServerOptions)

/-- A data source of an invocation: the argument at an index, or the storage that
was made for a collected value. -/
inductive Slot where
  | argument (index : Nat)
  | fresh (i : Nat)
  deriving DecidableEq, Repr

/-- The data source of the collected value `i`, if that is in range. -/
def slot (operation : Operation TypeCodec) (send : Bool) (i : Nat) : Option Slot :=
  if !send && !(operation.hasResult && i == 0) then
    operation.outputs[i - if operation.hasResult then 1 else 0]?.map .argument
  else some (.fresh i)

section Slot

variable {operation : Operation TypeCodec} {i : Nat}

theorem slot_send : slot operation true i = some (.fresh i) := rfl

theorem slot_result (hresult : operation.hasResult = true) (send : Bool) :
    slot operation send 0 = some (.fresh 0) := by
  simp [slot, hresult]

/-- A direct call gives the output `k` back in the storage of its argument. -/
theorem slot_output (k : Nat) :
    slot operation false (k + if operation.hasResult then 1 else 0) =
      operation.outputs[k]?.map .argument := by
  unfold slot
  cases operation.hasResult <;> simp

end Slot

/-! ## Binding -/

section Binding

variable {caller : Caller} {operation : Operation TypeCodec} {arguments : List Value} {send : Bool}

/-- What the loop over the collected values ends in, if every one of them is bound:
as many values as there are types, with those of the arguments at their slots. -/
def Binds (operation : Operation TypeCodec) (arguments : List Value) (send : Bool) (i count : Nat)
    (built : List Value) : Except PrepareFault (List Value) → Prop
  | .ok values => ∃ more, values = built ++ more ∧ more.length = count ∧
      ∀ k < count, ∀ index, slot operation send (i + k) = some (.argument index) →
        more[k]? = arguments[index]?
  | .error fault => fault ≠ .undefined

/-- A value at the head of those that are still bound. -/
theorem Binds.cons {i count : Nat} {built : List Value} {value : Value}
    {result : Except PrepareFault (List Value)}
    (hvalue : ∀ index, slot operation send i = some (.argument index) →
      arguments[index]? = some value)
    (h : Binds operation arguments send (i + 1) count (built ++ [value]) result) :
    Binds operation arguments send i (count + 1) built result := by
  cases result with
  | error fault => exact h
  | ok values =>
      obtain ⟨more, rfl, hlength, hslots⟩ := h
      refine ⟨value :: more, by simp, by simp [hlength], ?_⟩
      intro k hk index hslot
      cases k with
      | zero => rw [List.getElem?_cons_zero, hvalue index hslot]
      | succ k =>
          rw [List.getElem?_cons_succ]
          have hshift : i + 1 + k = i + (k + 1) := by omega
          exact hslots k (by omega) index (hshift ▸ hslot)

/-- The storage of its own for one collected value. -/
theorem outputStorage_defined {type : TypeInfo} {binding : TypeBinding TypeCodec}
    {context : CodecContext} :
    outputStorage caller (some type) (some binding) context ≠ .error .undefined := by
  unfold outputStorage
  dsimp only
  split
  next => simp
  next =>
    split
    next => simp
    next =>
      split
      next => simp
      next => simp

/-- The loop from position `i` on, for what is callable there. -/
theorem prepareOutputs_binds {types : List (Option TypeInfo)} {i : Nat} {built : List Value}
    {context : CodecContext} (htypes : ∀ type ∈ types, type.isSome = true)
    (hbindings : ∀ k < types.length, ∃ binding, operation.collectBindings[i + k]? =
      some (some binding))
    (hdirect : send = false → ∀ k < types.length, (operation.hasResult && i + k == 0) = false →
      GivesBack operation arguments (i + k)) :
    Binds operation arguments send i types.length built
      (prepareOutputs caller operation arguments send types i built context) := by
  induction types generalizing i built context with
  | nil => exact ⟨[], by simp, rfl, fun k hk => absurd hk (Nat.not_lt_zero k)⟩
  | cons type rest ih =>
      have hrestTypes : ∀ other ∈ rest, other.isSome = true :=
        fun other hother => htypes other (List.mem_cons_of_mem _ hother)
      have hshift : ∀ k, i + 1 + k = i + (k + 1) := fun k => by omega
      have hrestBindings : ∀ k < rest.length, ∃ binding,
          operation.collectBindings[i + 1 + k]? = some (some binding) := by
        intro k hk
        rw [hshift]
        exact hbindings (k + 1) (Nat.succ_lt_succ hk)
      have hrestDirect : send = false → ∀ k < rest.length,
          (operation.hasResult && i + 1 + k == 0) = false →
          GivesBack operation arguments (i + 1 + k) := by
        intro hsend k hk hposition
        rw [hshift] at hposition ⊢
        exact hdirect hsend (k + 1) (Nat.succ_lt_succ hk) hposition
      rw [prepareOutputs, List.length_cons]
      by_cases hreused : (!send && !(operation.hasResult && i == 0)) = true
      · -- A direct call keeps the value in the storage of the argument.
        obtain ⟨hsend, hposition⟩ : send = false ∧ (operation.hasResult && i == 0) = false := by
          rw [Bool.and_eq_true, Bool.not_eq_true', Bool.not_eq_true'] at hreused
          exact hreused
        obtain ⟨index, value, houtput, hvalue⟩ := hdirect hsend 0 (Nat.succ_pos _) hposition
        rw [Nat.add_zero] at houtput
        simp only [if_pos hreused, houtput, hvalue]
        apply Binds.cons
        · intro other hslot
          rw [slot, if_pos hreused, houtput, Option.map_some, Option.some.injEq,
            Slot.argument.injEq] at hslot
          rw [← hslot, hvalue]
        · exact ih hrestTypes hrestBindings hrestDirect
      · obtain ⟨binding, hbinding⟩ := hbindings 0 (Nat.succ_pos _)
        rw [Nat.add_zero] at hbinding
        obtain ⟨info, rfl⟩ := Option.isSome_iff_exists.mp (htypes type List.mem_cons_self)
        simp only [if_neg hreused, hbinding]
        have hdefined : outputStorage caller (some info) (some binding) context ≠
            .error .undefined := outputStorage_defined
        cases hstorage : outputStorage caller (some info) (some binding) context with
        | error fault =>
            rw [hstorage] at hdefined
            exact fun hundefined => hdefined (by rw [hundefined])
        | ok stored =>
            obtain ⟨value, after⟩ := stored
            apply Binds.cons
            · intro other hslot
              rw [slot, if_neg hreused] at hslot
              cases hslot
            · exact ih hrestTypes hrestBindings hrestDirect

/-- The loop over the arguments of a callable operation. -/
theorem prepareArguments_defined {inputs : List (Option (TypeBinding TypeCodec) × Json)}
    {values : List Value} {context : CodecContext}
    (hbindings : ∀ input ∈ inputs, input.1.isSome = true) :
    prepareArguments inputs values context ≠ .error .undefined := by
  induction inputs generalizing values context with
  | nil => simp [prepareArguments]
  | cons input rest ih =>
      obtain ⟨binding, argument⟩ := input
      obtain ⟨found, rfl⟩ := Option.isSome_iff_exists.mp (hbindings _ List.mem_cons_self)
      rw [prepareArguments]
      split
      next => simp
      next => exact ih fun other hother => hbindings other (List.mem_cons_of_mem _ hother)

end Binding

/-! ## Whole invocations -/

/-- What a prepared invocation holds: the arguments that were decoded, the path that
was chosen, and a value for every type that is collected. -/
structure Prepared.Ready (prepared : Prepared) (callers : OperationPart → List Value → Caller)
    (operation : Operation TypeCodec) (arguments : List Json) (options : ServerOptions) : Prop where
  calls : prepared.operation = operation
  decoded : prepareArguments (operation.arguments.zip arguments) []
    (.fresh (requestLimits options)) = .ok prepared.arguments
  send : prepared.send = (sendSource (callers operation.part prepared.arguments) operation).isSome
  values : prepared.values.length = operation.collectBindings.length
  slots : ∀ i < prepared.values.length, ∀ index,
    slot operation prepared.send i = some (.argument index) →
      prepared.values[i]? = prepared.arguments[index]?

/-- The loop over all collected values of a callable operation. -/
theorem prepareOutputs_callable_binds {caller : Caller} {operation : Operation TypeCodec}
    {values : List Value} {context : CodecContext} (hcallable : operation.Callable)
    (hvalues : values.length = operation.arguments.length) (send : Bool) :
    Binds operation values send 0 operation.collectTypes.length []
      (prepareOutputs caller operation values send operation.collectTypes 0 [] context) := by
  apply prepareOutputs_binds hcallable.collectTypes
  · intro k hk
    rw [Nat.zero_add, List.getElem?_eq_getElem (hcallable.bound ▸ hk)]
    obtain ⟨binding, hbinding⟩ := Option.isSome_iff_exists.mp
      (hcallable.collectBindings _ (List.getElem_mem (hcallable.bound ▸ hk)))
    exact ⟨binding, congrArg some hbinding⟩
  · intro _ k hk hposition
    rw [Nat.zero_add] at hposition ⊢
    exact givesBack_of_callable hcallable hvalues hk hposition

section Ready

variable {callers : OperationPart → List Value → Caller} {operation : Operation TypeCodec}
  {arguments : List Json} {options : ServerOptions}

/-- A call whose arguments cannot be decoded. -/
theorem prepareInvocation_of_undecoded {fault : PrepareFault}
    (hlength : arguments.length = operation.arguments.length)
    (hdecoded : prepareArguments (operation.arguments.zip arguments) []
      (.fresh (requestLimits options)) = .error fault) :
    prepareInvocation callers operation arguments options = .error fault := by
  unfold prepareInvocation
  rw [if_neg (not_not.mpr hlength), hdecoded]
  rfl

/-- A call whose arguments are decoded. -/
theorem prepareInvocation_ready_of_decoded {values : List Value} (hcallable : operation.Callable)
    (hlength : arguments.length = operation.arguments.length)
    (hdecoded : prepareArguments (operation.arguments.zip arguments) []
      (.fresh (requestLimits options)) = .ok values) :
    prepareInvocation callers operation arguments options ≠ .error .undefined ∧
      ∀ prepared, prepareInvocation callers operation arguments options = .ok prepared →
        prepared.Ready callers operation arguments options := by
  have hvalues : values.length = operation.arguments.length := by
    have hdone := length_of_prepareArguments hdecoded
    rw [List.length_zip, hlength, Nat.min_self] at hdone
    simpa using hdone
  obtain ⟨caller, hcaller⟩ : ∃ caller, callers operation.part values = caller := ⟨_, rfl⟩
  rw [prepareInvocation_of_decoded hlength hdecoded hcaller]
  have hbinds : Binds operation values (sendSource caller operation).isSome 0
      operation.collectTypes.length [] (prepareOutputs caller operation values
        (sendSource caller operation).isSome operation.collectTypes 0 []
        (.fresh (responseLimits options))) :=
    prepareOutputs_callable_binds hcallable hvalues _
  split
  next => exact ⟨nofun, nofun⟩
  next =>
    split
    next => exact ⟨nofun, nofun⟩
    next =>
      cases houtputs : prepareOutputs caller operation values
          (sendSource caller operation).isSome operation.collectTypes 0 []
          (.fresh (responseLimits options)) with
      | error fault =>
          rw [houtputs] at hbinds
          refine ⟨fun h => hbinds ?_, nofun⟩
          cases h
          rfl
      | ok outputs =>
          rw [houtputs] at hbinds
          obtain ⟨more, rfl, hmore, hslots⟩ := hbinds
          rw [Except.bind]
          split
          next => exact ⟨nofun, nofun⟩
          next =>
            refine ⟨nofun, ?_⟩
            rintro prepared ⟨⟩
            refine ⟨rfl, hdecoded, by rw [hcaller], hmore.trans hcallable.bound.symm, ?_⟩
            intro i hi index hslot
            exact hslots i (hmore ▸ hi) index (by rwa [Nat.zero_add])

/-- Preparing a call of a callable operation is defined, and what it prepares is ready. -/
theorem prepareInvocation_ready (hcallable : operation.Callable) :
    prepareInvocation callers operation arguments options ≠ .error .undefined ∧
      ∀ prepared, prepareInvocation callers operation arguments options = .ok prepared →
        prepared.Ready callers operation arguments options := by
  by_cases hlength : arguments.length = operation.arguments.length
  · cases hdecoded : prepareArguments (operation.arguments.zip arguments) []
        (.fresh (requestLimits options)) with
    | ok values => exact prepareInvocation_ready_of_decoded hcallable hlength hdecoded
    | error fault =>
        rw [prepareInvocation_of_undecoded hlength hdecoded]
        refine ⟨fun hundefined => ?_, nofun⟩
        cases hundefined
        refine prepareArguments_defined (fun input hinput => ?_) hdecoded
        exact hcallable.arguments _ (List.of_mem_zip hinput).1
  · unfold prepareInvocation
    rw [if_pos hlength]
    exact ⟨nofun, nofun⟩

end Ready

end RttHttp.Executor
