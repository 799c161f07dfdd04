import RttHttp.Model.Resolve

/-! # The shape of published resources

What the request handler relies on without checking it again: the methods of each
kind of resource, and that a supported resource has everything it needs. A reason
text stands for an unsupported type, so no diagnostic may be empty.
-/

namespace RttHttp.Model

variable {Codec : Type}

def readAllow : Bytes := bytes "GET, HEAD, OPTIONS"

def writeAllow : Bytes := bytes "GET, HEAD, PUT, OPTIONS"

def postAllow : Bytes := bytes "POST, OPTIONS"

/-- An operation with a codec for everything it takes and gives. -/
structure Operation.Callable (operation : Operation Codec) : Prop where
  arguments : ∀ binding ∈ operation.arguments, binding.isSome = true
  collectTypes : ∀ type ∈ operation.collectTypes, type.isSome = true
  collectBindings : ∀ binding ∈ operation.collectBindings, binding.isSome = true
  bound : operation.collectBindings.length = operation.collectTypes.length
  collected : operation.collectTypes.length =
    operation.outputs.length + if operation.hasResult then 1 else 0
  outputs : ∀ index ∈ operation.outputs, index < operation.arguments.length

/-- What a resource of each kind has. -/
def Resource.Shaped (resource : Resource Codec) : Prop :=
  match resource.kind with
  | .description => resource.allow = readAllow
  | .value => (∃ source, resource.source = some source ∧
      resource.allow = if source.assignable then writeAllow else readAllow) ∧
      (resource.supported = true → resource.binding.isSome = true)
  | .latest => resource.allow = readAllow ∧ resource.output.isSome = true ∧
      (resource.supported = true → resource.binding.isSome = true)
  | .samples => resource.allow = postAllow ∧ resource.bridge.isSome = true ∧
      (resource.supported = true → resource.binding.isSome = true)
  | .operation => resource.allow = postAllow ∧ ∃ operation, resource.operation = some operation ∧
      (resource.supported = true → operation.Callable)

/-- No diagnostic is the empty text. -/
def ObjectModel.Explained (model : ObjectModel Codec) : Prop :=
  ∀ entry ∈ model.diagnostics, entry.2 ≠ []

theorem ObjectModel.unsupported_ne_nil {model : ObjectModel Codec} (h : model.Explained)
    (type : Option TypeInfo) : model.unsupported type ≠ [] := by
  unfold ObjectModel.unsupported
  cases hlookup : model.diagnostics.lookup (typeName type) with
  | none => decide
  | some text => exact h _ (mem_of_lookup hlookup)

/-! ## Operations -/

namespace ObjectModel

variable {model : ObjectModel Codec}

/-- The name under which an argument is listed. -/
def argumentName (part : OperationPart) (i : Nat) : Bytes :=
  match part.argumentList[i]? with
  | some argument =>
      if argument.name.isEmpty then bytes "argument" ++ bytes (toString (i + 1)) else argument.name
  | none => bytes "argument" ++ bytes (toString (i + 1))

/-- An argument that is given back. -/
def isOutput (part : OperationPart) (i : Nat) : Bool :=
  (part.argumentList[i]?.map fun argument => isMutableReference argument.type).getD false

/-- The metadata of an argument that is given back. -/
def outputItem (part : OperationPart) (i : Nat) : Json :=
  .object [(bytes "argumentIndex", .uint64 (UInt64.ofNat i)),
    (bytes "name", .string (argumentName part i)),
    (bytes "rttType", .string (typeName (part.argumentType (i + 1))))]

/-- The codec of an argument or a collected value. -/
abbrev argumentBinding (model : ObjectModel Codec) (part : OperationPart) (i : Nat) :
    Option (TypeBinding Codec) :=
  model.catalog.find (part.argumentType (i + 1))

abbrev collectBinding (model : ObjectModel Codec) (part : OperationPart) (i : Nat) :
    Option (TypeBinding Codec) :=
  model.catalog.find (part.collectType (i + 1))

/-- A binding that leaves no reason is there. -/
theorem bindingFor_spec (hmodel : model.Explained) (signature : Signature Codec)
    (type : Option TypeInfo) (allowVoid : Bool) :
    ∃ reason, model.bindingFor signature type allowVoid = (model.catalog.find type,
        { signature with
          referenced := setInsert signature.referenced (typeName type), reason := reason }) ∧
      (reason = [] → signature.reason = [] ∧ (model.catalog.find type).isSome = true) := by
  unfold bindingFor
  by_cases hmissing : (model.catalog.find type).isNone ||
      (!allowVoid && typeName type = bytes "Void")
  · rw [if_pos hmissing]
    exact ⟨_, rfl, fun hreason => absurd hreason (unsupported_ne_nil hmodel type)⟩
  · rw [if_neg hmissing]
    refine ⟨signature.reason, rfl, fun hreason => ⟨hreason, ?_⟩⟩
    cases hfind : model.catalog.find type with
    | none => simp [hfind] at hmissing
    | some binding => rfl

/-- The metadata of an argument. -/
def inputItem (part : OperationPart) (i : Nat) : Json :=
  .object [(bytes "name", .string (argumentName part i)),
    (bytes "description", .string ((part.argumentList[i]?.map (·.description)).getD [])),
    (bytes "rttType", .string (typeName (part.argumentType (i + 1)))),
    (bytes "mode", .string (if isOutput part i then bytes "inout" else bytes "in"))]

theorem describeArgument_eq (part : OperationPart) (signature : Signature Codec) (i : Nat) :
    model.describeArgument part signature i =
      let bound := model.bindingFor signature (part.argumentType (i + 1)) false
      if !validUtf8 (argumentName part i) ||
          !validUtf8 ((part.argumentList[i]?.map (·.description)).getD []) then
        .error "invalid UTF-8 operation metadata"
      else if isOutput part i then
        .ok { bound.2 with
          arguments := bound.2.arguments ++ [bound.1]
          inputMetadata := bound.2.inputMetadata ++ [inputItem part i]
          outputs := bound.2.outputs ++ [i]
          outputMetadata := bound.2.outputMetadata ++ [outputItem part i] }
      else
        .ok { bound.2 with
          arguments := bound.2.arguments ++ [bound.1]
          inputMetadata := bound.2.inputMetadata ++ [inputItem part i] } := rfl

/-- The signature after the arguments in `indices`. -/
structure Signature.Argued (model : ObjectModel Codec) (part : OperationPart)
    (indices : List Nat) (signature : Signature Codec) : Prop where
  arguments : signature.arguments = indices.map (model.argumentBinding part)
  outputs : signature.outputs = indices.filter (isOutput part)
  outputMetadata : signature.outputMetadata = signature.outputs.map (outputItem part)
  collectTypes : signature.collectTypes = []
  collectBindings : signature.collectBindings = []
  found : signature.reason = [] → ∀ i ∈ indices, (model.argumentBinding part i).isSome = true

theorem describeArgument_argued (hmodel : model.Explained) {part : OperationPart}
    {indices : List Nat} {signature next : Signature Codec} {i : Nat}
    (hargued : signature.Argued model part indices)
    (h : model.describeArgument part signature i = .ok next) :
    next.Argued model part (indices ++ [i]) := by
  obtain ⟨reason, hbinding, hreason⟩ :=
    bindingFor_spec hmodel signature (part.argumentType (i + 1)) false
  rw [describeArgument_eq, hbinding] at h
  simp only at h
  split at h
  next => cases h
  next =>
    have hfound : reason = [] → ∀ j ∈ indices ++ [i], (model.argumentBinding part j).isSome = true := by
      intro hnil j hj
      obtain ⟨hold, hnew⟩ := hreason hnil
      rcases List.mem_append.mp hj with hj | hj
      · exact hargued.found hold j hj
      · rw [List.mem_singleton.mp hj]
        exact hnew
    split at h
    next houtput =>
      cases h
      exact ⟨by simp [hargued.arguments], by simp [hargued.outputs, houtput],
        by simp [hargued.outputMetadata], hargued.collectTypes, hargued.collectBindings, hfound⟩
    next houtput =>
      cases h
      exact ⟨by simp [hargued.arguments], by simp [hargued.outputs, houtput],
        hargued.outputMetadata, hargued.collectTypes, hargued.collectBindings, hfound⟩

/-- The type that the value collected at `i` must have. -/
def expectedType (part : OperationPart) (hasResult : Bool) (outputs : List Nat) (i : Nat) :
    Option TypeInfo :=
  if hasResult && i = 0 then part.argumentType 0
  else part.argumentType (outputs[i - (if hasResult then 1 else 0)]?.getD 0 + 1)

theorem describeCollect_eq (part : OperationPart) (hasResult : Bool) (expectedCollect : Nat)
    (signature : Signature Codec) (i : Nat) :
    model.describeCollect part hasResult expectedCollect signature i =
      let bound := model.bindingFor
        { signature with collectTypes := signature.collectTypes ++ [part.collectType (i + 1)] }
        (part.collectType (i + 1)) false
      let collected :=
        { bound.2 with collectBindings := bound.2.collectBindings ++ [bound.1] }
      if i < expectedCollect then
        if expectedType part hasResult collected.outputs i ≠ part.collectType (i + 1) then
          { collected with reason := bytes "inconsistent RTT operation output metadata" }
        else collected
      else collected := rfl

/-- The signature after the collected values in `indices`. -/
structure Signature.Collected (model : ObjectModel Codec) (part : OperationPart) (hasResult : Bool)
    (expectedCollect : Nat) (before : Signature Codec) (indices : List Nat)
    (signature : Signature Codec) : Prop where
  arguments : signature.arguments = before.arguments
  outputs : signature.outputs = before.outputs
  outputMetadata : signature.outputMetadata = before.outputMetadata
  collectTypes : signature.collectTypes =
    before.collectTypes ++ indices.map fun i => part.collectType (i + 1)
  collectBindings : signature.collectBindings =
    before.collectBindings ++ indices.map (model.collectBinding part)
  found : signature.reason = [] → before.reason = [] ∧ ∀ i ∈ indices,
    (model.collectBinding part i).isSome = true ∧
      (i < expectedCollect →
        expectedType part hasResult before.outputs i = part.collectType (i + 1))

theorem describeCollect_collected (hmodel : model.Explained) {part : OperationPart}
    {hasResult : Bool} {expectedCollect : Nat} {before signature : Signature Codec}
    {indices : List Nat} (i : Nat)
    (h : Signature.Collected model part hasResult expectedCollect before indices signature) :
    Signature.Collected model part hasResult expectedCollect before (indices ++ [i])
      (model.describeCollect part hasResult expectedCollect signature i) := by
  obtain ⟨reason, hbinding, hreason⟩ := bindingFor_spec hmodel
    { signature with collectTypes := signature.collectTypes ++ [part.collectType (i + 1)] }
    (part.collectType (i + 1)) false
  have hfound : reason = [] →
      (i < expectedCollect →
        expectedType part hasResult before.outputs i = part.collectType (i + 1)) →
      before.reason = [] ∧ ∀ j ∈ indices ++ [i], (model.collectBinding part j).isSome = true ∧
        (j < expectedCollect →
          expectedType part hasResult before.outputs j = part.collectType (j + 1)) := by
    intro hnil hexpected
    obtain ⟨hold, hnew⟩ := hreason hnil
    obtain ⟨hbefore, hindices⟩ := h.found hold
    refine ⟨hbefore, fun j hj => ?_⟩
    rcases List.mem_append.mp hj with hj | hj
    · exact hindices j hj
    · rw [List.mem_singleton.mp hj]
      exact ⟨hnew, hexpected⟩
  rw [describeCollect_eq, hbinding]
  simp only
  split
  next hwithin =>
    split
    next hdiffers =>
      have hne : bytes "inconsistent RTT operation output metadata" ≠ [] := by decide
      exact ⟨h.arguments, h.outputs, h.outputMetadata, by simp [h.collectTypes],
        by simp [h.collectBindings], fun hnil => absurd hnil hne⟩
    next hagrees =>
      have hexpected : expectedType part hasResult before.outputs i = part.collectType (i + 1) := by
        rw [← h.outputs]
        exact not_not.mp hagrees
      exact ⟨h.arguments, h.outputs, h.outputMetadata, by simp [h.collectTypes],
        by simp [h.collectBindings], fun hnil => hfound hnil fun _ => hexpected⟩
  next hbeyond =>
    exact ⟨h.arguments, h.outputs, h.outputMetadata, by simp [h.collectTypes],
      by simp [h.collectBindings], fun hnil => hfound hnil fun hwithin => absurd hwithin hbeyond⟩

/-- A loop over indices that keeps an invariant about the indices done. -/
theorem foldlM_indices {σ : Type} {f : σ → Nat → Except String σ} {p : List Nat → σ → Prop}
    (hstep : ∀ done state i next, p done state → f state i = .ok next → p (done ++ [i]) next)
    {indices done : List Nat} {state final : σ} (hstate : p done state)
    (hfold : indices.foldlM f state = .ok final) : p (done ++ indices) final := by
  induction indices generalizing done state with
  | nil =>
      cases hfold
      rwa [List.append_nil]
  | cons i rest ih =>
      rw [List.foldlM_cons, bind_eq_ok] at hfold
      obtain ⟨next, hnext, hrest⟩ := hfold
      have hfinal := ih (hstep done state i next hstate hnext) hrest
      rwa [List.append_assoc] at hfinal

theorem foldl_indices {σ : Type} {f : σ → Nat → σ} {p : List Nat → σ → Prop}
    (hstep : ∀ done state i, p done state → p (done ++ [i]) (f state i))
    (indices : List Nat) {done : List Nat} {state : σ} (hstate : p done state) :
    p (done ++ indices) (indices.foldl f state) := by
  induction indices generalizing done state with
  | nil => rwa [List.append_nil]
  | cons i rest ih =>
      have hfinal := ih (hstep done state i hstate)
      rwa [List.append_assoc] at hfinal

/-- What the operation of a resource says about its RTT operation. -/
structure Described (model : ObjectModel Codec) (operation : Operation Codec) (supported : Bool) :
    Prop where
  arguments : operation.arguments =
    (List.range operation.part.arity).map (model.argumentBinding operation.part)
  outputs : operation.outputs = (List.range operation.part.arity).filter (isOutput operation.part)
  collectTypes : operation.collectTypes =
    (List.range operation.part.collectArity).map fun i => operation.part.collectType (i + 1)
  collectBindings : operation.collectBindings =
    (List.range operation.part.collectArity).map (model.collectBinding operation.part)
  hasResult : operation.hasResult =
    decide (typeName (operation.part.argumentType 0) ≠ bytes "Void")
  found : supported = true →
    operation.part.collectArity = operation.outputs.length + (if operation.hasResult then 1 else 0) ∧
    (∀ i < operation.part.arity, (model.argumentBinding operation.part i).isSome = true) ∧
    ∀ i < operation.part.collectArity, (model.collectBinding operation.part i).isSome = true ∧
      expectedType operation.part operation.hasResult operation.outputs i =
        operation.part.collectType (i + 1)

theorem isSome_of_find {catalog : TypeCatalog Codec} {type : Option TypeInfo}
    (h : (catalog.find type).isSome = true) : type.isSome = true := by
  cases type with
  | none => cases h
  | some type => rfl

theorem Described.callable {operation : Operation Codec} (h : Described model operation true) :
    operation.Callable := by
  obtain ⟨hcollect, harguments, hcollected⟩ := h.found rfl
  refine ⟨?_, ?_, ?_, ?_, ?_, ?_⟩
  · rw [h.arguments]
    intro binding hbinding
    obtain ⟨i, hi, rfl⟩ := List.mem_map.mp hbinding
    exact harguments i (List.mem_range.mp hi)
  · rw [h.collectTypes]
    intro type htype
    obtain ⟨i, hi, rfl⟩ := List.mem_map.mp htype
    exact isSome_of_find (hcollected i (List.mem_range.mp hi)).1
  · rw [h.collectBindings]
    intro binding hbinding
    obtain ⟨i, hi, rfl⟩ := List.mem_map.mp hbinding
    exact (hcollected i (List.mem_range.mp hi)).1
  · simp [h.collectTypes, h.collectBindings]
  · rw [h.collectTypes, List.length_map, List.length_range, hcollect]
  · rw [h.outputs, h.arguments]
    intro index hindex
    simpa using (List.mem_filter.mp hindex).1

/-- The signature of an operation once all of it was read. -/
theorem described_of_signature (hmodel : model.Explained) {part : OperationPart} {id : Nat}
    {referenced : List Bytes} {argued : Signature Codec}
    (hargued : (List.range part.arity).foldlM (model.describeArgument part)
      { referenced := referenced } = .ok argued) {result : Option (TypeBinding Codec)}
    {bound : Signature Codec} (hbound : model.bindingFor argued (part.argumentType 0) true =
      (result, bound)) {checked final : Signature Codec} {hasResult : Bool} {expectedCollect : Nat}
    (hhasResult : hasResult = decide (typeName (part.argumentType 0) ≠ bytes "Void"))
    (hexpected : expectedCollect = bound.outputs.length + if hasResult then 1 else 0)
    (hchecked : checked = if part.collectArity ≠ expectedCollect then
      { bound with reason := bytes "unsupported RTT operation output signature" } else bound)
    (hfinal : final = (List.range part.collectArity).foldl
      (model.describeCollect part hasResult expectedCollect) checked) :
    Described model
        { service := id, part := part, arguments := final.arguments
          collectTypes := final.collectTypes, collectBindings := final.collectBindings
          result := result, hasResult := hasResult, ownThread := part.ownThread
          outputs := final.outputs } final.reason.isEmpty ∧
      final.outputMetadata = final.outputs.map (outputItem part) := by
  have hinitial : Signature.Argued model part [] { referenced := referenced } :=
    ⟨rfl, rfl, rfl, rfl, rfl, fun _ i hi => absurd hi List.not_mem_nil⟩
  have harguments : argued.Argued model part (List.range part.arity) :=
    foldlM_indices (fun _ _ _ _ hstate hstep => describeArgument_argued hmodel hstate hstep)
      hinitial hargued
  obtain ⟨reason, hbinding, hreason⟩ := bindingFor_spec hmodel argued (part.argumentType 0) true
  obtain ⟨-, rfl⟩ := Prod.mk.inj (hbinding.symm.trans hbound)
  have hempty : Signature.Collected model part hasResult expectedCollect checked [] checked :=
    ⟨rfl, rfl, rfl, by simp, by simp, fun hnil => ⟨hnil, fun i hi => absurd hi List.not_mem_nil⟩⟩
  have hcollected : Signature.Collected model part hasResult expectedCollect checked
      (List.range part.collectArity) final := by
    rw [hfinal]
    exact foldl_indices (fun _ _ i hstate => describeCollect_collected hmodel i hstate)
      (List.range part.collectArity) hempty
  have hkept : checked.arguments = argued.arguments ∧ checked.outputs = argued.outputs ∧
      checked.outputMetadata = argued.outputMetadata ∧ checked.collectTypes = [] ∧
      checked.collectBindings = [] := by
    rw [hchecked]
    split <;> exact ⟨rfl, rfl, rfl, harguments.collectTypes, harguments.collectBindings⟩
  obtain ⟨hkeptArguments, hkeptOutputs, hkeptMetadata, hkeptTypes, hkeptBindings⟩ := hkept
  have hfound : checked.reason = [] → part.collectArity = expectedCollect ∧ argued.reason = [] := by
    rw [hchecked]
    split
    next =>
      have hne : bytes "unsupported RTT operation output signature" ≠ [] := by decide
      exact fun hnil => absurd hnil hne
    next harity => exact fun hnil => ⟨not_not.mp harity, (hreason hnil).1⟩
  refine ⟨⟨?_, ?_, ?_, ?_, hhasResult, ?_⟩, ?_⟩
  · rw [hcollected.arguments, hkeptArguments, harguments.arguments]
  · rw [hcollected.outputs, hkeptOutputs, harguments.outputs]
  · rw [hcollected.collectTypes, hkeptTypes, List.nil_append]
  · rw [hcollected.collectBindings, hkeptBindings, List.nil_append]
  · intro hsupported
    obtain ⟨hnil, hbindings⟩ := hcollected.found (List.isEmpty_iff.mp hsupported)
    obtain ⟨harity, hargued⟩ := hfound hnil
    have hcount : part.collectArity = final.outputs.length + if hasResult then 1 else 0 := by
      rw [harity, hexpected, hcollected.outputs, hkeptOutputs]
    refine ⟨hcount, fun i hi => harguments.found hargued i (List.mem_range.mpr hi), ?_⟩
    intro i hi
    obtain ⟨hbinding, htype⟩ := hbindings i (List.mem_range.mpr hi)
    refine ⟨hbinding, ?_⟩
    rw [hcollected.outputs]
    exact htype (harity ▸ hi)
  · rw [hcollected.outputMetadata, hcollected.outputs, hkeptMetadata, hkeptOutputs,
      harguments.outputMetadata]

end ObjectModel

end RttHttp.Model
