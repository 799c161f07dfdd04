import RttHttp.Codec.Depth
import RttHttp.Model.Shape
import RttHttp.Server.Handle

/-! # The budget of output storage

`prepareInvocation` makes the storage of each result by writing a fresh value and
reading it back, all on one context with the limits of a response. Writing alone
charges at least what the response holds, and reading charges every string and
every element once more, so the budget is not the length of the response.
-/

namespace RttHttp.Executor

open Codec (CodecContext JsonLimits Represents TypeCodec Unlimited Value accepted readCost
  represents_iff writeCost)
open Model (Operation OperationPart TypeBinding TypeInfo)
open Server (ServerOptions prepareStatus)

/-- A fresh value of a registered type, with its JSON value, which the codec of the
type reads back. -/
structure FreshValue where
  codec : TypeCodec
  value : Value
  json : Json
  registered : codec.Registered
  represents : Represents codec value json
  reads : (accepted codec json).isSome = true

namespace FreshValue

/-- The bytes charged for writing a fresh value and reading it back. -/
def charge (slot : FreshValue) : Nat :=
  writeCost slot.codec slot.value + readCost slot.codec slot.json

theorem written (slot : FreshValue) : Codec.written slot.codec slot.value = some slot.json :=
  represents_iff.mp slot.represents

end FreshValue

/-- The bytes charged for several fresh values on one context. -/
def storageCharge (slots : List FreshValue) : Nat := (slots.map FreshValue.charge).sum

/-- RTT builds these fresh values for the collected values of an operation. -/
structure Builds (caller : Caller) (operation : Operation TypeCodec) (slots : List FreshValue) :
    Prop where
  values : (operation.collectTypes.map fun type => type.bind caller.buildValue) =
    slots.map fun slot => some slot.value
  codecs : (operation.collectBindings.map fun binding => binding.map (·.codec)) =
    slots.map fun slot => some slot.codec

/-- The document that answers with these values. -/
def freshResponse (operation : Operation TypeCodec) (slots : List FreshValue) : Json :=
  .object [(bytes "result", if operation.hasResult then (slots.head?.map (·.json)).getD .null
      else .null),
    (bytes "outputs", .array ((if operation.hasResult then slots.tail else slots).map (·.json)))]

/-- A document within the limits of a response. -/
def FitsResponse (double : Double → Bytes) (json : Json) (limits : JsonLimits) : Prop :=
  (serialize double json).length ≤ limits.maxDocumentBytes ∧ json.depth ≤ limits.maxDepth

/-- The send data source that an invocation uses. -/
def sendSource (caller : Caller) (operation : Operation TypeCodec) : Option Bool :=
  if operation.ownThread then caller.send else none

/-- Nothing stops the call before its storage is made. -/
def ReachesStorage (caller : Caller) (operation : Operation TypeCodec) : Prop :=
  caller.ready = true ∧ sendSource caller operation ≠ some false

/-- The slots that get storage of their own from position `i` on: all of them where
the call is sent, and else only the result. -/
def allocatedFrom (operation : Operation TypeCodec) (send : Bool) (i : Nat)
    (slots : List FreshValue) : List FreshValue :=
  if send then slots else if operation.hasResult && i == 0 then slots.take 1 else []

def allocated (caller : Caller) (operation : Operation TypeCodec) (slots : List FreshValue) :
    List FreshValue :=
  allocatedFrom operation (sendSource caller operation).isSome 0 slots

/-! ## One slot -/

/-- The failure of an exhausted context. -/
def outOfStorage : PrepareFault := .refused (some (Codec.codecFailure .documentLimit))

/-- Storage for one slot is made exactly when its charge is left. -/
theorem outputStorage_charge {caller : Caller} {type : TypeInfo}
    {binding : TypeBinding TypeCodec} {slot : FreshValue} {context : CodecContext}
    (hbuild : caller.buildValue type = some slot.value) (hcodec : binding.codec = slot.codec)
    (hdepth : context.depth + (slot.json.depth + 1) ≤ context.limits.maxDepth) :
    (slot.charge ≤ context.remaining → ∃ value,
      outputStorage caller (some type) (some binding) context =
        .ok (value, context.spend slot.charge)) ∧
    (context.remaining < slot.charge →
      outputStorage caller (some type) (some binding) context = .error outOfStorage) := by
  obtain ⟨stored, hstored⟩ := Option.isSome_iff_exists.mp slot.reads
  have hlevels := (Codec.written_value slot.registered slot.written).depth
  have hreadLevels := Codec.readNesting_le slot.codec slot.json
  have hwrite := Codec.toJson_ends slot.codec slot.value .null context
  rw [slot.written] at hwrite
  unfold outputStorage FreshValue.charge
  simp only [hbuild, hcodec]
  generalize Codec.toJson slot.codec slot.value .null context = encoded at hwrite ⊢
  cases hwrite with
  | rejected hvalue => cases hvalue
  | tooDeep hdeep => omega
  | outOfBytes hbytes => exact ⟨fun hfits => by omega, fun _ => rfl⟩
  | converted hvalue hbytes =>
      cases hvalue
      have hspend : (context.spend (writeCost slot.codec slot.value)).remaining =
        context.remaining - writeCost slot.codec slot.value := rfl
      have hframe := context.framed_spend (writeCost slot.codec slot.value)
      have hread := Codec.makeDataSource_ends slot.codec slot.json
        (context.spend (writeCost slot.codec slot.value))
      rw [hstored, Option.map_some] at hread
      simp only
      generalize Codec.makeDataSource slot.codec slot.json _ = decoded at hread ⊢
      cases hread with
      | rejected hvalue => cases hvalue
      | tooDeep hdeep =>
          rw [hframe.depth, hframe.limits] at hdeep
          omega
      | outOfBytes hmore => exact ⟨fun hfits => by omega, fun _ => rfl⟩
      | converted hvalue hmore =>
          cases hvalue
          refine ⟨fun _ => ⟨stored, ?_⟩, fun hover => by omega⟩
          rw [CodecContext.spend_spend]

/-! ## The loop over the slots -/

section Loop

variable {caller : Caller} {operation : Operation TypeCodec} {arguments : List Value} {send : Bool}

/-- The mutable arguments that a direct call gives back are among the decoded ones. -/
def GivesBack (operation : Operation TypeCodec) (arguments : List Value) (i : Nat) : Prop :=
  ∃ index value, operation.outputs[i - if operation.hasResult then 1 else 0]? = some index ∧
    arguments[index]? = some value

/-- The charge of the first slot and of those after it. -/
theorem storageCharge_cons (operation : Operation TypeCodec) (send : Bool) (i : Nat)
    (slot : FreshValue) (rest : List FreshValue) :
    storageCharge (allocatedFrom operation send i (slot :: rest)) =
      (if !send && !(operation.hasResult && i == 0) then 0 else slot.charge) +
        storageCharge (allocatedFrom operation send (i + 1) rest) := by
  cases send with
  | true => simp [allocatedFrom, storageCharge]
  | false => cases h : operation.hasResult && i == 0 <;> simp [allocatedFrom, storageCharge, h]

/-- The slots from `i` on get their storage exactly when their charges are left. -/
theorem prepareOutputs_charge {types : List (Option TypeInfo)} {slots : List FreshValue} {i : Nat}
    {values : List Value} {context : CodecContext}
    (htypes : (types.map fun type => type.bind caller.buildValue) =
      slots.map fun slot => some slot.value)
    (hcodecs : ((operation.collectBindings.drop i).map fun binding => binding.map (·.codec)) =
      slots.map fun slot => some slot.codec)
    (hdirect : send = false → ∀ k < slots.length, (operation.hasResult && i + k == 0) = false →
      GivesBack operation arguments (i + k))
    (hdepth : ∀ slot ∈ slots, context.depth + (slot.json.depth + 1) ≤ context.limits.maxDepth) :
    (storageCharge (allocatedFrom operation send i slots) ≤ context.remaining → ∃ outputs,
      prepareOutputs caller operation arguments send types i values context = .ok outputs) ∧
    (context.remaining < storageCharge (allocatedFrom operation send i slots) →
      prepareOutputs caller operation arguments send types i values context =
        .error outOfStorage) := by
  induction slots generalizing types i values context with
  | nil =>
      obtain rfl : types = [] := List.map_eq_nil_iff.mp htypes
      refine ⟨fun _ => ⟨values, rfl⟩, fun hover => ?_⟩
      simp [allocatedFrom, storageCharge] at hover
  | cons slot rest ih =>
      obtain ⟨type, types, rfl, htype, hrest⟩ := List.map_eq_cons_iff.mp htypes
      obtain ⟨info, rfl, hbuild⟩ := Option.bind_eq_some_iff.mp htype
      obtain ⟨found, bindings, hdrop, hfound, hbindings⟩ := List.map_eq_cons_iff.mp hcodecs
      obtain ⟨binding, rfl, hcodec⟩ := Option.map_eq_some_iff.mp hfound
      have hbinding : operation.collectBindings[i]? = some (some binding) := by
        rw [← List.head?_drop, hdrop, List.head?_cons]
      have hnext : operation.collectBindings.drop (i + 1) = bindings := by
        rw [← List.tail_drop, hdrop, List.tail_cons]
      have hgiven : send = false → ∀ k < rest.length,
          (operation.hasResult && i + 1 + k == 0) = false →
          GivesBack operation arguments (i + 1 + k) := by
        intro hsend k hk hposition
        have hshift : i + 1 + k = i + (k + 1) := by omega
        rw [hshift] at hposition ⊢
        exact hdirect hsend (k + 1) (Nat.succ_lt_succ hk) hposition
      have hslot := hdepth slot List.mem_cons_self
      have hothers : ∀ other ∈ rest,
          context.depth + (other.json.depth + 1) ≤ context.limits.maxDepth :=
        fun other hother => hdepth other (List.mem_cons_of_mem _ hother)
      rw [storageCharge_cons, prepareOutputs]
      by_cases hreused : (!send && !(operation.hasResult && i == 0)) = true
      · -- A direct call reuses the storage of the argument, which charges nothing.
        obtain ⟨hsend, hposition⟩ : send = false ∧ (operation.hasResult && i == 0) = false := by
          rw [Bool.and_eq_true, Bool.not_eq_true', Bool.not_eq_true'] at hreused
          exact hreused
        obtain ⟨index, value, houtput, hvalue⟩ := hdirect hsend 0 (Nat.succ_pos _) hposition
        rw [Nat.add_zero] at houtput
        simp only [if_pos hreused, houtput, hvalue, Nat.zero_add]
        exact ih hrest (hnext ▸ hbindings) hgiven hothers
      · simp only [if_neg hreused, hbinding]
        obtain ⟨hstores, hfails⟩ := outputStorage_charge hbuild hcodec hslot
        by_cases hfits : slot.charge ≤ context.remaining
        · obtain ⟨value, hstored⟩ := hstores hfits
          have hspend : (context.spend slot.charge).remaining = context.remaining - slot.charge := rfl
          obtain ⟨hok, herror⟩ := @ih types (i + 1) (values ++ [value])
            (context.spend slot.charge) hrest (hnext ▸ hbindings) hgiven hothers
          rw [hstored]
          exact ⟨fun hall => hok (by omega), fun hover => herror (by omega)⟩
        · rw [hfails (by omega)]
          exact ⟨fun hall => by omega, fun _ => rfl⟩

end Loop

/-! ## The whole invocation -/

theorem length_of_prepareArguments {inputs : List (Option (TypeBinding TypeCodec) × Json)}
    {values decoded : List Value} {context : CodecContext}
    (h : prepareArguments inputs values context = .ok decoded) :
    decoded.length = values.length + inputs.length := by
  induction inputs generalizing values context with
  | nil =>
      cases h
      rfl
  | cons input rest ih =>
      obtain ⟨binding, argument⟩ := input
      cases binding with
      | none => cases h
      | some binding =>
          rw [prepareArguments] at h
          cases hvalue : (Codec.makeDataSource binding.codec argument context).output with
          | none => simp [hvalue] at h
          | some value =>
              simp only [hvalue] at h
              rw [ih h, List.length_append, List.length_singleton, List.length_cons]
              omega

/-- Every output of a callable operation is one of its decoded arguments. -/
theorem givesBack_of_callable {operation : Operation TypeCodec} {values : List Value}
    (hcallable : operation.Callable) (hlength : values.length = operation.arguments.length) {i : Nat}
    (hi : i < operation.collectTypes.length) (hposition : (operation.hasResult && i == 0) = false) :
    GivesBack operation values i := by
  have hcollected := hcallable.collected
  have hindex : i - (if operation.hasResult then 1 else 0) < operation.outputs.length := by
    cases hresult : operation.hasResult with
    | false =>
        simp only [hresult, Bool.false_eq_true, if_false] at hcollected ⊢
        omega
    | true =>
        have hne : i ≠ 0 := by
          rintro rfl
          rw [hresult] at hposition
          cases hposition
        simp only [hresult, if_true] at hcollected ⊢
        omega
  have hargument := hcallable.outputs _ (List.getElem_mem hindex)
  rw [← hlength] at hargument
  exact ⟨_, _, List.getElem?_eq_getElem hindex, List.getElem?_eq_getElem hargument⟩

/-- Every slot lies at least one level below its response. -/
theorem depth_lt_freshResponse (operation : Operation TypeCodec) {slots : List FreshValue}
    {slot : FreshValue} (hslot : slot ∈ slots) :
    slot.json.depth < (freshResponse operation slots).depth := by
  have hitems : ∀ others : List FreshValue, slot ∈ others →
      slot.json.depth ≤ itemsDepth (others.map (·.json)) := fun others hother =>
    Codec.depth_le_itemsDepth (List.mem_map.mpr ⟨slot, hother, rfl⟩)
  simp only [freshResponse, Json.depth, membersDepth]
  cases operation.hasResult with
  | false =>
      have hdepth := hitems slots hslot
      simp only [Bool.false_eq_true, if_false]
      omega
  | true =>
      cases slots with
      | nil => cases hslot
      | cons first rest =>
          simp only [if_true, List.head?_cons, Option.map_some, Option.getD_some, List.tail_cons]
          rcases List.mem_cons.mp hslot with rfl | hrest
          · omega
          · have hdepth := hitems rest hrest
            omega

/-- The whole loop over the slots of a callable operation. -/
theorem prepareOutputs_callable {caller : Caller} {operation : Operation TypeCodec}
    {values : List Value} {slots : List FreshValue} {options : ServerOptions}
    (hcallable : operation.Callable) (hvalues : values.length = operation.arguments.length)
    (hbuilds : Builds caller operation slots)
    (hdepth : ∀ slot ∈ slots, slot.json.depth < options.maxJsonDepth.toNat) (send : Bool) :
    (storageCharge (allocatedFrom operation send 0 slots) ≤ options.maxResponseBodyBytes.toNat →
      ∃ outputs, prepareOutputs caller operation values send operation.collectTypes 0 []
        (.fresh (responseLimits options)) = .ok outputs) ∧
    (options.maxResponseBodyBytes.toNat < storageCharge (allocatedFrom operation send 0 slots) →
      prepareOutputs caller operation values send operation.collectTypes 0 []
        (.fresh (responseLimits options)) = .error outOfStorage) := by
  have hslots : operation.collectTypes.length = slots.length := by
    simpa using congrArg List.length hbuilds.values
  have hremaining : (CodecContext.fresh (responseLimits options)).remaining =
    options.maxResponseBodyBytes.toNat := rfl
  rw [← hremaining]
  apply prepareOutputs_charge hbuilds.values
  · rw [List.drop_zero]
    exact hbuilds.codecs
  · intro _ k hk hposition
    rw [Nat.zero_add] at hposition ⊢
    exact givesBack_of_callable hcallable hvalues (hslots ▸ hk) hposition
  · intro slot hslot
    have hlevels := hdepth slot hslot
    have hfresh : (CodecContext.fresh (responseLimits options)).depth = 0 := rfl
    have hmax : (CodecContext.fresh (responseLimits options)).limits.maxDepth =
      options.maxJsonDepth.toNat := rfl
    omega

/-- The error of a call that RTT cannot take now. -/
def unavailableFault : PrepareFault := .refused (some (Codec.codecFailure .unavailable))

/-- What follows once the arguments are decoded. -/
theorem prepareInvocation_of_decoded {callers : OperationPart → List Value → Caller}
    {caller : Caller} {operation : Operation TypeCodec} {arguments : List Json}
    {values : List Value} {options : ServerOptions}
    (hlength : arguments.length = operation.arguments.length)
    (hdecoded : prepareArguments (operation.arguments.zip arguments) []
      (.fresh (requestLimits options)) = .ok values)
    (hcaller : callers operation.part values = caller) :
    prepareInvocation callers operation arguments options =
      if !caller.ready then .error unavailableFault
      else if sendSource caller operation = some false then .error unavailableFault
      else (prepareOutputs caller operation values (sendSource caller operation).isSome
        operation.collectTypes 0 [] (.fresh (responseLimits options))).bind fun outputs =>
          if (sendSource caller operation).isSome && !caller.collectorReady then
            .error unavailableFault
          else .ok
            { operation := operation, arguments := values
              send := (sendSource caller operation).isSome, values := outputs } := by
  unfold prepareInvocation
  rw [if_neg (not_not.mpr hlength), hdecoded, ← hcaller]
  rfl

/-- An invocation whose arguments are decoded is prepared, unavailable, or out of
storage, and the last exactly when the charges exceed the budget. -/
theorem prepareInvocation_charge {callers : OperationPart → List Value → Caller}
    {operation : Operation TypeCodec} {arguments : List Json} {values : List Value}
    {slots : List FreshValue} {options : ServerOptions} (hcallable : operation.Callable)
    (hlength : arguments.length = operation.arguments.length)
    (hdecoded : prepareArguments (operation.arguments.zip arguments) []
      (.fresh (requestLimits options)) = .ok values)
    (hbuilds : Builds (callers operation.part values) operation slots)
    (hdepth : ∀ slot ∈ slots, slot.json.depth < options.maxJsonDepth.toNat) :
    let caller := callers operation.part values
    let result := prepareInvocation callers operation arguments options
    let within := storageCharge (allocated caller operation slots) ≤
      options.maxResponseBodyBytes.toNat
    (ReachesStorage caller operation → ¬ within → result = .error outOfStorage) ∧
    ((ReachesStorage caller operation → within) →
      (∃ prepared, result = .ok prepared) ∨ result = .error unavailableFault) := by
  intro caller result within
  have hvalues : values.length = operation.arguments.length := by
    have hdone := length_of_prepareArguments hdecoded
    rw [List.length_zip, hlength, Nat.min_self] at hdone
    simpa using hdone
  obtain ⟨hstores, hfails⟩ := prepareOutputs_callable hcallable hvalues hbuilds hdepth
    (sendSource caller operation).isSome
  have hcaller : callers operation.part values = caller := rfl
  have hresult : result = _ := prepareInvocation_of_decoded hlength hdecoded hcaller
  rw [hresult]
  unfold ReachesStorage
  by_cases hready : caller.ready = true
  · by_cases hsend : sendSource caller operation = some false
    · simp [hready, hsend]
    · simp only [hready, hsend, Bool.not_true, Bool.false_eq_true, if_false, ne_eq, not_false_eq_true,
        and_self, true_implies]
      refine ⟨fun hover => ?_, fun hwithin => ?_⟩
      · rw [hfails (not_le.mp hover)]
        rfl
      · obtain ⟨outputs, houtputs⟩ := hstores hwithin
        rw [houtputs, Except.bind]
        split
        · exact .inr rfl
        · exact .inl ⟨_, rfl⟩
  · simp [hready]

/-- Where the response of fresh values fits, the call is not refused on account of
the storage for its outputs. -/
def AllocatesWithin (double : Double → Bytes) (callers : OperationPart → List Value → Caller)
    (operation : Operation TypeCodec) (arguments : List Json) (options : ServerOptions)
    (slots : List FreshValue) : Prop :=
  FitsResponse double (freshResponse operation slots) (responseLimits options) →
    ∀ error, prepareInvocation callers operation arguments options = .error (.refused error) →
      Unlimited error ∧ prepareStatus error ≠ 422

/-- The response does not fit, the call ends before its storage is made, or the
budget holds what is charged for writing and reading back the allocated slots. -/
def LeavesStorage (double : Double → Bytes) (caller : Caller) (operation : Operation TypeCodec)
    (options : ServerOptions) (slots : List FreshValue) : Prop :=
  FitsResponse double (freshResponse operation slots) (responseLimits options) →
    ReachesStorage caller operation →
      storageCharge (allocated caller operation slots) ≤ options.maxResponseBodyBytes.toNat

/-- A decoded call is spared for its output storage exactly when the budget of a
response holds the charges of the slots that are allocated. -/
theorem output_storage_budget (double : Double → Bytes)
    {callers : OperationPart → List Value → Caller} {operation : Operation TypeCodec}
    {arguments : List Json} {values : List Value} {slots : List FreshValue}
    {options : ServerOptions} (hcallable : operation.Callable)
    (hlength : arguments.length = operation.arguments.length)
    (hdecoded : prepareArguments (operation.arguments.zip arguments) []
      (.fresh (requestLimits options)) = .ok values)
    (hbuilds : Builds (callers operation.part values) operation slots) :
    AllocatesWithin double callers operation arguments options slots ↔
      LeavesStorage double (callers operation.part values) operation options slots := by
  have hcharge : FitsResponse double (freshResponse operation slots) (responseLimits options) → _ :=
    fun hfits => prepareInvocation_charge hcallable hlength hdecoded hbuilds fun slot hslot =>
      (depth_lt_freshResponse operation hslot).trans_le hfits.2
  constructor
  · intro hspared hfits hreaches
    by_contra hover
    obtain ⟨hrefused, -⟩ := hcharge hfits
    obtain ⟨hunlimited, -⟩ := hspared hfits _ (hrefused hreaches hover)
    exact (hunlimited _ rfl).1 rfl
  · intro hleaves hfits error herror
    obtain ⟨-, hprepared⟩ := hcharge hfits
    rcases hprepared (hleaves hfits) with ⟨prepared, hok⟩ | hunavailable
    · rw [hok] at herror
      cases herror
    · rw [hunavailable] at herror
      cases herror
      refine ⟨?_, by decide⟩
      rintro reported ⟨⟩
      exact ⟨nofun, nofun⟩

/-! ### An array of flags -/

/-- A fresh `std::array<bool, 25>`. -/
def freshFlags : FreshValue where
  codec := .typed (.array .bool 25)
  value := .typed (.array .bool 25) (Codec.Code.initial (.array .bool 25))
  json := .array (List.replicate 25 (.bool false))
  registered := trivial
  represents := represents_iff.mpr rfl
  reads := rfl

def flagsType : TypeInfo := ⟨1, bytes "flags"⟩

def flagsBinding : TypeBinding TypeCodec where
  registration := ⟨[], [], [], [], bytes "flags", [], []⟩
  codec := .typed (.array .bool 25)

/-- An operation that takes nothing and returns the flags on the caller's thread. -/
def readFlags : Operation TypeCodec where
  service := 0
  part := ⟨0, [], [], 0, fun _ => some flagsType, 1, fun _ => some flagsType, false⟩
  arguments := []
  collectTypes := [some flagsType]
  collectBindings := [some flagsBinding]
  result := some flagsBinding
  hasResult := true
  ownThread := false
  outputs := []

def flagsCaller : Caller where
  ready := true
  send := none
  buildValue _ := some freshFlags.value
  collectorReady := true

theorem readFlags_callable : readFlags.Callable :=
  ⟨by simp [readFlags], by simp [readFlags], by simp [readFlags], rfl, rfl, by simp [readFlags]⟩

theorem flagsCaller_builds : Builds flagsCaller readFlags [freshFlags] := ⟨rfl, rfl⟩

/-- The default budget holds the flags twice. -/
theorem output_storage_budget_flags :
    readFlags.Callable ∧ Builds flagsCaller readFlags [freshFlags] ∧
      AllocatesWithin (fun _ => []) (fun _ _ => flagsCaller) readFlags [] {} [freshFlags] :=
  ⟨readFlags_callable, flagsCaller_builds,
    (output_storage_budget (fun _ => []) readFlags_callable rfl rfl flagsCaller_builds).mpr
      fun _ _ => by decide +kernel⟩

/-- The response with the flags has 175 bytes, and a budget of 175 refuses it. -/
theorem flags_out_of_storage :
    let options : ServerOptions := { maxResponseBodyBytes := 175 }
    Server.validateOptions false options = .ok () ∧ readFlags.Callable ∧
      Builds flagsCaller readFlags [freshFlags] ∧
      FitsResponse (fun _ => []) (freshResponse readFlags [freshFlags]) (responseLimits options) ∧
      prepareInvocation (fun _ _ => flagsCaller) readFlags [] options = .error outOfStorage ∧
      ¬ AllocatesWithin (fun _ => []) (fun _ _ => flagsCaller) readFlags [] options
        [freshFlags] := by
  intro options
  have hfits : FitsResponse (fun _ => []) (freshResponse readFlags [freshFlags])
      (responseLimits options) := by
    exact ⟨by decide +kernel, by decide +kernel⟩
  have hrefused : prepareInvocation (fun _ _ => flagsCaller) readFlags [] options =
      .error outOfStorage := by
    refine (prepareInvocation_charge readFlags_callable rfl rfl flagsCaller_builds ?_).1
      ⟨rfl, nofun⟩ (by decide +kernel)
    intro slot hslot
    exact (depth_lt_freshResponse readFlags hslot).trans_le hfits.2
  refine ⟨by decide, readFlags_callable, flagsCaller_builds, hfits, hrefused, ?_⟩
  intro hspared
  exact ((hspared hfits _ hrefused).1 _ rfl).1 rfl

end RttHttp.Executor
