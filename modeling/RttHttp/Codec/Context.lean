import RttHttp.Text.Utf8
import RttHttp.Json.Value

/-! # Codec contexts

A conversion charges the bytes it is about to read or write against its context
and counts the containers it has entered. The memory resource of a context is
not modelled: running out of it throws out of the conversion.
-/

namespace RttHttp.Codec

inductive CodecErrorCode where
  | none
  | invalidJson
  | duplicateKey
  | invalidUtf8
  | typeMismatch
  | depthLimit
  | documentLimit
  | allocationLimit
  | unavailable
  | invalidDataSource
  | internalError
  deriving DecidableEq, Repr

structure CodecError where
  code : CodecErrorCode := .none
  location : Bytes := []
  deriving DecidableEq, Repr

/-- `codecFailure`, which cuts long locations. -/
def codecFailure (code : CodecErrorCode) (location : Bytes := []) : CodecError :=
  ⟨code, location.take 256⟩

structure JsonLimits where
  maxDocumentBytes : Nat := 1024 * 1024
  maxDepth : Nat := 64
  deriving DecidableEq, Repr

/-- A context; only `enter`, `leave` and `account` change it. -/
structure CodecContext where
  limits : JsonLimits
  depth : Nat
  remaining : Nat
  depth_le : depth ≤ limits.maxDepth
  remaining_le : remaining ≤ limits.maxDocumentBytes
  deriving DecidableEq, Repr

/-- What a conversion returns: `true`, or `false` with the error it reported. A
conversion may also return `false` and leave `*error` alone. -/
inductive Status where
  | converted
  | failed (error : Option CodecError)
  deriving DecidableEq, Repr

/-- A failure with the given code. -/
def Status.failure (code : CodecErrorCode) (location : Bytes := []) : Status :=
  .failed (some (codecFailure code location))

namespace CodecContext

/-- A context as it is constructed. -/
def fresh (limits : JsonLimits) : CodecContext where
  limits := limits
  depth := 0
  remaining := limits.maxDocumentBytes
  depth_le := Nat.zero_le _
  remaining_le := Nat.le_refl _

def spend (context : CodecContext) (bytes : Nat) : CodecContext :=
  { context with
    remaining := context.remaining - bytes
    remaining_le := Nat.le_trans (Nat.sub_le _ _) context.remaining_le }

def enter (context : CodecContext) : Status × CodecContext :=
  if h : context.depth = context.limits.maxDepth then (.failure .depthLimit, context)
  else (.converted,
    { context with
      depth := context.depth + 1
      depth_le := Nat.lt_of_le_of_ne context.depth_le h })

/-- Leaving at depth 0 does nothing. -/
def leave (context : CodecContext) : CodecContext :=
  { context with
    depth := context.depth - 1
    depth_le := Nat.le_trans (Nat.sub_le _ _) context.depth_le }

def account (context : CodecContext) (bytes : Nat) : Status × CodecContext :=
  if context.remaining < bytes then (.failure .documentLimit, context)
  else (.converted, context.spend bytes)

theorem eq_of_fields {first second : CodecContext} (hlimits : first.limits = second.limits)
    (hdepth : first.depth = second.depth) (hremaining : first.remaining = second.remaining) :
    first = second := by
  cases first
  cases second
  simp_all

theorem spend_spend (context : CodecContext) (first second : Nat) :
    (context.spend first).spend second = context.spend (first + second) :=
  eq_of_fields rfl rfl (Nat.sub_sub _ _ _)

/-- Only the bytes that remain differ. -/
structure Framed (context after : CodecContext) : Prop where
  limits : after.limits = context.limits
  depth : after.depth = context.depth

theorem Framed.refl (context : CodecContext) : Framed context context := ⟨rfl, rfl⟩

theorem framed_spend (context : CodecContext) (bytes : Nat) : Framed context (context.spend bytes) :=
  ⟨rfl, rfl⟩

theorem Framed.trans {first second third : CodecContext} (h : Framed first second)
    (h' : Framed second third) : Framed first third :=
  ⟨h'.limits.trans h.limits, h'.depth.trans h.depth⟩

end CodecContext

/-- What a call leaves behind: its return value, `*output` and the context. -/
structure Result (α : Type) where
  status : Status
  output : α
  context : CodecContext

variable {α β γ : Type}

/-- `return codecFailure(error, code)`. -/
def fail (code : CodecErrorCode) (output : α) (context : CodecContext) : Result α :=
  ⟨.failure code, output, context⟩

/-- `if (!context.account(bytes, error)) return false`, and then the rest. -/
def charged (bytes : Nat) (output : α) (context : CodecContext)
    (rest : CodecContext → Result α) : Result α :=
  match context.account bytes with
  | (.converted, context) => rest context
  | (.failed error, context) => ⟨.failed error, output, context⟩

/-- A body with a `CodecScope`, whose destructor leaves what was entered. -/
def withScope (output : α) (context : CodecContext) (body : CodecContext → Result α) : Result α :=
  match context.enter with
  | (.converted, context) => { body context with context := (body context).context.leave }
  | (.failed error, context) => ⟨.failed error, output, context⟩

/-- Convert into local storage, and go on with the value if that succeeded. -/
def andThen (first : Result β) (output : α) (rest : β → CodecContext → Result α) : Result α :=
  match first with
  | ⟨.converted, value, context⟩ => rest value context
  | ⟨.failed error, _, context⟩ => ⟨.failed error, output, context⟩

/-- Convert into local storage; `*output` is written only after that succeeded. -/
def staged (inner : Result β) (output : α) (write : β → α) : Result α :=
  andThen inner output fun value context => ⟨.converted, write value, context⟩

/-- The loop that converts every element into fresh storage and appends it. -/
def convertAll (convert : β → γ → CodecContext → Result γ) (initial : γ) :
    List β → (converted : List γ) → CodecContext → Result (List γ)
  | [], converted, context => ⟨.converted, converted, context⟩
  | input :: rest, converted, context =>
      andThen (convert input initial context) converted fun value context =>
        convertAll convert initial rest (converted ++ [value]) context

/-- What `accountJsonString` charges for one byte. -/
def byteCost (c : UInt8) : Nat :=
  if c = 0x22 ∨ c = 0x5c then 2 else if c < 0x20 then 6 else 1

def accountBytes : Bytes → CodecContext → Status × CodecContext
  | [], context => (.converted, context)
  | c :: rest, context =>
      match context.account (byteCost c) with
      | (.converted, context) => accountBytes rest context
      | failure => failure

def accountJsonString (value : Bytes) (context : CodecContext) : Status × CodecContext :=
  if validUtf8 value then
    match context.account 2 with
    | (.converted, context) => accountBytes value context
    | failure => failure
  else (.failure .invalidUtf8, context)

/-- `if (!accountJsonString(value, context, error)) return false`, and then the rest. -/
def chargedString (value : Bytes) (output : α) (context : CodecContext)
    (rest : CodecContext → Result α) : Result α :=
  match accountJsonString value context with
  | (.converted, context) => rest context
  | (.failed error, context) => ⟨.failed error, output, context⟩

/-! ## Exact ends of a conversion -/

/-- An error that does not come from a limit of the context. -/
def Unlimited (error : Option CodecError) : Prop :=
  ∀ reported, error = some reported → reported.code ≠ .documentLimit ∧ reported.code ≠ .depthLimit

/-- A conversion that needs `cost` bytes and `nesting` levels and yields `value`,
if it yields anything. It fails for a limit only when the context does not meet
its needs, and it writes `*output` only when it succeeds. -/
inductive Ends (context : CodecContext) (output : α) (value : Option α) (cost nesting : Nat) :
    Result α → Prop
  | converted {result : α} (hvalue : value = some result) (hbytes : cost ≤ context.remaining)
      (hdepth : context.depth + nesting ≤ context.limits.maxDepth) :
      Ends context output value cost nesting ⟨.converted, result, context.spend cost⟩
  | rejected {error : Option CodecError} {after : CodecContext} (hvalue : value = none)
      (herror : Unlimited error) (hframe : context.Framed after) :
      Ends context output value cost nesting ⟨.failed error, output, after⟩
  | outOfBytes {after : CodecContext} (hbytes : context.remaining < cost)
      (hframe : context.Framed after) :
      Ends context output value cost nesting ⟨.failure .documentLimit, output, after⟩
  | tooDeep {after : CodecContext} (hdepth : context.limits.maxDepth < context.depth + nesting)
      (hframe : context.Framed after) :
      Ends context output value cost nesting ⟨.failure .depthLimit, output, after⟩

section Ends

variable {context : CodecContext} {output : α} {value : Option α} {cost nesting : Nat}

theorem Ends.fail {code : CodecErrorCode} (hcode : code ≠ .documentLimit ∧ code ≠ .depthLimit) :
    Ends context output none cost nesting (Codec.fail code output context) := by
  refine .rejected rfl ?_ (.refl context)
  rintro reported ⟨⟩
  exact hcode

theorem Ends.done {result : α} :
    Ends context output (some result) 0 0 ⟨.converted, result, context⟩ :=
  .converted rfl (Nat.zero_le _) context.depth_le

/-- Bytes taken from the context before a conversion add to its cost. -/
theorem Ends.after {bytes : Nat} {result : Result α} (hbytes : bytes ≤ context.remaining)
    (h : Ends (context.spend bytes) output value cost nesting result) :
    Ends context output value (bytes + cost) nesting result := by
  have hspend : (context.spend bytes).remaining = context.remaining - bytes := rfl
  cases h with
  | converted hvalue hcost hdepth =>
      rw [CodecContext.spend_spend]
      exact .converted hvalue (by omega) hdepth
  | rejected hvalue herror hframe =>
      exact .rejected hvalue herror ((context.framed_spend bytes).trans hframe)
  | outOfBytes hcost hframe =>
      exact .outOfBytes (by omega) ((context.framed_spend bytes).trans hframe)
  | tooDeep hdepth hframe => exact .tooDeep hdepth ((context.framed_spend bytes).trans hframe)

theorem Ends.charged {bytes : Nat} {rest : CodecContext → Result α}
    (hrest : bytes ≤ context.remaining →
      Ends (context.spend bytes) output value cost nesting (rest (context.spend bytes))) :
    Ends context output value (bytes + cost) nesting (Codec.charged bytes output context rest) := by
  unfold Codec.charged CodecContext.account
  by_cases hbytes : context.remaining < bytes
  · rw [if_pos hbytes]
    exact .outOfBytes (by omega) (.refl context)
  · rw [if_neg hbytes]
    exact Ends.after (by omega) (hrest (by omega))

/-- A conversion that only charges bytes. -/
theorem Ends.charged_done {bytes : Nat} {result : α} :
    Ends context output (some result) bytes 0
      (Codec.charged bytes output context fun context => ⟨.converted, result, context⟩) := by
  show Ends context output _ (bytes + 0) 0 _
  exact Ends.charged fun _ => Ends.done

/-- A scope adds one level. -/
theorem Ends.withScope {body : CodecContext → Result α}
    (hbody : ∀ inner : CodecContext, Ends inner output value cost nesting (body inner)) :
    Ends context output value cost (nesting + 1) (Codec.withScope output context body) := by
  unfold Codec.withScope CodecContext.enter
  by_cases hfull : context.depth = context.limits.maxDepth
  · rw [dif_pos hfull]
    exact .tooDeep (by omega) (.refl context)
  · rw [dif_neg hfull]
    simp only
    generalize hinner : CodecContext.mk _ _ _ _ _ = inner
    have hlimits : inner.limits = context.limits := by rw [← hinner]
    have hmax : inner.limits.maxDepth = context.limits.maxDepth := by rw [hlimits]
    have hdepth : inner.depth = context.depth + 1 := by rw [← hinner]
    have hremaining : inner.remaining = context.remaining := by rw [← hinner]
    have hleave : ∀ {after : CodecContext}, inner.Framed after → context.Framed after.leave := by
      intro after hframe
      refine ⟨hframe.limits.trans hlimits, ?_⟩
      show after.depth - 1 = context.depth
      rw [hframe.depth, hdepth, Nat.add_sub_cancel]
    have hends := hbody inner
    generalize body inner = result at hends ⊢
    cases hends with
    | converted hvalue hcost hlevels =>
        have hspent : (inner.spend cost).leave = context.spend cost := by
          have hframe := hleave (inner.framed_spend cost)
          refine CodecContext.eq_of_fields hframe.limits hframe.depth ?_
          show inner.remaining - cost = context.remaining - cost
          rw [hremaining]
        rw [hspent]
        exact .converted hvalue (by omega) (by omega)
    | rejected hvalue herror hframe => exact .rejected hvalue herror (hleave hframe)
    | outOfBytes hcost hframe => exact .outOfBytes (by omega) (hleave hframe)
    | tooDeep hlevels hframe => exact .tooDeep (by omega) (hleave hframe)

/-- Two conversions in a row cost both, and nest as deep as the deeper one. -/
theorem Ends.andThen {content : Option β} {initial : β} {first : Result β} {next : β → Option α}
    {more levels : Nat} {rest : β → CodecContext → Result α}
    (hfirst : Ends context initial content cost nesting first)
    (hrest : ∀ found after, content = some found →
      Ends after output (next found) more levels (rest found after)) :
    Ends context output (content.bind next) (cost + more) (max nesting levels)
      (Codec.andThen first output rest) := by
  cases hfirst with
  | @converted found hvalue hcost hdepth =>
      have hspend : (context.spend cost).remaining = context.remaining - cost := rfl
      have hframe := context.framed_spend cost
      have hends := hrest found (context.spend cost) hvalue
      rw [hvalue, Option.bind_some]
      show Ends _ _ _ _ _ (rest found (context.spend cost))
      generalize rest found (context.spend cost) = result at hends ⊢
      cases hends with
      | converted hnext hmore hlevels =>
          rw [hframe.depth, hframe.limits] at hlevels
          rw [CodecContext.spend_spend]
          exact .converted hnext (by omega) (by omega)
      | rejected hnext herror hafter => exact .rejected hnext herror (hframe.trans hafter)
      | outOfBytes hmore hafter => exact .outOfBytes (by omega) (hframe.trans hafter)
      | tooDeep hlevels hafter =>
          rw [hframe.depth, hframe.limits] at hlevels
          exact .tooDeep (by omega) (hframe.trans hafter)
  | rejected hvalue herror hframe => exact .rejected (by rw [hvalue]; rfl) herror hframe
  | outOfBytes hcost hframe => exact .outOfBytes (by omega) hframe
  | tooDeep hdepth hframe => exact .tooDeep (by omega) hframe

/-- Converting into local storage changes what is written, not how it ends. -/
theorem Ends.staged {content : Option β} {initial : β} {inner : Result β} {write : β → α}
    (h : Ends context initial content cost nesting inner) :
    Ends context output (content.map write) cost nesting (Codec.staged inner output write) := by
  have hends : Ends context output (content.bind fun value => some (write value)) (cost + 0)
      (max nesting 0) (Codec.staged inner output write) :=
    Ends.andThen h fun found after _ => Ends.done
  rw [Nat.add_zero, Nat.max_zero] at hends
  cases content <;> exact hends

/-! ### What an end says -/

variable {result : Result α}

theorem Ends.of_converted (h : Ends context output value cost nesting result)
    (hstatus : result.status = .converted) :
    value = some result.output ∧ cost ≤ context.remaining ∧
      context.depth + nesting ≤ context.limits.maxDepth := by
  cases h with
  | converted hvalue hbytes hdepth => exact ⟨hvalue, hbytes, hdepth⟩
  | _ => cases hstatus

theorem Ends.output_of_failed (h : Ends context output value cost nesting result)
    (hstatus : result.status ≠ .converted) : result.output = output := by
  cases h with
  | converted => exact absurd rfl hstatus
  | _ => rfl

/-- A conversion that yields a value ends with it or for want of a limit. -/
theorem Ends.of_some {found : α} (h : Ends context output (some found) cost nesting result) :
    result.status = .converted ∧ result.output = found ∨
      result.status = .failure .documentLimit ∧ context.remaining < cost ∨
      result.status = .failure .depthLimit ∧
        context.limits.maxDepth < context.depth + nesting := by
  cases h with
  | converted hvalue => exact .inl ⟨rfl, (Option.some.inj hvalue).symm⟩
  | rejected hvalue => cases hvalue
  | outOfBytes hbytes => exact .inr (.inl ⟨rfl, hbytes⟩)
  | tooDeep hdepth => exact .inr (.inr ⟨rfl, hdepth⟩)

end Ends

theorem andThen_andThen {δ : Type} (first : Result δ) (initial : β) (output : α)
    (rest : δ → CodecContext → Result β) (last : β → CodecContext → Result α) :
    andThen (andThen first initial rest) output last =
      andThen first output fun value context => andThen (rest value context) output last := by
  obtain ⟨status, value, context⟩ := first
  cases status <;> rfl

theorem andThen_charged (bytes : Nat) (initial : β) (output : α) (context : CodecContext)
    (rest : CodecContext → Result β) (last : β → CodecContext → Result α) :
    andThen (charged bytes initial context rest) output last =
      charged bytes output context fun context => andThen (rest context) output last := by
  unfold charged CodecContext.account
  split <;> rfl

theorem andThen_chargedString (value : Bytes) (initial : β) (output : α) (context : CodecContext)
    (rest : CodecContext → Result β) (last : β → CodecContext → Result α) :
    andThen (chargedString value initial context rest) output last =
      chargedString value output context fun context => andThen (rest context) output last := by
  unfold chargedString
  obtain ⟨status, after⟩ := accountJsonString value context
  cases status <;> rfl

/-- The deepest of several values. -/
def deepest (levels : List Nat) : Nat := levels.foldr max 0

/-- The loop over the elements costs the sum and nests as deep as the deepest. -/
theorem Ends.convertAll {convert : β → γ → CodecContext → Result γ} {initial : γ}
    {value : β → Option γ} {cost nesting : β → Nat} {inputs : List β}
    (hconvert : ∀ input ∈ inputs, ∀ context : CodecContext,
      Ends context initial (value input) (cost input) (nesting input) (convert input initial context))
    {context : CodecContext} (converted : List γ) {output : α} {write : List γ → α} :
    Ends context output ((inputs.mapM value).map fun values => write (converted ++ values))
      (inputs.map cost).sum (deepest (inputs.map nesting))
      (Codec.staged (Codec.convertAll convert initial inputs converted context) output write) := by
  induction inputs generalizing context converted with
  | nil =>
      refine .converted ?_ (Nat.zero_le _) context.depth_le
      simp
  | cons input rest ih =>
      have hvalue : ((input :: rest).mapM value).map (fun values => write (converted ++ values)) =
          (value input).bind fun first =>
            (rest.mapM value).map fun values => write (converted ++ [first] ++ values) := by
        rw [List.mapM_cons]
        cases value input <;> cases rest.mapM value <;> simp
      rw [hvalue, Codec.convertAll, Codec.staged, andThen_andThen]
      exact Ends.andThen (hconvert input List.mem_cons_self context) fun first after _ =>
        ih (fun other hother => hconvert other (List.mem_cons_of_mem _ hother)) (converted ++ [first])

/-! ## Strings -/

/-- What `accountJsonString` charges for a string. -/
def stringCost (value : Bytes) : Nat := 2 + (value.map byteCost).sum

theorem accountBytes_eq (value : Bytes) (context : CodecContext) :
    (context.remaining < (value.map byteCost).sum → ∃ after, context.Framed after ∧
      accountBytes value context = (.failure .documentLimit, after)) ∧
    ((value.map byteCost).sum ≤ context.remaining →
      accountBytes value context = (.converted, context.spend (value.map byteCost).sum)) := by
  induction value generalizing context with
  | nil => exact ⟨fun h => absurd h (Nat.not_lt_zero _), fun _ => rfl⟩
  | cons c rest ih =>
      rw [List.map_cons, List.sum_cons, accountBytes, CodecContext.account]
      by_cases hc : context.remaining < byteCost c
      · rw [if_pos hc]
        exact ⟨fun _ => ⟨_, .refl context, rfl⟩, fun h => by omega⟩
      · rw [if_neg hc]
        simp only
        have hspend : (context.spend (byteCost c)).remaining = context.remaining - byteCost c := rfl
        obtain ⟨hover, hfits⟩ := ih (context.spend (byteCost c))
        refine ⟨fun h => ?_, fun h => ?_⟩
        · obtain ⟨after, hframe, heq⟩ := hover (by omega)
          exact ⟨after, (context.framed_spend _).trans hframe, heq⟩
        · rw [hfits (by omega), CodecContext.spend_spend]

theorem accountJsonString_eq {value : Bytes} (hvalid : validUtf8 value = true)
    (context : CodecContext) :
    (context.remaining < stringCost value → ∃ after, context.Framed after ∧
      accountJsonString value context = (.failure .documentLimit, after)) ∧
    (stringCost value ≤ context.remaining →
      accountJsonString value context = (.converted, context.spend (stringCost value))) := by
  rw [accountJsonString, if_pos hvalid, CodecContext.account, stringCost]
  by_cases htwo : context.remaining < 2
  · rw [if_pos htwo]
    exact ⟨fun _ => ⟨_, .refl context, rfl⟩, fun h => by omega⟩
  · rw [if_neg htwo]
    simp only
    have hspend : (context.spend 2).remaining = context.remaining - 2 := rfl
    obtain ⟨hover, hfits⟩ := accountBytes_eq value (context.spend 2)
    refine ⟨fun h => ?_, fun h => ?_⟩
    · obtain ⟨after, hframe, heq⟩ := hover (by omega)
      exact ⟨after, (context.framed_spend _).trans hframe, heq⟩
    · rw [hfits (by omega), CodecContext.spend_spend]

/-- A string charged before the rest of a conversion adds its cost. -/
theorem Ends.chargedString {value : Bytes} {context : CodecContext} {output : α}
    {result : Option α} {cost nesting : Nat} {rest : CodecContext → Result α}
    (hrest : stringCost value ≤ context.remaining →
      Ends (context.spend (stringCost value)) output result cost nesting
        (rest (context.spend (stringCost value)))) :
    Ends context output (if validUtf8 value then result else none) (stringCost value + cost) nesting
      (Codec.chargedString value output context rest) := by
  unfold Codec.chargedString
  by_cases hvalid : validUtf8 value = true
  · rw [if_pos hvalid]
    obtain ⟨hover, hfits⟩ := accountJsonString_eq hvalid context
    by_cases hbytes : context.remaining < stringCost value
    · obtain ⟨after, hframe, heq⟩ := hover hbytes
      rw [heq]
      exact .outOfBytes (by omega) hframe
    · rw [hfits (by omega)]
      exact Ends.after (by omega) (hrest (by omega))
  · rw [if_neg hvalid, accountJsonString, if_neg hvalid]
    exact Ends.fail ⟨by decide, by decide⟩

theorem Ends.chargedString_done {value : Bytes} {context : CodecContext} {output result : α} :
    Ends context output (if validUtf8 value then some result else none) (stringCost value) 0
      (Codec.chargedString value output context fun context => ⟨.converted, result, context⟩) := by
  show Ends context output _ (stringCost value + 0) 0 _
  exact Ends.chargedString fun _ => Ends.done

end RttHttp.Codec
