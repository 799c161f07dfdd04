import RttHttp.Server.Exits

/-! # Nothing that is missing is followed

Publication decides with one flag what the handler may follow and read without a
check. Whatever types, arities and argument lists RTT reports, a supported resource
has all that its kind is served with, and handling a request is defined.
-/

namespace RttHttp.Server

open Codec (CodecContext TypeCodec Value)
open Executor (Prepared prepareInvocation prepareInvocation_ready)
open Http (Library Request Thrown)
open Model (PortReader Resource)
open Route (canonicalRequestPath)

/-- A resource has what it is served with. -/
def Equipped (resource : Resource TypeCodec) : Prop :=
  match resource.kind with
  | .description => True
  | .value => resource.source.isSome = true ∧ resource.binding.isSome = true
  | .latest => resource.output.isSome = true ∧ resource.binding.isSome = true
  | .samples => resource.bridge.isSome = true ∧ resource.binding.isSome = true
  | .operation => ∃ operation, resource.operation = some operation ∧ operation.Callable

theorem equipped_of_shaped {resource : Resource TypeCodec} (hshaped : resource.Shaped)
    (hsupported : resource.supported = true) : Equipped resource := by
  unfold Model.Resource.Shaped at hshaped
  unfold Equipped
  cases hkind : resource.kind with
  | description => trivial
  | value =>
      rw [hkind] at hshaped
      obtain ⟨⟨source, hsource, -⟩, hbinding⟩ := hshaped
      exact ⟨by rw [hsource]; rfl, hbinding hsupported⟩
  | latest =>
      rw [hkind] at hshaped
      exact ⟨hshaped.2.1, hshaped.2.2 hsupported⟩
  | samples =>
      rw [hkind] at hshaped
      exact ⟨hshaped.2.1, hshaped.2.2 hsupported⟩
  | operation =>
      rw [hkind] at hshaped
      obtain ⟨-, operation, hoperation, hcallable⟩ := hshaped
      exact ⟨operation, hoperation, hcallable hsupported⟩

/-! ## From the boundary on -/

/-- A computation that follows no null pointer. -/
abbrev Defined {α : Type} (x : Except Exit α) : Prop := Fails (· ≠ .undefined) x

section Defined

variable {α : Type} {library : Library} {request : Request}

theorem refuse_defined {status : Nat} {suffix : Option String} {response : Http.Response} :
    Defined (refuse library request status suffix response : Except Exit α) :=
  .refuse (refusal_ne_undefined status suffix response)

theorem threw_defined {thrown : Thrown} {response : Http.Response} :
    Defined (.error (.threw thrown response) : Except Exit α) := .error nofun

end Defined

section Access

variable {library : Library} {rtt : Rtt} {options : ServerOptions} {request : Request}
  {circumstances : Circumstances} {resource : Resource TypeCodec} {staged : Staged} {live : Live}

theorem readSource_defined {codec : TypeCodec} {source : Option Model.DataSource} {values : Values}
    {context : CodecContext} :
    Defined (readSource library rtt request codec source values context) := by
  unfold readSource
  split
  next => exact refuse_defined
  next =>
    split
    next => exact threw_defined
    next => exact refuse_defined
    next =>
      dsimp only
      split
      next => exact .ok _
      next => exact refuse_defined

theorem readSample_defined {codec : TypeCodec} {output : Option Model.Port}
    {context : CodecContext} : Defined (readSample library rtt request codec output context) := by
  unfold readSample
  split
  next => exact threw_defined
  next => exact refuse_defined
  next => exact .ok _
  next =>
    dsimp only
    split
    next => exact .ok _
    next => exact refuse_defined

/-- The loop over collected values that have a codec from position `i` on. -/
theorem collectValues_defined {operation : Model.Operation TypeCodec} {values : List Value} {i : Nat}
    {result : Json} {outputs : List Json} {context : CodecContext}
    (hbindings : ∀ k < values.length, ∃ binding,
      operation.collectBindings[i + k]? = some (some binding)) :
    Defined (collectValues library request operation values i result outputs context) := by
  induction values generalizing i result outputs context with
  | nil => exact .ok _
  | cons value rest ih =>
      obtain ⟨binding, hbinding⟩ := hbindings 0 (Nat.succ_pos _)
      have hrest : ∀ k < rest.length, ∃ binding,
          operation.collectBindings[i + 1 + k]? = some (some binding) := by
        intro k hk
        have hshift : i + 1 + k = i + (k + 1) := by omega
        rw [hshift]
        exact hbindings (k + 1) (Nat.succ_lt_succ hk)
      rw [Nat.add_zero] at hbinding
      rw [collectValues, hbinding]
      dsimp only
      split
      next => exact refuse_defined
      next =>
        split
        next => exact ih hrest
        next => exact ih hrest

/-- As many values as codecs are collected, so none is read beyond the last codec. -/
theorem operationResult_defined {prepared : Prepared} {context : CodecContext}
    (hcallable : prepared.operation.Callable)
    (hvalues : prepared.values.length = prepared.operation.collectBindings.length) :
    Defined (operationResult library request circumstances prepared context) := by
  unfold operationResult
  split
  next =>
    split
    next => exact refuse_defined
    next =>
      apply Fails.bind
      · apply collectValues_defined
        intro k hk
        rw [List.length_map, List.length_range, hvalues] at hk
        rw [Nat.zero_add, List.getElem?_eq_getElem hk]
        obtain ⟨binding, hbinding⟩ := Option.isSome_iff_exists.mp
          (hcallable.collectBindings _ (List.getElem_mem hk))
        exact ⟨binding, congrArg some hbinding⟩
      · intro collected _
        exact .ok _
  next => exact refuse_defined

theorem assignAnswer_defined (result : Except Thrown Bool) :
    Defined (assignAnswer library request result) := by
  unfold assignAnswer
  split
  next => exact .error nofun
  next => exact refuse_defined
  next => exact threw_defined

theorem writeAnswer_defined (result : Except Thrown WriteStatus) :
    Defined (writeAnswer library request result) := by
  unfold writeAnswer
  split
  next => exact .error nofun
  next => exact refuse_defined
  next => exact refuse_defined
  next => exact refuse_defined
  next => exact threw_defined

/-- The access to an equipped resource, by the kind of the resource. -/
theorem access_defined (hequipped : Equipped resource)
    (hreached : Reached library rtt options request resource staged) :
    Defined (access library rtt options request circumstances resource staged live).result := by
  unfold Equipped at hequipped
  unfold access
  dsimp only
  split
  next exit hexit =>
    have hattempt : Defined (attempt library .respond) := .attempt (fun _ _ => nofun) .respond
    exact .error (hattempt exit hexit)
  next =>
    cases hreached with
    | description hkind =>
        simp only [hkind]
        exact .ok _
    | read hkind hread =>
        rw [hkind] at hequipped
        obtain ⟨binding, hbinding⟩ := Option.isSome_iff_exists.mp hequipped.2
        simp only [hkind, hbinding, hread, Bool.false_eq_true, if_false]
        exact readSource_defined.map _
    | assign hkind hput hdecodes =>
        rw [hkind] at hequipped
        obtain ⟨binding, hbinding⟩ := Option.isSome_iff_exists.mp hequipped.2
        simp only [hkind, hbinding, isMutation_of_put hput, if_true]
        exact assignAnswer_defined _
    | latest hkind =>
        rw [hkind] at hequipped
        obtain ⟨binding, hbinding⟩ := Option.isSome_iff_exists.mp hequipped.2
        simp only [hkind, hbinding]
        exact readSample_defined
    | samples hkind =>
        rw [hkind] at hequipped
        obtain ⟨bridge, hbridge⟩ := Option.isSome_iff_exists.mp hequipped.1
        simp only [hkind, hbridge]
        split
        next => exact writeAnswer_defined _
        next => exact refuse_defined
    | @operation prepared hkind hpost hprepares =>
        rw [hkind] at hequipped
        obtain ⟨operation, hoperation, hcallable⟩ := hequipped
        obtain ⟨arguments, found, -, hfound, -, hprepared⟩ := hprepares
        obtain rfl := Option.some.inj (hoperation.symm.trans hfound)
        have hready := (prepareInvocation_ready hcallable).2 prepared hprepared
        simp only [hkind]
        apply operationResult_defined
        · rw [hready.calls]
          exact hcallable
        · rw [hready.calls]
          exact hready.values

theorem boundary_defined :
    Defined (boundary library options request circumstances staged live).result := by
  unfold boundary
  split
  next => exact refuse_defined
  next =>
    split
    next =>
      dsimp only
      split
      next => exact .ok _
      next => exact refuse_defined
      next => exact threw_defined
    next => exact .ok _

end Access

/-! ## Whole requests -/

/-- Everything that is followed, read by name or read by index is there. -/
structure Safe (library : Library) (rtt : Rtt) (options : ServerOptions) (request : Request)
    (circumstances : Circumstances) (live : Live) : Prop where
  handled : (handle library rtt options request circumstances live).1 ≠ .undefined
  equipped : ∀ path resource, circumstances.after.resolve path = some resource →
    resource.supported = true → Equipped resource
  invocation : ∀ path resource operation, circumstances.after.resolve path = some resource →
    resource.supported = true → resource.operation = some operation → ∀ arguments,
      prepareInvocation rtt.caller operation arguments options ≠ .error .undefined ∧
      ∀ prepared, prepareInvocation rtt.caller operation arguments options = .ok prepared →
        prepared.values.length = operation.collectBindings.length
  field : ∀ path resource body,
    preflight library options request circumstances.first circumstances.before = .ok () →
    canonicalRequestPath request.target = some path →
    circumstances.after.resolve path = some resource →
    readBody library options request resource = .ok body →
    isMutation request = true ∨ resource.kind = .operation →
      ∃ value, bodyAt body (bodyField resource) = .ok value ∧
        (resource.kind = .operation → ∃ arguments, value = .array arguments)

section Safe

variable {library : Library} {rtt : Rtt} {options : ServerOptions} {request : Request}
  {circumstances : Circumstances} {resource : Resource TypeCodec} {live : Live}

/-- Only an operation has the part of an operation. -/
theorem callable_of_published [PortReader TypeCodec] (hpublished : circumstances.Published)
    {path : Bytes} {operation : Model.Operation TypeCodec}
    (hresolve : circumstances.after.resolve path = some resource)
    (hsupported : resource.supported = true) (hoperation : resource.operation = some operation) :
    operation.Callable := by
  have hdescribed := (hpublished.published hresolve).described operation hoperation
  rw [hsupported] at hdescribed
  exact hdescribed.callable

/-- The member that is read was checked to be there. -/
theorem bodyAt_of_envelope {body : Json}
    (h : Envelope library options request resource body) :
    ∃ value, bodyAt body (bodyField resource) = .ok value ∧
      (resource.kind = .operation → ∃ arguments, value = .array arguments) := by
  obtain ⟨⟨value, rfl, -⟩, harguments⟩ := h
  refine ⟨value, bodyAt_singleton _ value, fun hkind => ?_⟩
  obtain ⟨arguments, operation, hbody, -⟩ := harguments hkind
  have hmembers := Json.object.inj hbody
  simp only [List.cons.injEq, Prod.mk.injEq] at hmembers
  exact ⟨arguments, hmembers.1.2⟩

theorem isMutation_of_operation (hshaped : resource.Shaped)
    (hallowed : Http.methodAllowed resource request.method = true)
    (hoptions : request.method ≠ bytes "OPTIONS") (hkind : resource.kind = .operation) :
    isMutation request = true := by
  unfold Model.Resource.Shaped at hshaped
  rw [hkind] at hshaped
  exact isMutation_of_post (post_of_allowed hshaped.1 hallowed hoptions)

/-- Serving a request to a published resource is defined. -/
theorem serve_defined [PortReader TypeCodec] (hpublished : circumstances.Published) :
    Defined (serve library rtt options request circumstances live).result := by
  unfold serve
  cases hdecide : decideRequest library rtt options request circumstances with
  | error exit => exact .error (decideRequest_declines hpublished exit hdecide).defined
  | ok decided =>
      obtain ⟨resource, staged⟩ := decided
      obtain ⟨hsupported, hresource, -, hreached⟩ := reached_of_decideRequest hpublished hdecide
      dsimp only
      have hboundary : Defined
          (boundary library options request circumstances staged live).result := boundary_defined
      split
      next exit hexit => exact .error (hboundary exit hexit)
      next => exact access_defined (equipped_of_shaped hresource.shaped hsupported) hreached

theorem caught_ne_undefined {exit : Exit} (h : exit ≠ .undefined) :
    caught library request exit ≠ .undefined := by
  unfold caught
  split
  next =>
    dsimp only
    split
    next => nofun
    next => nofun
  next => exact h

theorem respond_ne_undefined (result : Json) : respond library options request result ≠ .undefined := by
  unfold respond
  split
  next => nofun
  next => exact refusal_ne_undefined _ _ _
  next => nofun

end Safe

/-- No request to what is published follows a null pointer, reads a member that is
absent, or reads beyond a range. -/
theorem requests_safe [PortReader TypeCodec] {circumstances : Circumstances}
    (hpublished : circumstances.Published) (library : Library) (rtt : Rtt)
    (options : ServerOptions) (request : Request) (live : Live) :
    Safe library rtt options request circumstances live where
  handled := by
    have hserved : Defined (serve library rtt options request circumstances live).result :=
      serve_defined hpublished
    unfold handle
    dsimp only
    apply caught_ne_undefined
    split
    next exit hexit => exact hserved exit hexit
    next result _ => exact respond_ne_undefined result
  equipped path resource hresolve hsupported :=
    equipped_of_shaped (hpublished.published hresolve).shaped hsupported
  invocation path resource operation hresolve hsupported hoperation arguments := by
    have hcallable := callable_of_published hpublished hresolve hsupported hoperation
    obtain ⟨hdefined, hready⟩ := prepareInvocation_ready hcallable
    exact ⟨hdefined, fun prepared hprepared => (hready prepared hprepared).values⟩
  field path resource body hpreflight hpath hresolve hbody hreads := by
    obtain ⟨hallowed, hoptions, hresource⟩ := hpublished.allowed hpreflight hpath hresolve
    have hmutation : isMutation request = true :=
      hreads.elim id (isMutation_of_operation hresource.shaped hallowed hoptions)
    exact bodyAt_of_envelope (readBody_eq_ok hbody hmutation)

/-- A library that has parsed the arguments of a call. -/
def toggleLibrary : Library := parsedLibrary (.object [(bytes "arguments", .array [.bool true])])

/-- The request to toggle the valve. -/
def toggleRequest : Request :=
  jsonRequest "POST" "/api/v1/components/valve/operations/toggle" "\x7b\"arguments\":[true]\x7d"

/-- The valve is toggled, and what was collected is answered. -/
theorem requests_safe_toggle :
    valveCircumstances.Published ∧
      (handle toggleLibrary valveRtt {} toggleRequest valveCircumstances valveLive).1.status =
        some 200 ∧
      Safe toggleLibrary valveRtt {} toggleRequest valveCircumstances valveLive :=
  ⟨valveCircumstances_published, by decide +kernel,
    requests_safe valveCircumstances_published _ _ _ _ _⟩

end RttHttp.Server
