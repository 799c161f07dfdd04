import RttHttp.Executor.Dispatch
import RttHttp.Server.Safety

/-! # The answer to an operation

A call that is answered with 200 is answered with what the operation gave: its
return value, or null, and the final value of every argument that is listed among
its outputs. Which way the call was dispatched cannot be told from the response.
-/

namespace RttHttp.Server

open Codec (CodecContext TypeCodec Value written)
open Executor (Collects Outcome Prepared collects_of_ready prepareArguments prepareInvocation
  prepareInvocation_ready referenceIndices requestLimits responseLimits)
open Http (Library Request)
open Model (PortReader Resource)
open Model.ObjectModel (outputItem)
open Route (canonicalRequestPath)

/-! ## Documents -/

section Documents

variable (operation : Model.Operation TypeCodec)

/-- The JSON value of the collected value at a position. -/
def collectedJson (i : Nat) (value : Value) : Option Json :=
  match operation.collectBindings[i]? with
  | some (some binding) => written binding.codec value
  | _ => none

/-- The metadata that is listed for the outputs. -/
def outputMetadata : List Json := operation.outputs.map (outputItem operation.part)

/-- The position of the first output among the collected values. -/
def firstOutput : Nat := if operation.hasResult then 1 else 0

/-- A result and outputs that answer with an outcome: null for no result, and one
entry for each output that is listed, with the final value of its argument. -/
structure Answers (outcome : Outcome) (result : Json) (outputs : List Json) : Prop where
  null : result = .null ↔ operation.hasResult = false
  result : operation.hasResult = true → ∃ value, outcome.result = some value ∧
    collectedJson operation 0 value = some result
  count : outputs.length = (outputMetadata operation).length
  outputs : ∀ k index, operation.outputs[k]? = some index → ∃ value json,
    outcome.argument operation.part index = some value ∧
      collectedJson operation (k + firstOutput operation) value = some json ∧
      outputs[k]? = some json

end Documents

/-- The document of a result and outputs. -/
def answerDocument (result : Json) (outputs : List Json) : Json :=
  .object [(bytes "result", result), (bytes "outputs", .array outputs)]

/-- Two operations that take and give the same, on any threads. -/
structure Alike (first second : Model.Operation TypeCodec) : Prop where
  arguments : first.arguments = second.arguments
  collectBindings : first.collectBindings = second.collectBindings
  hasResult : first.hasResult = second.hasResult
  outputs : first.outputs = second.outputs
  references : referenceIndices first.part = referenceIndices second.part

/-- There is one answer to an outcome. -/
theorem Answers.unique {first second : Model.Operation TypeCodec} (halike : Alike first second)
    {outcome : Outcome} {result other : Json} {outputs others : List Json}
    (hfirst : Answers first outcome result outputs)
    (hsecond : Answers second outcome other others) : result = other ∧ outputs = others := by
  have hjson : collectedJson first = collectedJson second := by
    funext i value
    unfold collectedJson
    rw [halike.collectBindings]
  have hargument : outcome.argument first.part = outcome.argument second.part := by
    funext index
    unfold Outcome.argument
    rw [halike.references]
  have hposition : firstOutput first = firstOutput second := by
    unfold firstOutput
    rw [halike.hasResult]
  constructor
  · cases hresult : first.hasResult with
    | false =>
        rw [hfirst.null.mpr hresult, hsecond.null.mpr (halike.hasResult ▸ hresult)]
    | true =>
        obtain ⟨value, hvalue, hone⟩ := hfirst.result hresult
        obtain ⟨again, hagain, htwo⟩ := hsecond.result (halike.hasResult ▸ hresult)
        obtain rfl := Option.some.inj (hvalue.symm.trans hagain)
        rw [hjson, htwo] at hone
        exact (Option.some.inj hone).symm
  · have hcount : outputs.length = first.outputs.length := by
      rw [hfirst.count, outputMetadata, List.length_map]
    have hother : others.length = first.outputs.length := by
      rw [hsecond.count, outputMetadata, List.length_map, halike.outputs]
    apply List.ext_getElem?
    intro k
    cases hindex : first.outputs[k]? with
    | none =>
        rw [List.getElem?_eq_none_iff] at hindex
        rw [List.getElem?_eq_none (by omega), List.getElem?_eq_none (by omega)]
    | some index =>
        obtain ⟨value, json, hvalue, hone, hget⟩ := hfirst.outputs k index hindex
        obtain ⟨again, same, hagain, htwo, hget'⟩ := hsecond.outputs k index
          (halike.outputs ▸ hindex)
        rw [hargument, hagain] at hvalue
        obtain rfl := Option.some.inj hvalue
        rw [hjson, hposition, htwo] at hone
        obtain rfl := Option.some.inj hone
        rw [hget, hget']

/-! ## Collecting -/

section Collecting

variable {library : Library} {request : Request} {operation : Model.Operation TypeCodec}
  {values : List Value} {result : Json} {outputs : List Json} {context : CodecContext}
  {collected : Json × List Json}

/-- One round of the loop over the collected values. -/
theorem collectValues_cons {value : Value} {rest : List Value} {i : Nat}
    (h : collectValues library request operation (value :: rest) i result outputs context =
      .ok collected) : ∃ json after, collectedJson operation i value = some json ∧
      (if i = 0 ∧ operation.hasResult then
        collectValues library request operation rest (i + 1) json outputs after
      else collectValues library request operation rest (i + 1) result (outputs ++ [json]) after) =
        .ok collected := by
  rw [collectValues] at h
  unfold collectedJson
  split at h
  next binding hbinding =>
    dsimp only at h
    split at h
    next => cases h
    next hconverted =>
      obtain ⟨hwritten, -⟩ :=
        (Codec.toJson_ends binding.codec value .null context).of_converted hconverted
      exact ⟨_, _, by simpa only [hbinding] using hwritten, h⟩
  next => cases h

/-- The loop from a position on at which all values are outputs. -/
theorem collectValues_outputs {i : Nat} (hposition : ¬ (i = 0 ∧ operation.hasResult = true))
    (h : collectValues library request operation values i result outputs context =
      .ok collected) :
    ∃ jsons, collected = (result, outputs ++ jsons) ∧
      jsons.map some = values.mapIdx fun k value => collectedJson operation (k + i) value := by
  induction values generalizing i outputs context with
  | nil =>
      cases h
      exact ⟨[], by simp, rfl⟩
  | cons value rest ih =>
      obtain ⟨json, after, hjson, hrest⟩ := collectValues_cons h
      rw [if_neg hposition] at hrest
      obtain ⟨jsons, rfl, hjsons⟩ := ih (by omega) hrest
      refine ⟨json :: jsons, by rw [List.append_assoc, List.singleton_append], ?_⟩
      rw [List.map_cons, hjsons, List.mapIdx_cons, Nat.zero_add, hjson]
      refine congrArg _ (congrArg (List.mapIdx · rest) ?_)
      funext k other
      rw [Nat.add_assoc, Nat.add_comm 1 i]

/-- The whole loop over what was collected: the return value is the result, and the
references are the outputs. -/
theorem collectValues_outcome {outcome : Outcome}
    (hresult : outcome.result.isSome = operation.hasResult)
    (h : collectValues library request operation outcome.collected 0 .null [] context =
      .ok collected) :
    (operation.hasResult = false → collected.1 = .null) ∧
      (operation.hasResult = true → ∃ value, outcome.result = some value ∧
        collectedJson operation 0 value = some collected.1) ∧
      collected.2.map some = outcome.references.mapIdx fun k value =>
        collectedJson operation (k + firstOutput operation) value := by
  unfold Outcome.collected at h
  unfold firstOutput
  cases hvalue : outcome.result with
  | none =>
      rw [hvalue, Option.isSome_none] at hresult
      rw [hvalue] at h
      obtain ⟨jsons, rfl, hjsons⟩ := collectValues_outputs (by simp [← hresult]) h
      rw [← hresult, if_neg Bool.false_ne_true]
      exact ⟨fun _ => rfl, nofun, hjsons⟩
  | some value =>
      rw [hvalue, Option.isSome_some] at hresult
      rw [hvalue] at h
      obtain ⟨json, after, hjson, hrest⟩ := collectValues_cons h
      rw [if_pos ⟨rfl, hresult.symm⟩] at hrest
      obtain ⟨jsons, rfl, hjsons⟩ := collectValues_outputs (by omega) hrest
      rw [← hresult, if_pos rfl]
      exact ⟨nofun, fun _ => ⟨value, rfl, hjson⟩, hjsons⟩

/-- The argument at the index of an output ends with the value at its position. -/
theorem argument_of_output {prepared : Prepared} {outcome : Outcome}
    (hcollects : Collects prepared outcome) {k index : Nat}
    (hindex : prepared.operation.outputs[k]? = some index) {value : Value}
    (hvalue : outcome.references[k]? = some value) :
    outcome.argument prepared.operation.part index = some value := by
  unfold Outcome.argument
  have hkeys : ((referenceIndices prepared.operation.part).zip outcome.references).map Prod.fst =
      referenceIndices prepared.operation.part :=
    List.map_fst_zip (by rw [hcollects.references, hcollects.given])
  refine (OrderedMap.lookup_eq_some_iff ?_).mpr ?_
  · rw [hkeys]
    exact Executor.referenceIndices_nodup _
  · refine List.mem_of_getElem? (?_ : _[k]? = _)
    rw [hcollects.references, List.getElem?_zip_eq_some]
    exact ⟨hindex, hvalue⟩

/-- What the handler answers with is the outcome. -/
theorem answers_of_collectValues {prepared : Prepared} {outcome : Outcome}
    (hcollects : Collects prepared outcome)
    (h : collectValues library request prepared.operation outcome.collected 0 .null [] context =
      .ok collected) : Answers prepared.operation outcome collected.1 collected.2 := by
  obtain ⟨hnull, hresult, houtputs⟩ := collectValues_outcome hcollects.result h
  have hlength : collected.2.length = outcome.references.length := by
    simpa using congrArg List.length houtputs
  refine ⟨⟨?_, hnull⟩, hresult, ?_, ?_⟩
  · intro heq
    by_contra hsome
    obtain ⟨value, -, hjson⟩ := hresult (by simpa using hsome)
    unfold collectedJson at hjson
    split at hjson
    next => exact Codec.written_ne_null hjson heq
    next => cases hjson
  · rw [hlength, hcollects.given, outputMetadata, List.length_map]
  · intro k index hindex
    have hk : k < outcome.references.length :=
      hcollects.given ▸ (List.getElem?_eq_some_iff.mp hindex).1
    have hvalue : outcome.references[k]? = some outcome.references[k] := List.getElem?_eq_getElem hk
    obtain ⟨json, hjson⟩ : ∃ json, collected.2[k]? = some json :=
      ⟨_, List.getElem?_eq_getElem (hlength ▸ hk)⟩
    refine ⟨_, json, argument_of_output hcollects hindex hvalue, ?_, hjson⟩
    have hposition := congrArg (·[k]?) houtputs
    simpa [hvalue, hjson] using hposition.symm

end Collecting

/-! ## Responses with 200 -/

/-- An exit that is not answered with 200. -/
def NotOk (library : Library) (request : Request) (exit : Exit) : Prop :=
  (caught library request exit).status ≠ some 200

section NotOk

variable {library : Library} {rtt : Rtt} {options : ServerOptions} {request : Request}
  {circumstances : Circumstances} {resource : Resource TypeCodec} {staged : Staged} {live : Live}

theorem refuse_notOk {α : Type} {status : Nat} {suffix : Option String} {response : Http.Response}
    (h : status ≠ 200) :
    Fails (NotOk library request)
      (refuse library request status suffix response : Except Exit α) :=
  .refuse (status_caught_refusal (by decide) h suffix response)

theorem threw_notOk (thrown : Http.Thrown) (response : Http.Response) :
    NotOk library request (.threw thrown response) :=
  status_caught_threw (by decide) thrown response

theorem Declined.notOk {exit : Exit} (h : Declined library request exit) :
    NotOk library request exit := h.status (by decide) fun _ => by decide

theorem undefined_notOk : NotOk library request .undefined := by
  simp [NotOk, caught, Exit.status]

theorem boundary_notOk :
    Fails (NotOk library request)
      (boundary library options request circumstances staged live).result := by
  unfold boundary
  split
  next => exact refuse_notOk (by decide)
  next =>
    split
    next =>
      dsimp only
      split
      next => exact .ok _
      next => exact refuse_notOk (by decide)
      next => exact .error (threw_notOk _ _)
    next => exact .ok _

theorem collectValues_notOk {operation : Model.Operation TypeCodec} {values : List Value} {i : Nat}
    {result : Json} {outputs : List Json} {context : CodecContext} :
    Fails (NotOk library request)
      (collectValues library request operation values i result outputs context) := by
  induction values generalizing i result outputs context with
  | nil => exact .ok _
  | cons value rest ih =>
      rw [collectValues]
      split
      next =>
        dsimp only
        split
        next => exact refuse_notOk (by decide)
        next =>
          split
          next => exact ih
          next => exact ih
      next => exact .error undefined_notOk

/-- What is answered with 200 has finished with status 200, and was collected. -/
theorem operationResult_cases {prepared : Prepared} {context : CodecContext} :
    Fails (NotOk library request)
      (operationResult library request circumstances prepared context) ∧
      ∀ document, operationResult library request circumstances prepared context = .ok document →
        ∃ collected, document = answerDocument collected.1 collected.2 ∧
          collectValues library request prepared.operation
            ((List.range prepared.values.length).map circumstances.values) 0 .null [] context =
              .ok collected := by
  unfold operationResult
  split
  next =>
    split
    next hstatus => exact ⟨refuse_notOk hstatus, nofun⟩
    next =>
      constructor
      · apply collectValues_notOk.bind
        intro collected _
        exact .ok _
      · intro document h
        obtain ⟨collected, hcollected, hdocument⟩ := Model.bind_eq_ok.mp h
        cases hdocument
        exact ⟨collected, rfl, hcollected⟩
  next => exact ⟨refuse_notOk (by decide), nofun⟩

/-- Serving an admitted invocation ends in the document of the operation. -/
theorem serve_invocation (live : Live) {prepared : Prepared} (hkind : resource.kind = .operation)
    (hdecide : decideRequest library rtt options request circumstances =
      .ok (resource, .invocation prepared)) :
    Fails (NotOk library request) (serve library rtt options request circumstances live).result ∧
      ∀ document, (serve library rtt options request circumstances live).result = .ok document →
        operationResult library request circumstances prepared (.fresh (responseLimits options)) =
          .ok document := by
  have hboundary : Fails (NotOk library request) (boundary library options request circumstances
      (.invocation prepared) live).result := boundary_notOk
  unfold serve
  rw [hdecide]
  dsimp only
  split
  next exit hexit => exact ⟨.error (hboundary exit hexit), nofun⟩
  next =>
    have hattempt : Fails (NotOk library request) (attempt library .respond) :=
      .attempt threw_notOk .respond
    unfold access
    dsimp only
    split
    next exit hexit => exact ⟨.error (hattempt exit hexit), nofun⟩
    next =>
      rw [hkind]
      exact ⟨operationResult_cases.1, fun document h => h⟩

theorem respond_of_status {document : Json}
    (h : (caught library request (respond library options request document)).status = some 200) :
    ∃ encoded, library.serializeJson document (responseLimits options) = .ok (.ok encoded) ∧
      caught library request (respond library options request document) = .returned
        { status := some 200, content := some (encoded, bytes "application/json") } := by
  unfold respond at h ⊢
  split at h
  next thrown _ => exact absurd h (threw_notOk thrown {})
  next => exact absurd h (status_caught_refusal (by decide) (by decide) _ _)
  next encoded hencoded => exact ⟨encoded, hencoded, rfl⟩

/-- The document of an operation that is answered with 200. -/
theorem served_of_status [PortReader TypeCodec] (hpublished : circumstances.Published)
    (haddresses : Addresses request circumstances resource) (hkind : resource.kind = .operation)
    (hstatus : (handle library rtt options request circumstances live).1.status = some 200) :
    ∃ prepared collected encoded, Prepares library rtt options request resource prepared ∧
      resource.supported = true ∧
      collectValues library request prepared.operation
        ((List.range prepared.values.length).map circumstances.values) 0 .null []
        (.fresh (responseLimits options)) = .ok collected ∧
      library.serializeJson (answerDocument collected.1 collected.2) (responseLimits options) =
        .ok (.ok encoded) ∧
      (handle library rtt options request circumstances live).1 = .returned
        { status := some 200, content := some (encoded, bytes "application/json") } := by
  unfold handle at hstatus ⊢
  dsimp only at hstatus ⊢
  cases hdecide : decideRequest library rtt options request circumstances with
  | error exit =>
      have hserve : (serve library rtt options request circumstances live).result =
          .error exit := by
        unfold serve
        rw [hdecide]
      rw [hserve] at hstatus
      exact absurd hstatus (decideRequest_declines hpublished exit hdecide).notOk
  | ok decided =>
      obtain ⟨found, staged⟩ := decided
      obtain ⟨hsupported, -, hfound, hreached⟩ := reached_of_decideRequest hpublished hdecide
      obtain rfl := haddresses.unique hfound
      obtain ⟨prepared, rfl, hprepares⟩ : ∃ prepared, staged = .invocation prepared ∧
          Prepares library rtt options request resource prepared := by
        cases hreached with
        | operation _ _ hprepares => exact ⟨_, rfl, hprepares⟩
        | description hother | read hother | assign hother | latest hother | samples hother =>
            rw [hother] at hkind
            cases hkind
      obtain ⟨hfails, hserved⟩ := serve_invocation live hkind hdecide
      cases hserve : (serve library rtt options request circumstances live).result with
      | error exit =>
          rw [hserve] at hstatus
          exact absurd hstatus (hfails exit hserve)
      | ok document =>
          rw [hserve] at hstatus
          obtain ⟨collected, rfl, hcollected⟩ :=
            operationResult_cases.2 document (hserved document hserve)
          obtain ⟨encoded, hencoded, hexit⟩ := respond_of_status hstatus
          exact ⟨prepared, collected, encoded, hprepares, hsupported, hcollected, hencoded, hexit⟩

end NotOk

/-! ## Calls of one operation -/

/-- A request that is handled, with all that it meets. -/
structure Call where
  rtt : Rtt
  request : Request
  circumstances : Circumstances
  live : Live

/-- How the call is left. -/
def Call.exit (call : Call) (library : Library) (options : ServerOptions) : Exit :=
  (handle library call.rtt options call.request call.circumstances call.live).1

/-- The call is one of a published operation that does `invoke`. Its invocation, on
whichever path it was dispatched, holds what RTT leaves in its data sources. -/
structure Call.Invokes [PortReader TypeCodec] (call : Call) (library : Library)
    (options : ServerOptions) (invoke : List Value → Outcome)
    (operation : Model.Operation TypeCodec) : Prop where
  published : call.circumstances.Published
  addresses : ∃ resource, Addresses call.request call.circumstances resource ∧
    resource.kind = .operation ∧ resource.operation = some operation
  fits : ∀ arguments, (invoke arguments).Fits operation.part
  holds : ∀ arguments prepared, Envelops library options call.request (bytes "arguments")
    (.array arguments) → prepareInvocation call.rtt.caller operation arguments options = .ok prepared →
    prepared.Holds (invoke prepared.arguments) call.circumstances.values

/-- Wherever the operation at a path is listed, this is the metadata of its outputs. -/
def OutputsListed (model : Model.ObjectModel TypeCodec) (path : Bytes)
    (operation : Model.Operation TypeCodec) : Prop :=
  ∀ entry ∈ model.publications, ∀ listing ∈ Model.listings entry.2.routes,
    path ∈ Model.links listing.2 →
      JsonObject.find? listing.2 (bytes "outputs") = some (.array (outputMetadata operation))

/-- The response to a call gives the outcome for the arguments in its body, in the
order in which the outputs are listed. -/
def Call.Answered (call : Call) (library : Library) (options : ServerOptions)
    (operation : Model.Operation TypeCodec) (invoke : List Value → Outcome) : Prop :=
  ∃ path arguments values result outputs encoded,
    canonicalRequestPath call.request.target = some path ∧
    OutputsListed call.circumstances.after path operation ∧
    Envelops library options call.request (bytes "arguments") (.array arguments) ∧
    prepareArguments (operation.arguments.zip arguments) [] (.fresh (requestLimits options)) =
      .ok values ∧
    Answers operation (invoke values) result outputs ∧
    library.serializeJson (answerDocument result outputs) (responseLimits options) =
      .ok (.ok encoded) ∧
    call.exit library options =
      .returned { status := some 200, content := some (encoded, bytes "application/json") }

section Calls

variable [PortReader TypeCodec] {library : Library} {options : ServerOptions}
  {invoke : List Value → Outcome}

/-- The metadata of an operation that a path leads to. -/
theorem outputsListed_of_published {circumstances : Circumstances}
    (hpublished : circumstances.Published) {path : Bytes} {resource : Resource TypeCodec}
    {operation : Model.Operation TypeCodec}
    (hresolve : circumstances.after.resolve path = some resource)
    (hkind : resource.kind = .operation) (hoperation : resource.operation = some operation) :
    OutputsListed circumstances.after path operation := by
  obtain ⟨-, hsound, -, hexplained⟩ := hpublished.sound
  have hpath : path ≠ Route.root := by
    rintro rfl
    rw [Model.ObjectModel.resolve, if_pos rfl] at hresolve
    cases hresolve
    cases hkind
  intro entry hentry listing hlisting hlink
  obtain ⟨component, -, hstage⟩ := hsound.staged entry hentry
  have hagreement := Model.ObjectModel.stage_agreement hexplained hstage
  -- The link leads to a route of the same publication, and a path has one resource.
  obtain ⟨-, hcount⟩ := hagreement.linked listing hlisting path hlink
  have hmem : path ∈ entry.2.routes.map Prod.fst := by
    rw [← List.count_pos_iff, hcount]
    exact Nat.one_pos
  obtain ⟨⟨key, other⟩, hroute, rfl⟩ := List.mem_map.mp hmem
  obtain ⟨owner, howner, hfound⟩ := (hsound.resolve_iff hpath).mp hresolve
  obtain rfl := hsound.unique hentry howner hroute hfound
  exact hagreement.outputs hroute hkind hoperation hlisting hlink

/-- The response to a call does not depend on how it was dispatched. -/
theorem Call.Invokes.answered {call : Call} {operation : Model.Operation TypeCodec}
    (h : call.Invokes library options invoke operation)
    (hstatus : (call.exit library options).status = some 200) :
    call.Answered library options operation invoke := by
  obtain ⟨resource, haddresses, hkind, hoperation⟩ := h.addresses
  obtain ⟨prepared, collected, encoded, hprepares, hsupported, hcollected, hencoded, hexit⟩ :=
    served_of_status h.published haddresses hkind hstatus
  obtain ⟨arguments, found, henvelops, hfound, -, hprepared⟩ := hprepares
  obtain rfl := Option.some.inj (hoperation.symm.trans hfound)
  obtain ⟨path, hpath, hresolve⟩ := haddresses
  have hdescribed := (h.published.published hresolve).described operation hoperation
  rw [hsupported] at hdescribed
  have hready := (prepareInvocation_ready hdescribed.callable).2 prepared hprepared
  have hcollects := collects_of_ready hready hdescribed (h.fits prepared.arguments)
  rw [hcollects.holds (h.holds arguments prepared henvelops hprepared)] at hcollected
  have hanswers := answers_of_collectValues hcollects hcollected
  rw [hready.calls] at hanswers
  exact ⟨path, arguments, prepared.arguments, collected.1, collected.2, encoded, hpath,
    outputsListed_of_published h.published hresolve hkind hoperation, henvelops, hready.decoded,
    hanswers, hencoded, hexit⟩

/-- Two calls of what is the same operation, each made directly or sent, are answered
alike, and with what the operation gave. -/
theorem dispatch_paths_agree {call other : Call} {first second : Model.Operation TypeCodec}
    (hcall : call.Invokes library options invoke first)
    (hother : other.Invokes library options invoke second) (halike : Alike first second)
    (hbody : call.request.body = other.request.body)
    (hstatus : (call.exit library options).status = some 200)
    (hotherStatus : (other.exit library options).status = some 200) :
    call.Answered library options first invoke ∧ other.Answered library options second invoke ∧
      call.exit library options = other.exit library options := by
  have hone := hcall.answered hstatus
  have htwo := hother.answered hotherStatus
  refine ⟨hone, htwo, ?_⟩
  obtain ⟨-, arguments, values, result, outputs, encoded, -, -, henvelops, hdecoded, hanswers,
    hencoded, hexit⟩ := hone
  obtain ⟨-, arguments', values', result', outputs', encoded', -, -, henvelops', hdecoded',
    hanswers', hencoded', hexit'⟩ := htwo
  -- The two bodies are parsed alike, so the arguments decode to the same values.
  unfold Envelops at henvelops henvelops'
  rw [hbody, henvelops'] at henvelops
  simp only [Except.ok.injEq, Json.object.injEq, List.cons.injEq, Prod.mk.injEq, Json.array.injEq,
    true_and, and_true] at henvelops
  subst henvelops
  rw [halike.arguments, hdecoded', Except.ok.injEq] at hdecoded
  subst hdecoded
  obtain ⟨rfl, rfl⟩ := hanswers.unique halike hanswers'
  rw [hencoded, Except.ok.injEq, Except.ok.injEq] at hencoded'
  subst hencoded'
  rw [hexit, hexit']

end Calls

/-! ### The valve, toggled on both paths -/

section Toggle

/-- The operation of the valve, as it is published. -/
def toggleOperation : Model.Operation TypeCodec :=
  ((valveModel.resolve (bytes "/api/v1/components/valve/operations/toggle")).bind
    (·.operation)).get (by decide +kernel)

theorem toggle_addresses : ∃ resource, Addresses toggleRequest valveCircumstances resource ∧
    resource.kind = .operation ∧ resource.operation = some toggleOperation := by
  have hkind : (valveModel.resolve (bytes "/api/v1/components/valve/operations/toggle")).map
      (·.kind) = some .operation := by decide +kernel
  obtain ⟨resource, hresolve, hfound⟩ := Option.map_eq_some_iff.mp hkind
  refine ⟨resource, ⟨_, by decide +kernel, hresolve⟩, hfound, ?_⟩
  have hoperation : (valveModel.resolve (bytes "/api/v1/components/valve/operations/toggle")).bind
      (·.operation) = some toggleOperation := (Option.some_get _).symm
  rwa [hresolve] at hoperation

/-- The valve was open and stays so. -/
def toggleOutcome : Outcome := ⟨some (.typed .bool true), [.typed .bool true]⟩

theorem toggle_holds (prepared : Prepared) : prepared.Holds toggleOutcome valveCircumstances.values := by
  have hwrites : ∀ (cells : List Executor.Slot) (values : List Value),
      (∀ value ∈ values, value = .typed .bool true) →
      Machine.writeAll (fun _ => Value.typed .bool true) cells values =
        fun _ => .typed .bool true := by
    intro cells values hvalues
    induction cells generalizing values with
    | nil => rfl
    | cons cell rest ih =>
        cases values with
        | nil => rfl
        | cons value others =>
            obtain ⟨rfl, hothers⟩ := List.forall_mem_cons.mp hvalues
            rw [Machine.writeAll_cons, Function.update_eq_self]
            exact ih others hothers
  refine ⟨fun _ => .typed .bool true, fun i _ cell _ => ?_⟩
  unfold Prepared.finish Prepared.collect Prepared.call
  rw [hwrites _ _ (by simp [toggleOutcome, Outcome.collected]),
    hwrites _ _ (by simp [toggleOutcome])]
  simp [toggleOutcome, valveCircumstances]

/-- RTT without a sender for the thread of the valve. -/
def directRtt : Rtt := { valveRtt with
  caller := fun part arguments => { valveRtt.caller part arguments with send := none } }

def sentCall : Call := ⟨valveRtt, toggleRequest, valveCircumstances, valveLive⟩

def directCall : Call := ⟨directRtt, toggleRequest, valveCircumstances, valveLive⟩

theorem toggle_invokes (rtt : Rtt) :
    Call.Invokes ⟨rtt, toggleRequest, valveCircumstances, valveLive⟩ toggleLibrary {}
      (fun _ => toggleOutcome) toggleOperation where
  published := valveCircumstances_published
  addresses := toggle_addresses
  fits _ := ⟨by decide +kernel, by decide +kernel⟩
  holds _ prepared _ _ := toggle_holds prepared

theorem dispatch_paths_agree_toggle :
    (directCall.exit toggleLibrary {}).status = some 200 ∧
      (sentCall.exit toggleLibrary {}).status = some 200 ∧
      directCall.exit toggleLibrary {} = sentCall.exit toggleLibrary {} := by
  have hdirect : (directCall.exit toggleLibrary {}).status = some 200 := by decide +kernel
  have hsent : (sentCall.exit toggleLibrary {}).status = some 200 := by decide +kernel
  exact ⟨hdirect, hsent, (dispatch_paths_agree (toggle_invokes directRtt) (toggle_invokes valveRtt)
    ⟨rfl, rfl, rfl, rfl, rfl⟩ rfl hdirect hsent).2.2⟩

end Toggle

end RttHttp.Server
