import RttHttp.Executor.Delivery
import RttHttp.Server.Calls

/-! # How calls are answered

A call that gets to the executor is answered with one of four statuses, and with 200 only
if its invocation has finished with 200. Then the response gives what the data sources of
the invocation hold. A request that is no call leaves the executor alone.
-/

namespace RttHttp.Server

open Codec (CodecContext TypeCodec Value)
open Executor (Ends Outcome Prepared Store prepareArguments prepareInvocation_ready requestLimits
  responseLimits)
open Http (Library Request)
open Model (PortReader Resource)

/-! ## Statuses -/

/-- The statuses that a call is answered with. -/
def CallStatus (status : Nat) : Prop := Ends status ∨ status = 504

/-- A way to leave the handler of a call. -/
def Concludes (library : Library) (request : Request) (exit : Exit) : Prop :=
  ∀ status, (caught library request exit).status = some status → CallStatus status

section Concluding

variable {library : Library} {rtt : Rtt} {options : ServerOptions} {request : Request}
  {circumstances : Circumstances} {resource : Resource TypeCodec} {live : Live}

theorem threw_concludes (thrown : Http.Thrown) (response : Http.Response) :
    Concludes library request (.threw thrown response) := by
  intro status hstatus
  by_cases h500 : status = 500
  · exact .inl (.inr (.inl h500))
  · exact absurd hstatus (status_caught_threw h500 thrown response)

theorem refusal_concludes {status : Nat} (h : CallStatus status) (suffix : Option String)
    (response : Http.Response) :
    Concludes library request (refusal library request status suffix response) := by
  intro other hother
  by_cases h500 : other = 500
  · exact .inl (.inr (.inl h500))
  · by_cases hsame : status = other
    · exact hsame ▸ h
    · exact absurd hother (status_caught_refusal h500 hsame suffix response)

theorem refuse_concludes {α : Type} {status : Nat} {suffix : Option String}
    {response : Http.Response} (h : CallStatus status) :
    Fails (Concludes library request)
      (refuse library request status suffix response : Except Exit α) :=
  .refuse (refusal_concludes h suffix response)

theorem undefined_concludes : Concludes library request .undefined := nofun

theorem callStatus_500 : CallStatus 500 := .inl (.inr (.inl rfl))

theorem callStatus_503 : CallStatus 503 := .inl (.inr (.inr rfl))

/-- The loop over the collected values refuses with 500 or not at all. -/
theorem collectValues_concludes {operation : Model.Operation TypeCodec} {values : List Value}
    {i : Nat} {result : Json} {outputs : List Json} {context : CodecContext} :
    Fails (Concludes library request)
      (collectValues library request operation values i result outputs context) := by
  induction values generalizing i result outputs context with
  | nil => exact .ok _
  | cons value rest ih =>
      rw [collectValues]
      split
      next =>
        dsimp only
        split
        next => exact refuse_concludes callStatus_500
        next =>
          split
          next => exact ih
          next => exact ih
      next => exact .error undefined_concludes

theorem operationResult_concludes {prepared : Prepared} {context : CodecContext}
    (hstatus : Ends circumstances.status) :
    Fails (Concludes library request)
      (operationResult library request circumstances prepared context) := by
  unfold operationResult
  split
  next =>
    split
    next => exact refuse_concludes (.inl hstatus)
    next =>
      apply collectValues_concludes.bind
      intro collected _
      exact .ok _
  next => exact refuse_concludes (.inr rfl)

theorem boundary_concludes {staged : Staged} :
    Fails (Concludes library request)
      (boundary library options request circumstances staged live).result := by
  unfold boundary
  split
  next => exact refuse_concludes callStatus_503
  next =>
    split
    next =>
      dsimp only
      split
      next => exact .ok _
      next => exact refuse_concludes callStatus_503
      next => exact .error (threw_concludes _ _)
    next => exact .ok _

theorem respond_concludes (document : Json) :
    Concludes library request (respond library options request document) := by
  unfold respond
  split
  next thrown _ => exact threw_concludes thrown {}
  next => exact refusal_concludes callStatus_500 _ {}
  next =>
    intro status hstatus
    cases hstatus
    exact .inl (.inl rfl)

/-- A request that has staged an invocation is answered as calls are. -/
theorem handle_concludes {prepared : Prepared} (hkind : resource.kind = .operation)
    (hdecide : decideRequest library rtt options request circumstances =
      .ok (resource, .invocation prepared)) (hstatus : Ends circumstances.status) {status : Nat}
    (h : (handle library rtt options request circumstances live).1.status = some status) :
    CallStatus status := by
  have hserve : Fails (Concludes library request)
      (serve library rtt options request circumstances live).result := by
    unfold serve
    rw [hdecide]
    dsimp only
    split
    next exit hexit => exact .error (boundary_concludes exit hexit)
    next =>
      unfold access
      dsimp only
      split
      next exit hexit =>
        have hattempt : Fails (Concludes library request) (attempt library .respond) :=
          .attempt threw_concludes .respond
        exact .error (hattempt exit hexit)
      next =>
        rw [hkind]
        exact operationResult_concludes hstatus
  unfold handle at h
  dsimp only at h
  cases hresult : (serve library rtt options request circumstances live).result with
  | error exit =>
      rw [hresult] at h
      exact hserve exit hresult status h
  | ok document =>
      rw [hresult] at h
      exact respond_concludes document status h

/-- An operation is answered with 200 only if its invocation has finished with 200. -/
theorem call_of_status [PortReader TypeCodec] (hpublished : circumstances.Published)
    (haddresses : Addresses request circumstances resource) (hkind : resource.kind = .operation)
    (h : (handle library rtt options request circumstances live).1.status = some 200) :
    ∃ prepared, decideRequest library rtt options request circumstances =
        .ok (resource, .invocation prepared) ∧
      circumstances.second.running = true ∧ waitLoop circumstances.polls = true ∧
      circumstances.status = 200 := by
  unfold handle at h
  dsimp only at h
  cases hdecide : decideRequest library rtt options request circumstances with
  | error exit =>
      have hserve : (serve library rtt options request circumstances live).result =
          .error exit := by
        unfold serve
        rw [hdecide]
      rw [hserve] at h
      exact absurd h (decideRequest_declines hpublished exit hdecide).notOk
  | ok decided =>
      obtain ⟨found, staged⟩ := decided
      obtain ⟨-, -, hfound, hreached⟩ := reached_of_decideRequest hpublished hdecide
      obtain rfl := haddresses.unique hfound
      obtain ⟨prepared, rfl⟩ : ∃ prepared, staged = .invocation prepared := by
        cases hreached with
        | operation => exact ⟨_, rfl⟩
        | description hother | read hother | assign hother | latest hother | samples hother =>
            exact absurd (hkind.symm.trans hother) nofun
      obtain ⟨hfails, hserved⟩ := serve_invocation live hkind hdecide
      cases hserve : (serve library rtt options request circumstances live).result with
      | error exit =>
          rw [hserve] at h
          exact absurd h (hfails exit hserve)
      | ok document =>
          have hresult := hserved document hserve
          refine ⟨prepared, rfl, ?_, ?_⟩
          · by_contra hstopped
            unfold serve boundary at hserve
            rw [hdecide] at hserve
            simp [hstopped, refuse] at hserve
          · unfold operationResult at hresult
            split at hresult
            next hpolls =>
              split at hresult
              next => cases hresult
              next hfinished => exact ⟨hpolls, not_not.mp hfinished⟩
            next => cases hresult

/-- Nothing but the boundary touches the executor. -/
theorem access_executor {staged : Staged} :
    (access library rtt options request circumstances resource staged live).live.executor =
      live.executor := by
  unfold access
  dsimp only
  split
  next => rfl
  next =>
    split
    next => rfl
    next =>
      split
      next => rfl
      next =>
        split
        next => rfl
        next => rfl
    next =>
      split
      next => rfl
      next => rfl
    next =>
      split
      next => rfl
      next =>
        split
        next => rfl
        next => rfl
    next =>
      split
      next => rfl
      next => rfl

end Concluding

/-! ## One call -/

section Exchanges

variable [PortReader TypeCodec] {exchange : Exchange} {prepared : Prepared} {live : Live}

/-- The request is a `POST` to an operation, with the arguments of the invocation in its body. -/
structure Exchange.Asks (exchange : Exchange) (prepared : Prepared)
    (resource : Resource TypeCodec) : Prop where
  addresses : Addresses exchange.request exchange.circumstances resource
  kind : resource.kind = .operation
  post : exchange.request.method = bytes "POST"
  prepares : Prepares exchange.library exchange.rtt exchange.options exchange.request resource prepared
  decided : decideRequest exchange.library exchange.rtt exchange.options exchange.request
    exchange.circumstances = .ok (resource, .invocation prepared)

theorem Exchange.call_eq_some (h : exchange.call = some prepared) :
    exchange.circumstances.second.running = true ∧ ∃ resource, exchange.Asks prepared resource := by
  unfold Exchange.call at h
  split at h
  next hrunning =>
    refine ⟨hrunning, ?_⟩
    split at h
    next resource other hdecide =>
      cases h
      obtain ⟨-, -, haddresses, hreached⟩ := reached_of_decideRequest exchange.published hdecide
      cases hreached with
      | operation hkind hpost hprepares =>
          exact ⟨resource, haddresses, hkind, hpost, hprepares, hdecide⟩
    next => cases h
  next => cases h

theorem Exchange.call_of_decided {resource : Resource TypeCodec}
    (hrunning : exchange.circumstances.second.running = true)
    (hdecide : decideRequest exchange.library exchange.rtt exchange.options exchange.request
      exchange.circumstances = .ok (resource, .invocation prepared)) :
    exchange.call = some prepared := by
  unfold Exchange.call
  rw [if_pos hrunning, hdecide]

@[simp] theorem Exchange.call_meets (exchange : Exchange) (i : Nat) (polls : List Poll) (status : Nat)
    (values : Nat → Value) : (exchange.meets i polls status values).call = exchange.call := rfl

theorem Exchange.status_of_call (hcall : exchange.call = some prepared)
    (hends : Ends exchange.circumstances.status) {status : Nat}
    (h : (exchange.exit live).status = some status) : CallStatus status := by
  obtain ⟨-, resource, hasks⟩ := Exchange.call_eq_some hcall
  exact handle_concludes hasks.kind hasks.decided hends h

/-- A call assigns nothing. -/
theorem Exchange.assignment_of_call (hcall : exchange.call = some prepared) :
    exchange.assignment = none := by
  obtain ⟨-, resource, hasks⟩ := Exchange.call_eq_some hcall
  unfold Exchange.assignment
  rw [hasks.decided]

/-- A request that is no call leaves the executor alone. -/
theorem Exchange.executor_after (hcall : exchange.call = none) :
    (exchange.after live).executor = live.executor := by
  change (serve exchange.library exchange.rtt exchange.options exchange.request
    exchange.circumstances live).live.executor = live.executor
  unfold serve
  split
  next => rfl
  next resource staged hdecide =>
    dsimp only
    cases hrunning : exchange.circumstances.second.running with
    | false => simp [boundary, hrunning, refuse]
    | true =>
        have hstaged : ∀ prepared, staged ≠ .invocation prepared := by
          rintro prepared rfl
          rw [Exchange.call_of_decided hrunning hdecide] at hcall
          cases hcall
        rw [boundary_of_running hstaged, hrunning, if_pos rfl]
        exact access_executor

/-- The answer gives an outcome of the operation, for the arguments in the body. -/
structure Exchange.Gives (exchange : Exchange) (prepared : Prepared) (outcome : Outcome)
    (exit : Exit) : Prop where
  exists_answer : ∃ arguments result outputs encoded,
    Envelops exchange.library exchange.options exchange.request (bytes "arguments")
      (.array arguments) ∧
    prepareArguments (prepared.operation.arguments.zip arguments) []
      (.fresh (requestLimits exchange.options)) = .ok prepared.arguments ∧
    Answers prepared.operation outcome result outputs ∧
    exchange.library.serializeJson (answerDocument result outputs)
      (responseLimits exchange.options) = .ok (.ok encoded) ∧
    exit = .returned { status := some 200, content := some (encoded, bytes "application/json") }

/-- A finished call that is answered with 200 gives what its data sources hold. -/
theorem Exchange.gives_of_status (hcall : exchange.call = some prepared) {outcome : Outcome}
    {store : Store} (hfits : outcome.Fits prepared.operation.part)
    (hvalues : exchange.circumstances.values = heldValues prepared (prepared.finish outcome store))
    (hstatus : (exchange.exit live).status = some 200) :
    exchange.Gives prepared outcome (exchange.exit live) := by
  obtain ⟨-, resource, hasks⟩ := Exchange.call_eq_some hcall
  obtain ⟨arguments, operation, henvelops, hoperation, -, hprepared⟩ := hasks.prepares
  obtain ⟨path, hpath, hresolve⟩ := hasks.addresses
  have hdescribed := (exchange.published.published hresolve).described operation hoperation
  rw [(decideRequest_eq_ok hasks.decided).2.2.1] at hdescribed
  have hready := (prepareInvocation_ready hdescribed.callable).2 prepared hprepared
  obtain rfl := hready.calls
  have hinvokes : Call.Invokes ⟨exchange.rtt, exchange.request, exchange.circumstances, live⟩
      exchange.library exchange.options (fun _ => outcome) prepared.operation := by
    refine ⟨exchange.published, ⟨resource, ⟨path, hpath, hresolve⟩, hasks.kind, hoperation⟩,
      fun _ => hfits, ?_⟩
    intro others other hothers hother
    unfold Envelops at henvelops hothers
    rw [henvelops] at hothers
    simp only [Except.ok.injEq, Json.object.injEq, List.cons.injEq, Prod.mk.injEq,
      Json.array.injEq, true_and, and_true] at hothers
    subst hothers
    obtain rfl := Except.ok.inj (hprepared.symm.trans hother)
    refine ⟨store, fun i _ cell hcell => ?_⟩
    rw [hvalues, heldValues, hcell]
  obtain ⟨-, others, values, result, outputs, encoded, -, -, hothers, hdecoded, hanswers, hencoded,
    hexit⟩ := hinvokes.answered hstatus
  unfold Envelops at henvelops hothers
  have hsame := henvelops.symm.trans hothers
  simp only [Except.ok.injEq, Json.object.injEq, List.cons.injEq, Prod.mk.injEq,
    Json.array.injEq, true_and, and_true] at hsame
  subst hsame
  exact ⟨arguments, result, outputs, encoded, henvelops, hready.decoded, hanswers, hencoded, hexit⟩

end Exchanges

end RttHttp.Server
