import RttHttp.Codec.Storage
import RttHttp.Machine.Register
import RttHttp.Server.Answers
import RttHttp.Server.Effects

/-! # Variables

The properties and attributes of the components are variables, which clients read and
write through the server while the components go on writing them. Seen from the
clients they are registers: what is read is what was written last, by whomever.
-/

namespace RttHttp.Server

open Codec (CodecContext TypeCodec Value accepted written)
open Executor (OperationExecutor requestLimits responseLimits)
open Http (Library Request)
open Model (PortReader Resource)

/-! ## Exchanges -/

section Exchanges

variable [PortReader TypeCodec]

/-- A request, and all that it meets when it is handled: RTT keeps its contract, and the
models are published. -/
structure Exchange where
  library : Library
  rtt : Rtt
  options : ServerOptions
  request : Request
  circumstances : Circumstances
  lawful : rtt.Lawful
  published : circumstances.Published

namespace Exchange

/-- How the exchange ends. -/
def exit (exchange : Exchange) (live : Live) : Exit :=
  (handle exchange.library exchange.rtt exchange.options exchange.request exchange.circumstances
    live).1

/-- The live state after it. -/
def after (exchange : Exchange) (live : Live) : Live :=
  (handle exchange.library exchange.rtt exchange.options exchange.request exchange.circumstances
    live).2.1

/-- The variable that the request would assign, and the value in its body. -/
def assignment (exchange : Exchange) : Option (Nat × Value) :=
  match decideRequest exchange.library exchange.rtt exchange.options exchange.request
    exchange.circumstances with
  | .ok (resource, .value value) =>
      if resource.kind = .value then resource.source.map fun source => (source.address, value)
      else none
  | _ => none

/-- The request is about a variable, which is converted by the given codec. -/
structure About (exchange : Exchange) (codec : TypeCodec) (address : Nat) : Prop where
  exists_resource : ∃ resource binding source,
    Addresses exchange.request exchange.circumstances resource ∧ resource.kind = .value ∧
      resource.binding = some binding ∧ binding.codec = codec ∧
      resource.source = some source ∧ source.address = address

end Exchange

/-- What may happen next: a request is handled and answered with a status, a component
writes one of its variables, or the executor goes on. -/
inductive Turn where
  | exchange (exchange : Exchange) (status : Option Nat)
  | component (address : Nat) (value : Value)
  | executor (after : OperationExecutor)

/-- One turn; a request is answered as it is handled. -/
def turn (live : Live) : Turn → Option Live
  | .exchange exchange status =>
      if (exchange.exit live).status = status then some (exchange.after live) else none
  | .component address value =>
      some { live with values := Function.update live.values address value }
  | .executor after => some { live with executor := after }

/-- The variable that a turn writes: an assignment counts when it is answered with 204. -/
def Turn.written : Turn → Option (Nat × Value)
  | .exchange request status => if status = some 204 then request.assignment else none
  | .component address value => some (address, value)
  | .executor _ => none

end Exchanges

/-! ## Writing -/

/-- A body holds one value. -/
theorem Decodes.unique {library : Library} {options : ServerOptions} {request : Request}
    {resource : Resource TypeCodec} {first second : Value}
    (hfirst : Decodes library options request resource first)
    (hsecond : Decodes library options request resource second) : first = second := by
  obtain ⟨json, binding, hjson, hbinding, hvalue⟩ := hfirst
  obtain ⟨json', binding', hjson', hbinding', hvalue'⟩ := hsecond
  unfold Envelops at hjson hjson'
  rw [hjson'] at hjson
  simp only [Except.ok.injEq, Json.object.injEq, List.cons.injEq, Prod.mk.injEq, true_and,
    and_true] at hjson
  obtain rfl := Option.some.inj (hbinding.symm.trans hbinding')
  rw [← hjson, hvalue'] at hvalue
  exact (Option.some.inj hvalue).symm

section Writing

variable [PortReader TypeCodec] {exchange : Exchange} {live : Live}

/-- An assignment comes from a `PUT` to a variable. -/
theorem Exchange.assignment_eq_some {address : Nat} {value : Value} (h : exchange.assignment = some (address, value)) :
    ∃ resource source, Addresses exchange.request exchange.circumstances resource ∧
      resource.kind = .value ∧ exchange.request.method = bytes "PUT" ∧
      resource.source = some source ∧ source.address = address ∧
      Decodes exchange.library exchange.options exchange.request resource value := by
  unfold Exchange.assignment at h
  split at h
  next resource staged hdecide =>
    split at h
    next hkind =>
      obtain ⟨source, hsource, hpair⟩ := Option.map_eq_some_iff.mp h
      cases hpair
      obtain ⟨-, -, haddresses, hreached⟩ := reached_of_decideRequest exchange.published hdecide
      cases hreached with
      | assign _ hput hdecodes => exact ⟨resource, source, haddresses, hkind, hput, hsource, rfl, hdecodes⟩
      | samples hother => exact absurd (hkind.symm.trans hother) nofun
    next => cases h
  next => cases h

/-- What is assigned was decided before. -/
theorem Exchange.assignment_of_assign {resource : Resource TypeCodec} {source : Model.DataSource} {value : Value}
    {result : Except Http.Thrown Bool}
    (haddresses : Addresses exchange.request exchange.circumstances resource)
    (hkind : resource.kind = .value) (hput : exchange.request.method = bytes "PUT")
    (hsource : resource.source = some source)
    (hdecodes : Decodes exchange.library exchange.options exchange.request resource value)
    (heffects : (serve exchange.library exchange.rtt exchange.options exchange.request
      exchange.circumstances live).effects = [.assign (some source) (some value) result]) :
    exchange.assignment = some (source.address, value) := by
  cases hdecide : decideRequest exchange.library exchange.rtt exchange.options exchange.request
      exchange.circumstances with
  | error exit =>
      unfold serve at heffects
      rw [hdecide] at heffects
      cases heffects
  | ok decided =>
      obtain ⟨found, staged⟩ := decided
      obtain ⟨-, -, hfound, hreached⟩ := reached_of_decideRequest exchange.published hdecide
      obtain rfl := haddresses.unique hfound
      cases hreached with
      | assign _ _ hother =>
          obtain rfl := hother.unique hdecodes
          simp [Exchange.assignment, hdecide, hkind, hsource]
      | read _ hread => exact absurd (hread.symm.trans (isMutation_of_put hput)) (by decide)
      | description hother | latest hother | samples hother | operation hother =>
          exact absurd (hkind.symm.trans hother) nofun

/-- The step lemma of variables: they change as the answer says. -/
theorem Exchange.values_after :
    (exchange.after live).values =
      (Turn.exchange exchange (exchange.exit live).status).written.elim live.values
        fun write => Function.update live.values write.1 write.2 := by
  have hserves : Serves exchange.library exchange.rtt exchange.options exchange.request
      exchange.circumstances live (serve exchange.library exchange.rtt exchange.options
        exchange.request exchange.circumstances live) := serve_cases exchange.published
  cases hassignment : exchange.assignment with
  | some assigned =>
      obtain ⟨address, value⟩ := assigned
      obtain ⟨resource, source, haddresses, hkind, hput, hsource, rfl, hdecodes⟩ :=
        Exchange.assignment_eq_some hassignment
      obtain ⟨hdone, hsame, -⟩ := hserves.of_value exchange.lawful haddresses hkind hput
      by_cases hstatus : (exchange.exit live).status = some 204
      · obtain ⟨same, held, hsource', hdecodes', -, hvalues⟩ := hdone.mp hstatus
        obtain rfl := Option.some.inj (hsource.symm.trans hsource')
        obtain rfl := hdecodes.unique hdecodes'
        simp only [Turn.written, hstatus, if_true, hassignment]
        exact hvalues
      · simp only [Turn.written, hstatus, if_false]
        exact hsame hstatus
  | none =>
      have hwritten : (Turn.exchange exchange (exchange.exit live).status).written = none := by
        simp [Turn.written, hassignment]
      rw [hwritten]
      change (serve exchange.library exchange.rtt exchange.options exchange.request
        exchange.circumstances live).live.values = live.values
      generalize hserved : serve exchange.library exchange.rtt exchange.options exchange.request
        exchange.circumstances live = served at hserves ⊢
      cases hserves with
      | assign haddresses hkind hput hsource _ hdecodes =>
          have hsome := Exchange.assignment_of_assign haddresses hkind hput hsource
            hdecodes (congrArg Handled.effects hserved)
          exact absurd (hassignment.symm.trans hsome) nofun
      | quiet | write | turnedAway | admitted => rfl

/-- The server and the components work on a family of registers. -/
theorem holdsRegisters_turn : Machine.HoldsRegisters turn Live.values Turn.written := by
  intro live action next hnext
  cases action with
  | exchange exchange status =>
      obtain ⟨hstatus, hafter⟩ := Option.ite_none_right_eq_some.mp hnext
      cases hafter
      rw [← hstatus]
      exact exchange.values_after
  | component address value =>
      cases hnext
      rfl
  | executor after =>
      cases hnext
      rfl

/-- A `PUT` that is answered with 204 wrote what its body holds in the type of the variable. -/
theorem Exchange.written_of_status {codec : TypeCodec} {address : Nat}
    (habout : exchange.About codec address) (hput : exchange.request.method = bytes "PUT")
    (hstatus : (exchange.exit live).status = some 204) :
    ∃ json value, Envelops exchange.library exchange.options exchange.request (bytes "value") json ∧
      accepted codec json = some value ∧
      (Turn.exchange exchange (some 204)).written = some (address, value) := by
  obtain ⟨resource, binding, source, haddresses, hkind, hbinding, rfl, hsource, rfl⟩ :=
    habout.exists_resource
  have hserves : Serves exchange.library exchange.rtt exchange.options exchange.request
      exchange.circumstances live (serve exchange.library exchange.rtt exchange.options
        exchange.request exchange.circumstances live) := serve_cases exchange.published
  obtain ⟨hdone, -, -⟩ := hserves.of_value exchange.lawful haddresses hkind hput
  obtain ⟨same, value, hsame, hdecodes, heffects, -⟩ := hdone.mp hstatus
  obtain rfl := Option.some.inj (hsource.symm.trans hsame)
  obtain ⟨json, found, hjson, hfound, hvalue⟩ := id hdecodes
  obtain rfl := Option.some.inj (hbinding.symm.trans hfound)
  refine ⟨json, value, hjson, ?_, ?_⟩
  · have hconverted : (Codec.makeDataSource binding.codec json
        (.fresh (requestLimits exchange.options))).status = .converted := by
      by_contra hfailed
      have hnone := (Codec.makeDataSource_ends binding.codec json
        (.fresh (requestLimits exchange.options))).output_of_failed hfailed
      rw [hvalue] at hnone
      cases hnone
    obtain ⟨held, hheld, haccepted⟩ := Codec.makeDataSource_output hconverted
    rw [haccepted, ← hheld, hvalue]
  · rw [Turn.written, if_pos rfl]
    exact Exchange.assignment_of_assign haddresses hkind hput hsource hdecodes heffects

end Writing

/-! ## Reading -/

section Reading

variable {library : Library} {rtt : Rtt} {options : ServerOptions} {request : Request}
  {circumstances : Circumstances} {resource : Resource TypeCodec} {live : Live}

/-- A source that is read holds what the document says, or the answer is not 200. -/
theorem readSource_cases {codec : TypeCodec} {source : Option Model.DataSource} {values : Values}
    {context : CodecContext} :
    Fails (NotOk library request) (readSource library rtt request codec source values context) ∧
      ∀ json, readSource library rtt request codec source values context = .ok json →
        ∃ found, source = some found ∧ written codec (values found.address) = some json := by
  cases source with
  | none => exact ⟨refuse_notOk (by decide), fun _ h => nomatch h⟩
  | some found =>
      unfold readSource
      dsimp only
      split
      next thrown _ => exact ⟨.error (threw_notOk thrown {}), fun _ h => nomatch h⟩
      next => exact ⟨refuse_notOk (by decide), fun _ h => nomatch h⟩
      next =>
        split
        next hconverted =>
          refine ⟨.ok _, fun json h => ⟨found, rfl, ?_⟩⟩
          cases h
          exact ((Codec.toJson_ends codec _ .null context).of_converted hconverted).1
        next => exact ⟨refuse_notOk (by decide), fun _ h => nomatch h⟩

/-- What a request to read a variable comes to when it gets past the boundary. -/
theorem access_value {binding : Model.TypeBinding TypeCodec} (hkind : resource.kind = .value)
    (hread : isMutation request = false) (hbinding : resource.binding = some binding) :
    Fails (NotOk library request)
        (access library rtt options request circumstances resource .nothing live).result ∧
      ∀ document, (access library rtt options request circumstances resource .nothing live).result =
          .ok document →
        ∃ source json, resource.source = some source ∧
          written binding.codec (live.values source.address) = some json ∧
          document = .object [(bytes "value", json)] := by
  unfold access attempt
  cases library.throws .respond with
  | some thrown => exact ⟨.error (threw_notOk thrown {}), fun _ h => nomatch h⟩
  | none =>
      simp only [hkind, hbinding, hread, Bool.false_eq_true, if_false]
      obtain ⟨hfails, hholds⟩ := @readSource_cases library rtt request binding.codec resource.source
        live.values (.fresh (responseLimits options))
      refine ⟨hfails.map _, ?_⟩
      intro document hdocument
      cases hsource : readSource library rtt request binding.codec resource.source live.values
          (.fresh (responseLimits options)) with
      | error exit =>
          rw [hsource] at hdocument
          cases hdocument
      | ok json =>
          rw [hsource] at hdocument
          cases hdocument
          obtain ⟨source, hfound, hwritten⟩ := hholds json hsource
          exact ⟨source, json, hfound, hwritten, rfl⟩

end Reading

section Registers

variable [PortReader TypeCodec] {live later : Live}

/-- A variable that is read with 200 is answered with what it holds. -/
theorem Exchange.read_of_status {exchange : Exchange} {codec : TypeCodec} {address : Nat}
    (habout : exchange.About codec address) (hread : isMutation exchange.request = false)
    (hstatus : (exchange.exit live).status = some 200) :
    ∃ json text, written codec (live.values address) = some json ∧
      exchange.library.serializeJson (.object [(bytes "value", json)])
        (responseLimits exchange.options) = .ok (.ok text) ∧
      exchange.exit live = .returned
        { status := some 200, content := some (text, bytes "application/json") } := by
  obtain ⟨resource, binding, source, haddresses, hkind, hbinding, rfl, hsource, rfl⟩ :=
    habout.exists_resource
  unfold Exchange.exit handle at hstatus ⊢
  dsimp only at hstatus ⊢
  cases hdecide : decideRequest exchange.library exchange.rtt exchange.options exchange.request
      exchange.circumstances with
  | error exit =>
      have hserve : (serve exchange.library exchange.rtt exchange.options exchange.request
          exchange.circumstances live).result = .error exit := by
        unfold serve
        rw [hdecide]
      rw [hserve] at hstatus
      exact absurd hstatus (decideRequest_declines exchange.published exit hdecide).notOk
  | ok decided =>
      obtain ⟨found, staged⟩ := decided
      obtain ⟨-, -, hfound, hreached⟩ := reached_of_decideRequest exchange.published hdecide
      obtain rfl := haddresses.unique hfound
      obtain rfl : staged = .nothing := by
        cases hreached with
        | read => rfl
        | assign _ hput => exact absurd (hread.symm.trans (isMutation_of_put hput)) (by decide)
        | description | latest => rfl
        | samples hother | operation hother => exact absurd (hkind.symm.trans hother) nofun
      have hstaged : ∀ prepared, Staged.nothing ≠ .invocation prepared := nofun
      rw [serve_of_running hstaged hdecide] at hstatus ⊢
      cases hrunning : exchange.circumstances.second.running with
      | false =>
          rw [hrunning] at hstatus
          have hrefused : NotOk exchange.library exchange.request
              (refusal exchange.library exchange.request 503 none {}) :=
            status_caught_refusal (by decide) (by decide) none {}
          exact absurd hstatus hrefused
      | true =>
          rw [hrunning, if_pos rfl] at hstatus
          rw [if_pos rfl]
          obtain ⟨hfails, hholds⟩ := @access_value exchange.library exchange.rtt exchange.options
            exchange.request exchange.circumstances resource live binding hkind hread hbinding
          cases haccess : (access exchange.library exchange.rtt exchange.options exchange.request
              exchange.circumstances resource .nothing live).result with
          | error exit =>
              rw [haccess] at hstatus
              exact absurd hstatus (hfails exit haccess)
          | ok document =>
              rw [haccess] at hstatus
              obtain ⟨same, json, hsame, hwritten, rfl⟩ := hholds document haccess
              obtain rfl := Option.some.inj (hsource.symm.trans hsame)
              obtain ⟨text, htext, hexit⟩ := respond_of_status hstatus
              exact ⟨json, text, hwritten, htext, hexit⟩

/-! ## Registers -/

/-- A client reads the value: the response is made of its JSON form. -/
def Exchange.Shows (exchange : Exchange) (live : Live) (codec : TypeCodec) (value : Value)
    (json : Json) : Prop :=
  written codec value = some json ∧ ∃ text,
    exchange.library.serializeJson (.object [(bytes "value", json)])
      (responseLimits exchange.options) = .ok (.ok text) ∧
    exchange.exit live = .returned
      { status := some 200, content := some (text, bytes "application/json") }

/-- A client has put the value: it is what the body holds. -/
def Exchange.Puts (exchange : Exchange) (codec : TypeCodec) (value : Value) (json : Json) : Prop :=
  Envelops exchange.library exchange.options exchange.request (bytes "value") json ∧
    accepted codec json = some value

end Registers

/-! ### The valve, opened and looked at -/

def openExchange : Exchange where
  library := openLibrary
  rtt := valveRtt
  options := {}
  request := openRequest
  circumstances := valveCircumstances
  lawful := valveRtt_lawful
  published := valveCircumstances_published

/-- The request to look whether the valve is open. -/
def lookExchange : Exchange where
  library := openLibrary
  rtt := valveRtt
  options := {}
  request := { openRequest with method := bytes "GET" }
  circumstances := valveCircumstances
  lawful := valveRtt_lawful
  published := valveCircumstances_published

theorem open_about : ∃ codec address, openExchange.About codec address ∧
    lookExchange.About codec address := by
  have hfound : ((valveModel.resolve (bytes "/api/v1/components/valve/properties/open")).any
      fun resource => resource.kind = .value && resource.binding.isSome && resource.source.isSome) =
        true := by
    decide +kernel
  obtain ⟨resource, hresolve, hresource⟩ := (Option.any_eq_true _ _).mp hfound
  simp only [Bool.and_eq_true, decide_eq_true_eq] at hresource
  obtain ⟨⟨hkind, hbinding⟩, hsource⟩ := hresource
  obtain ⟨binding, hbinding⟩ := Option.isSome_iff_exists.mp hbinding
  obtain ⟨source, hsource⟩ := Option.isSome_iff_exists.mp hsource
  refine ⟨binding.codec, source.address, ⟨resource, binding, source, ?_⟩,
    ⟨resource, binding, source, ?_⟩⟩
  · exact ⟨⟨_, by decide +kernel, hresolve⟩, hkind, hbinding, rfl, hsource, rfl⟩
  · exact ⟨⟨_, by decide +kernel, hresolve⟩, hkind, hbinding, rfl, hsource, rfl⟩

end RttHttp.Server
