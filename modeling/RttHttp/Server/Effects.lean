import RttHttp.Server.Exits

/-! # The effects of a request

Live RTT state is touched at one place for each kind of resource, behind every
check. What a request did there is what its status says: 204 stands for the one
assignment or port write that succeeded, and an operation is queued exactly when
the response was not decided by then.
-/

namespace RttHttp.Server

open Codec (TypeCodec Value)
open Executor (Prepared)
open Http (Library Request Response)
open Model (DataSource PortReader Resource)
open Route (canonicalRequestPath)

/-! ## One access for each kind -/

section Access

variable {library : Library} {rtt : Rtt} {options : ServerOptions} {request : Request}
  {circumstances : Circumstances} {resource : Resource TypeCodec} {staged : Staged} {live : Live}

/-- An assignment replaces the value of its destination exactly when it says so. -/
theorem assign_values (hrtt : rtt.Lawful) (codec : TypeCodec) (value : Value)
    (destination : DataSource) (values : Values) :
    (assign rtt codec (some value) (some destination) values).2 =
      if (assign rtt codec (some value) (some destination) values).1 = .ok true then
        Function.update values destination.address value
      else values := by
  have hstore := hrtt.store destination value values
  have hupdate := hrtt.update destination value values
  cases codec with
  | typed code =>
      unfold assign
      dsimp only
      split
      next =>
        cases hstored : rtt.store destination value values with
        | mk thrown after =>
            rw [hstored] at hstore
            cases thrown with
            | none => simpa using hstore
            | some thrown => simpa using hstore
      next => simp
  | record type members =>
      unfold assign
      dsimp only
      split
      next => exact hupdate
      next => simp
  | sequence type length element =>
      unfold assign
      dsimp only
      split
      next => exact hupdate
      next => simp

/-- Away from operations the boundary only looks at the lifecycle. -/
theorem boundary_of_running (hstaged : ∀ prepared, staged ≠ .invocation prepared) :
    boundary library options request circumstances staged live =
      if circumstances.second.running then ⟨.ok (), live, []⟩
      else ⟨refuse library request 503 none {}, live, []⟩ := by
  unfold boundary
  cases circumstances.second.running with
  | false => rfl
  | true =>
      cases staged with
      | invocation prepared => exact absurd rfl (hstaged prepared)
      | nothing => rfl
      | value value => rfl

variable (library request) in
theorem assignAnswer_declines {result : Except Http.Thrown Bool} (h : result ≠ .ok true) :
    ∃ exit, assignAnswer library request result = .error exit ∧
      (caught library request exit).status ≠ some 204 := by
  cases result with
  | error thrown => exact ⟨_, rfl, status_caught_threw (by decide) thrown {}⟩
  | ok done =>
      cases done with
      | true => exact absurd rfl h
      | false => exact ⟨_, rfl, status_caught_refusal (by decide) (by decide) none {}⟩

variable (library request) in
theorem writeAnswer_declines {result : Except Http.Thrown WriteStatus}
    (h : result ≠ .ok .writeSuccess) :
    ∃ exit, writeAnswer library request result = .error exit ∧
      (caught library request exit).status ≠ some 204 := by
  have hrefuse : ∀ status suffix, status ≠ 204 → ∃ exit,
      (refuse library request status suffix {} : Except Exit Json) = .error exit ∧
        (caught library request exit).status ≠ some 204 :=
    fun _ suffix hstatus => ⟨_, rfl, status_caught_refusal (by decide) hstatus suffix {}⟩
  cases result with
  | error thrown => exact ⟨_, rfl, status_caught_threw (by decide) thrown {}⟩
  | ok status =>
      cases status with
      | writeSuccess => exact absurd rfl h
      | notConnected => exact hrefuse _ _ (by decide)
      | writeFailure => exact hrefuse _ _ (by decide)
      | other => exact hrefuse _ _ (by decide)

end Access

/-! ## What serving a request can do -/

/-- What a request that may be queued has behind it. -/
structure Admissible (library : Library) (rtt : Rtt) (options : ServerOptions) (request : Request)
    (circumstances : Circumstances) (resource : Resource TypeCodec) : Prop where
  addresses : Addresses request circumstances resource
  kind : resource.kind = .operation
  post : request.method = bytes "POST"
  supported : resource.supported = true
  started : circumstances.first.running = true
  running : circumstances.second.running = true
  prepared : ∃ prepared, Prepares library rtt options request resource prepared

/-- Everything that serving a request can do to live state. -/
inductive Serves (library : Library) (rtt : Rtt) (options : ServerOptions) (request : Request)
    (circumstances : Circumstances) (live : Live) : Handled Json → Prop
  | quiet {result : Except Exit Json} (hanswer : isMutation request = true → ∃ exit,
      result = .error exit ∧ (caught library request exit).status ≠ some 204) :
      Serves library rtt options request circumstances live ⟨result, live, []⟩
  | assign {resource : Resource TypeCodec} {binding : Model.TypeBinding TypeCodec}
      {source : DataSource} {value : Value} (haddresses : Addresses request circumstances resource)
      (hkind : resource.kind = .value) (hput : request.method = bytes "PUT")
      (hsource : resource.source = some source) (hbinding : resource.binding = some binding)
      (hdecodes : Decodes library options request resource value) :
      Serves library rtt options request circumstances live
        { result := assignAnswer library request
            (assign rtt binding.codec (some value) (some source) live.values).1
          live := { live with
            values := (assign rtt binding.codec (some value) (some source) live.values).2 }
          effects := [.assign (some source) (some value)
            (assign rtt binding.codec (some value) (some source) live.values).1] }
  | write {resource : Resource TypeCodec} {bridge : Model.PortBridge} {value : Value}
      (haddresses : Addresses request circumstances resource) (hkind : resource.kind = .samples)
      (hpost : request.method = bytes "POST") (hbridge : resource.bridge = some bridge)
      (hdecodes : Decodes library options request resource value) :
      Serves library rtt options request circumstances live
        { result := writeAnswer library request (rtt.write bridge (some value)), live := live
          effects := [.write bridge (some value) (rtt.write bridge (some value))] }
  | turnedAway {resource : Resource TypeCodec} {exit : Exit} {result : Executor.AdmitResult}
      (hadmissible : Admissible library rtt options request circumstances resource)
      (hresult : result ≠ .admitted) :
      Serves library rtt options request circumstances live
        ⟨.error exit, live, [.admission circumstances.invocation result]⟩
  | admitted {resource : Resource TypeCodec} {answer : Except Exit Json}
      (hadmissible : Admissible library rtt options request circumstances resource)
      (hcapacity : live.executor.pending.length < options.maxPendingOperations.toNat)
      (hopen : live.executor.shutdown = false) :
      Serves library rtt options request circumstances live
        { result := answer
          live := { live with executor := { live.executor with
            pending := live.executor.pending ++ [circumstances.invocation]
            queue := live.executor.queue ++ [circumstances.invocation] } }
          effects := [.admission circumstances.invocation .admitted] }

section Serving

variable {library : Library} {rtt : Rtt} {options : ServerOptions} {request : Request}
  {circumstances : Circumstances} {resource : Resource TypeCodec} {staged : Staged} {live : Live}

theorem options_of_mutation (h : isMutation request = true) : request.method ≠ bytes "OPTIONS" := by
  intro hoptions
  unfold isMutation at h
  rw [hoptions] at h
  exact absurd h (by decide)

/-- Reading leaves live state alone. -/
theorem access_read (hread : isMutation request = false) (hsamples : resource.kind ≠ .samples) :
    ∃ result, access library rtt options request circumstances resource staged live =
      ⟨result, live, []⟩ := by
  unfold access
  dsimp only
  split
  next exit _ => exact ⟨_, rfl⟩
  next =>
    cases hkind : resource.kind with
    | description => exact ⟨_, rfl⟩
    | value =>
        dsimp only
        split
        next => exact ⟨_, rfl⟩
        next =>
          rw [if_neg (by simp [hread])]
          exact ⟨_, rfl⟩
    | latest =>
        dsimp only
        split
        next => exact ⟨_, rfl⟩
        next => exact ⟨_, rfl⟩
    | samples => exact absurd hkind hsamples
    | operation =>
        dsimp only
        split
        next => exact ⟨_, rfl⟩
        next => exact ⟨_, rfl⟩

/-- Waiting for an invocation and answering it leaves live state alone. -/
theorem access_operation (hkind : resource.kind = .operation) :
    ∃ result, access library rtt options request circumstances resource staged live =
      ⟨result, live, []⟩ := by
  unfold access
  dsimp only
  split
  next exit _ => exact ⟨_, rfl⟩
  next =>
    rw [hkind]
    dsimp only
    split
    next => exact ⟨_, rfl⟩
    next => exact ⟨_, rfl⟩

/-- A value that passed the boundary is assigned once. -/
theorem access_assign {binding : Model.TypeBinding TypeCodec} {source : DataSource} {value : Value}
    (hkind : resource.kind = .value) (hput : request.method = bytes "PUT")
    (hbinding : resource.binding = some binding) (hsource : resource.source = some source)
    (hthrows : library.throws .respond = none) :
    access library rtt options request circumstances resource (.value value) live =
      { result := assignAnswer library request
          (assign rtt binding.codec (some value) (some source) live.values).1
        live := { live with
          values := (assign rtt binding.codec (some value) (some source) live.values).2 }
        effects := [.assign (some source) (some value)
          (assign rtt binding.codec (some value) (some source) live.values).1] } := by
  unfold access attempt
  simp only [hthrows, hkind, hbinding, hsource, isMutation_of_put hput, if_true, Staged.value?]

/-- A sample that passed the boundary is written at most once. -/
theorem access_samples {bridge : Model.PortBridge} {value : Value}
    (hkind : resource.kind = .samples) (hbridge : resource.bridge = some bridge)
    (hthrows : library.throws .respond = none) :
    access library rtt options request circumstances resource (.value value) live =
      if rtt.peerWrites bridge then
        { result := writeAnswer library request (rtt.write bridge (some value)), live := live
          effects := [.write bridge (some value) (rtt.write bridge (some value))] }
      else ⟨refuse library request 500 none {}, live, []⟩ := by
  unfold access attempt
  simp only [hthrows, hkind, hbridge, Staged.value?]

/-- What follows the boundary when nothing is admitted there. -/
theorem serve_of_running (hstaged : ∀ prepared, staged ≠ .invocation prepared)
    (hdecide : decideRequest library rtt options request circumstances = .ok (resource, staged)) :
    serve library rtt options request circumstances live =
      if circumstances.second.running then
        access library rtt options request circumstances resource staged live
      else ⟨refuse library request 503 none {}, live, []⟩ := by
  unfold serve
  rw [hdecide]
  simp only [boundary_of_running hstaged]
  cases circumstances.second.running with
  | true => simp
  | false => rfl

theorem refuse_quiet {status : Nat} {suffix : Option String} (hstatus : status ≠ 204) :
    Serves library rtt options request circumstances live
      ⟨refuse library request status suffix {}, live, []⟩ :=
  .quiet fun _ => ⟨_, rfl, status_caught_refusal (by decide) hstatus suffix {}⟩

/-- An allocation that fails in front of the access leaves live state alone. -/
theorem access_threw {thrown : Http.Thrown} (hthrows : library.throws .respond = some thrown) :
    access library rtt options request circumstances resource staged live =
      ⟨.error (.threw thrown {}), live, []⟩ := by
  unfold access attempt
  simp only [hthrows]

theorem threw_quiet (thrown : Http.Thrown) :
    Serves library rtt options request circumstances live
      ⟨.error (.threw thrown {}), live, []⟩ :=
  .quiet fun _ => ⟨_, rfl, status_caught_threw (by decide) thrown {}⟩

theorem serve_assign {value : Value} {binding : Model.TypeBinding TypeCodec} {source : DataSource}
    (haddresses : Addresses request circumstances resource)
    (hdecide : decideRequest library rtt options request circumstances = .ok (resource, .value value))
    (hkind : resource.kind = .value) (hput : request.method = bytes "PUT")
    (hdecodes : Decodes library options request resource value)
    (hbinding : resource.binding = some binding) (hsource : resource.source = some source) :
    Serves library rtt options request circumstances live
      (serve library rtt options request circumstances live) := by
  have hstaged : ∀ prepared, Staged.value value ≠ .invocation prepared := nofun
  rw [serve_of_running hstaged hdecide]
  split
  next =>
    cases hthrows : library.throws .respond with
    | some thrown =>
        rw [access_threw hthrows]
        exact threw_quiet thrown
    | none =>
        rw [access_assign hkind hput hbinding hsource hthrows]
        exact .assign haddresses hkind hput hsource hbinding hdecodes
  next => exact refuse_quiet (by decide)

theorem serve_samples {value : Value} {bridge : Model.PortBridge}
    (haddresses : Addresses request circumstances resource)
    (hdecide : decideRequest library rtt options request circumstances = .ok (resource, .value value))
    (hkind : resource.kind = .samples) (hpost : request.method = bytes "POST")
    (hdecodes : Decodes library options request resource value)
    (hbridge : resource.bridge = some bridge) :
    Serves library rtt options request circumstances live
      (serve library rtt options request circumstances live) := by
  have hstaged : ∀ prepared, Staged.value value ≠ .invocation prepared := nofun
  rw [serve_of_running hstaged hdecide]
  split
  next =>
    cases hthrows : library.throws .respond with
    | some thrown =>
        rw [access_threw hthrows]
        exact threw_quiet thrown
    | none =>
        rw [access_samples hkind hbridge hthrows]
        split
        next => exact .write haddresses hkind hpost hbridge hdecodes
        next => exact refuse_quiet (by decide)
  next => exact refuse_quiet (by decide)

theorem serve_operation {prepared : Prepared}
    (haddresses : Addresses request circumstances resource)
    (hdecide : decideRequest library rtt options request circumstances =
      .ok (resource, .invocation prepared))
    (hkind : resource.kind = .operation) (hpost : request.method = bytes "POST")
    (hprepares : Prepares library rtt options request resource prepared) :
    Serves library rtt options request circumstances live
      (serve library rtt options request circumstances live) := by
  obtain ⟨hpreflight, -, hsupported, -⟩ := decideRequest_eq_ok hdecide
  have hstarted := (preflight_eq_ok hpreflight).1
  unfold serve boundary
  rw [hdecide]
  cases hrunning : circumstances.second.running with
  | false => exact refuse_quiet (by decide)
  | true =>
      have hadmissible : Admissible library rtt options request circumstances resource :=
        ⟨haddresses, hkind, hpost, hsupported, hstarted, hrunning, prepared, hprepares⟩
      rcases Executor.OperationExecutor.admit_cases live.executor circumstances.invocation
        options.maxPendingOperations.toNat circumstances.fault with
        ⟨hadmission, -⟩ | ⟨hadmission, -⟩ | ⟨hadmission, -, hopen, hcapacity⟩
      · simp only [hadmission]
        exact .turnedAway hadmissible nofun
      · simp only [hadmission]
        exact .turnedAway hadmissible nofun
      · simp only [hadmission, Bool.not_true, Bool.false_eq_true, if_false]
        obtain ⟨result, haccess⟩ := access_operation hkind
        rw [haccess]
        exact .admitted hadmissible hcapacity hopen

/-- The inversion of `serve`. -/
theorem serve_cases [PortReader TypeCodec] (hpublished : circumstances.Published) :
    Serves library rtt options request circumstances live
      (serve library rtt options request circumstances live) := by
  cases hdecide : decideRequest library rtt options request circumstances with
  | error exit =>
      unfold serve
      rw [hdecide]
      refine .quiet fun hmutation => ⟨exit, rfl, ?_⟩
      have hdeclined := decideRequest_declines hpublished exit hdecide
      exact hdeclined.status (by decide) fun hoptions =>
        absurd hoptions (options_of_mutation hmutation)
  | ok decided =>
      obtain ⟨resource, staged⟩ := decided
      obtain ⟨hsupported, hresource, haddresses, hreached⟩ :=
        reached_of_decideRequest hpublished hdecide
      have hshaped := hresource.shaped
      unfold Model.Resource.Shaped at hshaped
      have hquiet : isMutation request = false → resource.kind ≠ .samples →
          (∀ prepared, staged ≠ .invocation prepared) →
          Serves library rtt options request circumstances live
            (serve library rtt options request circumstances live) := by
        intro hread hsamples hstaged
        rw [serve_of_running hstaged hdecide]
        split
        next =>
          obtain ⟨result, haccess⟩ := access_read hread hsamples
          rw [haccess]
          exact .quiet fun hmutation => absurd (hread.symm.trans hmutation) (by decide)
        next => exact refuse_quiet (by decide)
      cases hreached with
      | description hkind hread => exact hquiet hread (by simp [hkind]) nofun
      | read hkind hread => exact hquiet hread (by simp [hkind]) nofun
      | latest hkind hread => exact hquiet hread (by simp [hkind]) nofun
      | assign hkind hput hdecodes =>
          rw [hkind] at hshaped
          obtain ⟨⟨source, hsource, -⟩, -⟩ := hshaped
          obtain ⟨json, binding, henvelops, hbinding, hvalue⟩ := hdecodes
          exact serve_assign haddresses hdecide hkind hput ⟨json, binding, henvelops, hbinding, hvalue⟩
            hbinding hsource
      | samples hkind hpost hdecodes =>
          rw [hkind] at hshaped
          obtain ⟨bridge, hbridge⟩ := Option.isSome_iff_exists.mp hshaped.2.1
          exact serve_samples haddresses hdecide hkind hpost hdecodes hbridge
      | operation hkind hpost hprepares =>
          exact serve_operation haddresses hdecide hkind hpost hprepares

end Serving

/-! ## Effects and answers -/

/-- The response is decided at the admission boundary or before it. -/
def DecidedEarly (library : Library) (rtt : Rtt) (options : ServerOptions) (request : Request)
    (circumstances : Circumstances) (live : Live) : Prop :=
  ∀ resource staged,
    decideRequest library rtt options request circumstances = .ok (resource, staged) →
      ∃ exit, (boundary library options request circumstances staged live).result = .error exit

section Accounts

variable (library : Library) (rtt : Rtt) (options : ServerOptions) (request : Request)
  (circumstances : Circumstances) (live : Live) (exit : Exit) (after : Live) (effects : List Effect)

/-- The destination was replaced by the value in the body exactly for 204, and is
unchanged for every other status. -/
def AssignedAsAnswered (resource : Resource TypeCodec) : Prop :=
  (exit.status = some 204 ↔ ∃ source value, resource.source = some source ∧
    Decodes library options request resource value ∧
    effects = [.assign (some source) (some value) (.ok true)] ∧
    after.values = Function.update live.values source.address value) ∧
  (exit.status ≠ some 204 → after.values = live.values) ∧ after.executor = live.executor

/-- The sample in the body was written exactly for 204. -/
def WrittenAsAnswered (resource : Resource TypeCodec) : Prop :=
  (exit.status = some 204 ↔ ∃ bridge value,
    effects = [.write bridge (some value) (.ok .writeSuccess)]) ∧
  (∀ effect ∈ effects, ∃ bridge value result, resource.bridge = some bridge ∧
    Decodes library options request resource value ∧
    effect = .write bridge (some value) result) ∧ after = live

/-- Only the invocation of the body was admitted, and only behind all checks. -/
def AdmittedAsAllowed (resource : Resource TypeCodec) : Prop :=
  (∀ effect ∈ effects, ∃ result, effect = .admission circumstances.invocation result) ∧
  after.values = live.values ∧
  (Effect.admission circumstances.invocation .admitted ∈ effects →
    Admissible library rtt options request circumstances resource ∧
      live.executor.pending.length < options.maxPendingOperations.toNat) ∧
  (Effect.admission circumstances.invocation .admitted ∉ effects →
    after.executor = live.executor)

/-- What a request did to live state agrees with what it was answered. -/
structure Accountable : Prop where
  single : effects.length ≤ 1
  read : request.method ≠ bytes "PUT" → request.method ≠ bytes "POST" → effects = [] ∧ after = live
  assign : ∀ resource, Addresses request circumstances resource → resource.kind = .value →
    request.method = bytes "PUT" →
      AssignedAsAnswered library options request live exit after effects resource
  write : ∀ resource, Addresses request circumstances resource → resource.kind = .samples →
    request.method = bytes "POST" →
      WrittenAsAnswered library options request live exit after effects resource
  admission : ∀ resource, Addresses request circumstances resource → resource.kind = .operation →
    request.method = bytes "POST" →
      AdmittedAsAllowed library rtt options request circumstances live after effects resource
  early : DecidedEarly library rtt options request circumstances live →
    Effect.admission circumstances.invocation .admitted ∉ effects ∧ after.executor = live.executor

/-- How `handle` answers what was served. -/
def answer (served : Handled Json) : Exit :=
  caught library request (match served.result with
    | .error exit => exit
    | .ok result => respond library options request result)

end Accounts

section Accounting

variable {library : Library} {rtt : Rtt} {options : ServerOptions} {request : Request}
  {circumstances : Circumstances} {live : Live} {served : Handled Json}
  {resource : Resource TypeCodec}

/-- Nothing is admitted for a response that is decided early. -/
theorem serve_early (hearly : DecidedEarly library rtt options request circumstances live) :
    Effect.admission circumstances.invocation .admitted ∉
        (serve library rtt options request circumstances live).effects ∧
      (serve library rtt options request circumstances live).live = live := by
  unfold serve
  cases hdecide : decideRequest library rtt options request circumstances with
  | error exit => exact ⟨List.not_mem_nil, rfl⟩
  | ok decided =>
      obtain ⟨resource, staged⟩ := decided
      obtain ⟨exit, hexit⟩ := hearly resource staged hdecide
      simp only [hexit]
      unfold boundary at hexit ⊢
      cases hrunning : circumstances.second.running with
      | false => exact ⟨List.not_mem_nil, rfl⟩
      | true =>
          simp only [hrunning] at hexit
          cases staged with
          | nothing => exact ⟨List.not_mem_nil, rfl⟩
          | value value => exact ⟨List.not_mem_nil, rfl⟩
          | invocation prepared =>
              rcases Executor.OperationExecutor.admit_cases live.executor circumstances.invocation
                options.maxPendingOperations.toNat circumstances.fault with
                ⟨hadmission, -⟩ | ⟨hadmission, -⟩ | ⟨hadmission, -⟩
              · simp [hadmission]
              · simp [hadmission]
              · simp only [hadmission] at hexit
                cases hexit

variable (h : Serves library rtt options request circumstances live served)

include h

theorem Serves.single : served.effects.length ≤ 1 := by
  cases h <;> simp

theorem Serves.of_read (hput : request.method ≠ bytes "PUT") (hpost : request.method ≠ bytes "POST") :
    served.effects = [] ∧ served.live = live := by
  cases h with
  | quiet => exact ⟨rfl, rfl⟩
  | assign _ _ h => exact absurd h hput
  | write _ _ h => exact absurd h hpost
  | turnedAway hadmissible => exact absurd hadmissible.post hpost
  | admitted hadmissible => exact absurd hadmissible.post hpost

theorem Serves.of_value (hrtt : rtt.Lawful) (haddresses : Addresses request circumstances resource)
    (hkind : resource.kind = .value) (hput : request.method = bytes "PUT") :
    AssignedAsAnswered library options request live (answer library options request served)
      served.live served.effects resource := by
  unfold AssignedAsAnswered answer
  cases h with
  | quiet hanswer =>
      obtain ⟨exit, rfl, hstatus⟩ := hanswer (isMutation_of_put hput)
      refine ⟨⟨fun h => absurd h hstatus, ?_⟩, fun _ => rfl, rfl⟩
      rintro ⟨source, value, -, -, heffects, -⟩
      cases heffects
  | @assign other binding source value hother hvalue _ hsource _ hdecodes =>
      obtain rfl := haddresses.unique hother
      have hvalues := assign_values hrtt binding.codec value source live.values
      by_cases hdone :
          (Server.assign rtt binding.codec (some value) (some source) live.values).1 = .ok true
      · rw [if_pos hdone] at hvalues
        simp only [hdone, assignAnswer]
        refine ⟨⟨fun _ => ⟨source, value, hsource, hdecodes, rfl, hvalues⟩, fun _ => rfl⟩, ?_, trivial⟩
        exact fun hstatus => absurd rfl hstatus
      · rw [if_neg hdone] at hvalues
        obtain ⟨exit, hexit, hstatus⟩ :=
          assignAnswer_declines library request hdone
        simp only [hexit]
        refine ⟨⟨fun h => absurd h hstatus, ?_⟩, fun _ => hvalues, trivial⟩
        rintro ⟨other, held, -, -, heffects, -⟩
        simp only [List.cons.injEq, Effect.assign.injEq] at heffects
        exact absurd heffects.1.2.2 hdone
  | write hother hsamples =>
      rw [haddresses.unique hother, hsamples] at hkind
      cases hkind
  | turnedAway hadmissible =>
      rw [haddresses.unique hadmissible.addresses, hadmissible.kind] at hkind
      cases hkind
  | admitted hadmissible =>
      rw [haddresses.unique hadmissible.addresses, hadmissible.kind] at hkind
      cases hkind

theorem Serves.of_samples (haddresses : Addresses request circumstances resource)
    (hkind : resource.kind = .samples) (hpost : request.method = bytes "POST") :
    WrittenAsAnswered library options request live (answer library options request served)
      served.live served.effects resource := by
  unfold WrittenAsAnswered answer
  cases h with
  | quiet hanswer =>
      obtain ⟨exit, rfl, hstatus⟩ := hanswer (isMutation_of_post hpost)
      refine ⟨⟨fun h => absurd h hstatus, ?_⟩, ?_, rfl⟩
      · rintro ⟨bridge, value, heffects⟩
        cases heffects
      · exact fun _ heffect => absurd heffect List.not_mem_nil
  | @write other bridge value hother hsamples _ hbridge hdecodes =>
      obtain rfl := haddresses.unique hother
      refine ⟨?_, ?_, rfl⟩
      · by_cases hdone : rtt.write bridge (some value) = .ok .writeSuccess
        · simp only [hdone, writeAnswer]
          exact ⟨fun _ => ⟨bridge, value, rfl⟩, fun _ => rfl⟩
        · obtain ⟨exit, hexit, hstatus⟩ :=
            writeAnswer_declines library request hdone
          simp only [hexit]
          refine ⟨fun h => absurd h hstatus, ?_⟩
          rintro ⟨other, held, heffects⟩
          simp only [List.cons.injEq, Effect.write.injEq] at heffects
          exact absurd heffects.1.2.2 hdone
      · intro effect heffect
        rw [List.mem_singleton.mp heffect]
        exact ⟨bridge, value, _, hbridge, hdecodes, rfl⟩
  | assign hother hvalue =>
      rw [haddresses.unique hother, hvalue] at hkind
      cases hkind
  | turnedAway hadmissible =>
      rw [haddresses.unique hadmissible.addresses, hadmissible.kind] at hkind
      cases hkind
  | admitted hadmissible =>
      rw [haddresses.unique hadmissible.addresses, hadmissible.kind] at hkind
      cases hkind

theorem Serves.of_operation (haddresses : Addresses request circumstances resource)
    (hkind : resource.kind = .operation) :
    AdmittedAsAllowed library rtt options request circumstances live served.live served.effects
      resource := by
  unfold AdmittedAsAllowed
  cases h with
  | quiet => simp
  | assign hother hvalue =>
      rw [haddresses.unique hother, hvalue] at hkind
      cases hkind
  | write hother hsamples =>
      rw [haddresses.unique hother, hsamples] at hkind
      cases hkind
  | @turnedAway other exit result hadmissible hresult =>
      refine ⟨?_, rfl, ?_, fun _ => rfl⟩
      · intro effect heffect
        exact ⟨result, List.mem_singleton.mp heffect⟩
      · intro hadmitted
        simp only [List.mem_singleton, Effect.admission.injEq] at hadmitted
        exact absurd hadmitted.2.symm hresult
  | @admitted other answer hadmissible hcapacity =>
      obtain rfl := haddresses.unique hadmissible.addresses
      refine ⟨?_, rfl, fun _ => ⟨hadmissible, hcapacity⟩, fun h => absurd (by simp) h⟩
      intro effect heffect
      exact ⟨_, List.mem_singleton.mp heffect⟩

end Accounting

/-- A body that says true, parsed. -/
def openLibrary : Library := parsedLibrary (.object [(bytes "value", .bool true)])

/-- The request to open the valve. -/
def openRequest : Request :=
  jsonRequest "PUT" "/api/v1/components/valve/properties/open" "\x7b\"value\":true\x7d"

end RttHttp.Server
