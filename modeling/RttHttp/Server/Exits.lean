import RttHttp.Executor.Slots
import RttHttp.Server.Reach

/-! # How a request is left before the boundary

A request that is not served is left with a problem response, by an exception, or,
for `OPTIONS`, with the list of methods. None of these is 204 for another method,
and none comes from a null pointer: what a published resource lacks, no request
that got as far as that asks of it.
-/

namespace RttHttp.Server

open Codec (TypeCodec)
open Executor (prepareInvocation prepareInvocation_ready)
open Http (Library Request)
open Model (PortReader Resource)
open Route (canonicalRequestPath)

/-! ## Failures of a kind -/

/-- A computation that fails in no other way than these. -/
def Fails {α : Type} (p : Exit → Prop) (x : Except Exit α) : Prop :=
  ∀ exit, x = .error exit → p exit

section Fails

variable {α β : Type} {library : Library} {request : Request} {p q : Exit → Prop}

theorem Fails.ok (value : α) : Fails p (.ok value) := fun _ h => nomatch h

theorem Fails.error {exit : Exit} (h : p exit) : Fails p (.error exit : Except Exit α) := by
  rintro other ⟨⟩
  exact h

theorem Fails.mono {x : Except Exit α} (hx : Fails p x) (h : ∀ exit, p exit → q exit) :
    Fails q x := fun exit hexit => h exit (hx exit hexit)

theorem Fails.bind {x : Except Exit α} {f : α → Except Exit β} (hx : Fails p x)
    (hf : ∀ value, x = .ok value → Fails p (f value)) : Fails p (x >>= f) := by
  cases x with
  | ok value => exact hf value rfl
  | error exit => exact .error (hx exit rfl)

theorem Fails.map {x : Except Exit α} (hx : Fails p x) (f : α → β) : Fails p (x.map f) := by
  cases x with
  | ok value => exact .ok _
  | error exit => exact .error (hx exit rfl)

theorem Fails.refuse {status : Nat} {suffix : Option String} {response : Http.Response}
    (h : p (refusal library request status suffix response)) :
    Fails p (refuse library request status suffix response : Except Exit α) := .error h

theorem Fails.attempt (h : ∀ thrown response, p (.threw thrown response)) (point : Http.Point) :
    Fails p (attempt library point) := by
  unfold Server.attempt
  split
  next thrown _ => exact .error (h thrown {})
  next => exact .ok ()

end Fails

/-! ## Exits -/

/-- The ways to leave a request without having served it. -/
inductive Declined (library : Library) (request : Request) : Exit → Prop
  | threw (thrown : Http.Thrown) (response : Http.Response) :
      Declined library request (.threw thrown response)
  | refused {status : Nat} (hstatus : 400 ≤ status) (suffix : Option String)
      (response : Http.Response) :
      Declined library request (refusal library request status suffix response)
  | options {response : Http.Response} (hoptions : request.method = bytes "OPTIONS")
      (hstatus : response.status = some 204) : Declined library request (.returned response)

section Exits

variable {library : Library} {request : Request} {exit : Exit}

/-- A problem response has the status it was made for or 500, or building it threw. -/
theorem refusal_cases (library : Library) (request : Request) (status : Nat)
    (suffix : Option String) (response : Http.Response) :
    (∃ thrown other, refusal library request status suffix response = .threw thrown other) ∨
      ∃ other, refusal library request status suffix response = .returned other ∧
        (other.status = some status ∨ other.status = some 500) := by
  unfold refusal Http.problem
  cases library.serializeJson (.object (Http.problemBody library request status suffix))
      Http.problemLimits with
  | error thrown => exact .inl ⟨_, _, rfl⟩
  | ok result =>
      cases result with
      | ok encoded => exact .inr ⟨_, rfl, .inl rfl⟩
      | error failure => exact .inr ⟨_, rfl, .inr rfl⟩

/-- An exception is answered with 500, if at all. -/
theorem status_caught_threw {expected : Nat} (h500 : expected ≠ 500) (thrown : Http.Thrown)
    (response : Http.Response) :
    (caught library request (.threw thrown response)).status ≠ some expected := by
  unfold caught Http.problem
  dsimp only
  split
  next heq =>
    split at heq
    next => cases heq
    next =>
      cases heq
      simp [Exit.status, h500.symm]
    next =>
      cases heq
      simp [Exit.status, h500.symm]
  next => simp [Exit.status]

theorem status_caught_refusal {expected status : Nat} (h500 : expected ≠ 500)
    (hstatus : status ≠ expected) (suffix : Option String) (response : Http.Response) :
    (caught library request (refusal library request status suffix response)).status ≠
      some expected := by
  rcases refusal_cases library request status suffix response with
    ⟨thrown, other, hthrew⟩ | ⟨other, hreturned, hother⟩
  · rw [hthrew]
    exact status_caught_threw h500 thrown other
  · rw [hreturned]
    rcases hother with hother | hother <;> simp [caught, Exit.status, hother, hstatus, h500.symm]

/-- Only `OPTIONS` is answered below 400 without having been served. -/
theorem Declined.status (h : Declined library request exit) {expected : Nat}
    (hexpected : expected < 400) (hoptions : request.method = bytes "OPTIONS" → expected ≠ 204) :
    (caught library request exit).status ≠ some expected := by
  cases h with
  | threw thrown response => exact status_caught_threw (by omega) thrown response
  | refused hstatus suffix response =>
      exact status_caught_refusal (by omega) (by omega) suffix response
  | options hmethod hstatus =>
      simp only [caught, Exit.status, hstatus, ne_eq, Option.some.injEq]
      exact (hoptions hmethod).symm

theorem refusal_ne_undefined (status : Nat) (suffix : Option String) (response : Http.Response) :
    refusal library request status suffix response ≠ .undefined := by
  rcases refusal_cases library request status suffix response with
    ⟨thrown, other, hthrew⟩ | ⟨other, hreturned, -⟩
  · rw [hthrew]
    nofun
  · rw [hreturned]
    nofun

theorem Declined.defined (h : Declined library request exit) : exit ≠ .undefined := by
  cases h with
  | threw => nofun
  | refused hstatus suffix response => exact refusal_ne_undefined _ suffix response
  | options => nofun

end Exits

/-! ## Up to the boundary -/

section Deciding

variable {library : Library} {rtt : Rtt} {options : ServerOptions} {request : Request}
  {circumstances : Circumstances} {resource : Resource TypeCodec}

theorem refuse_declines {α : Type} {status : Nat} {suffix : Option String}
    {response : Http.Response} (h : 400 ≤ status) :
    Fails (Declined library request)
      (refuse library request status suffix response : Except Exit α) :=
  .refuse (.refused h suffix response)

theorem attempt_declines (point : Http.Point) :
    Fails (Declined library request) (attempt library point) := .attempt .threw point

theorem preflight_declines (checkpoint : Checkpoint) (model : Model.ObjectModel TypeCodec) :
    Fails (Declined library request) (preflight library options request checkpoint model) := by
  apply (attempt_declines .preflight).bind
  intro _ _
  split
  next => exact refuse_declines (by decide)
  next =>
    split
    next => exact refuse_declines (by decide)
    next =>
      split
      next => exact refuse_declines (by decide)
      next =>
        split
        next => exact refuse_declines (by decide)
        next =>
          split
          next hmethod => exact .error (.options hmethod rfl)
          next =>
            split
            next => exact refuse_declines (by decide)
            next =>
              split
              next =>
                split
                next =>
                  split
                  next => exact refuse_declines (by decide)
                  next => exact .ok ()
                next => exact refuse_declines (by decide)
              next => exact .ok ()

/-- The body of a call is checked against an operation that is there. -/
theorem readBody_declines
    (hoperation : resource.kind = .operation → resource.operation.isSome = true) :
    Fails (Declined library request) (readBody library options request resource) := by
  unfold readBody
  split
  next =>
    split
    next thrown _ => exact .error (.threw thrown {})
    next failure _ =>
      apply refuse_declines
      unfold parseStatus
      split_ifs <;> decide
    next =>
      split
      next =>
        split
        next => exact refuse_declines (by decide)
        next =>
          split
          next hkind =>
            split
            next =>
              split
              next hnone =>
                have hsome := hoperation hkind
                rw [hnone] at hsome
                cases hsome
              next =>
                split
                next => exact refuse_declines (by decide)
                next => exact .ok _
            next => exact refuse_declines (by decide)
          next => exact .ok _
      next => exact refuse_declines (by decide)
  next => exact .ok _

theorem bodyAt_declines (body : Json) (name : Bytes) :
    Fails (Declined library request) (bodyAt body name) := by
  unfold bodyAt
  split
  next =>
    split
    next => exact .ok _
    next => exact .error (.threw _ _)
  next => exact .error (.threw _ _)

/-- What is staged has a codec, and what is prepared is callable. -/
theorem stageInput_declines {body : Json}
    (hbinding : isMutation request = true → resource.kind ≠ .operation →
      resource.binding.isSome = true)
    (hoperation : resource.kind = .operation → ∃ operation,
      resource.operation = some operation ∧ operation.Callable) :
    Fails (Declined library request) (stageInput library rtt options request resource body) := by
  unfold stageInput
  split
  next hvalue =>
    apply (attempt_declines .decode).bind
    intro _ _
    apply (bodyAt_declines body _).bind
    intro value _
    split
    next hnone =>
      simp only [ne_eq, Bool.and_eq_true, decide_eq_true_eq] at hvalue
      have hsome := hbinding hvalue.1 hvalue.2
      rw [hnone] at hsome
      cases hsome
    next =>
      split
      next => exact refuse_declines (by decide)
      next => exact .ok _
  next =>
    split
    next hkind =>
      obtain ⟨operation, hsome, hcallable⟩ := hoperation hkind
      apply (attempt_declines .prepare).bind
      intro _ _
      apply (bodyAt_declines body _).bind
      intro value _
      simp only [hsome]
      split
      next arguments _ =>
        have hdefined : prepareInvocation rtt.caller operation arguments options ≠
            .error .undefined := (prepareInvocation_ready hcallable).1
        split
        next error _ =>
          apply refuse_declines
          unfold prepareStatus
          split_ifs <;> decide
        next hundefined => exact absurd hundefined hdefined
        next => exact .ok _
      next => exact .error (.threw _ _)
    next => exact .ok _

/-- What a mutation of a published resource needs is there. -/
theorem binding_of_allowed (hshaped : resource.Shaped) (hsupported : resource.supported = true)
    (hallowed : Http.methodAllowed resource request.method = true)
    (hoptions : request.method ≠ bytes "OPTIONS") (hmutation : isMutation request = true)
    (hkind : resource.kind ≠ .operation) : resource.binding.isSome = true := by
  have hread : isMutation request ≠ false := by simp [hmutation]
  unfold Model.Resource.Shaped at hshaped
  cases hfound : resource.kind with
  | description =>
      rw [hfound] at hshaped
      exact absurd (read_of_allowed hshaped hallowed hoptions) hread
  | latest =>
      rw [hfound] at hshaped
      exact absurd (read_of_allowed hshaped.1 hallowed hoptions) hread
  | value =>
      rw [hfound] at hshaped
      exact hshaped.2 hsupported
  | samples =>
      rw [hfound] at hshaped
      exact hshaped.2.2 hsupported
  | operation => exact absurd hfound hkind

theorem operation_of_shaped (hshaped : resource.Shaped) (hkind : resource.kind = .operation) :
    ∃ operation, resource.operation = some operation ∧
      (resource.supported = true → operation.Callable) := by
  unfold Model.Resource.Shaped at hshaped
  rw [hkind] at hshaped
  exact hshaped.2

/-- Every request to a published resource that fails by then is declined. -/
theorem decideRequest_declines [PortReader TypeCodec] (hpublished : circumstances.Published) :
    Fails (Declined library request) (decideRequest library rtt options request circumstances) := by
  apply (preflight_declines _ _).bind
  intro _ hpreflight
  apply (attempt_declines .lookup).bind
  intro _ _
  split
  next => exact refuse_declines (by decide)
  next resource hfound =>
    obtain ⟨path, hpath, hresolve⟩ := Option.bind_eq_some_iff.mp hfound
    obtain ⟨hallowed, hoptions, hresource⟩ := hpublished.allowed hpreflight hpath hresolve
    have hshaped := hresource.shaped
    apply Fails.bind
    · apply readBody_declines
      intro hkind
      obtain ⟨operation, hoperation, -⟩ := operation_of_shaped hshaped hkind
      rw [hoperation]
      rfl
    · intro body _
      split
      next => exact refuse_declines (by decide)
      next hsupported =>
        have hsupported : resource.supported = true := by simpa using hsupported
        apply Fails.bind
        · apply stageInput_declines
          · exact binding_of_allowed hshaped hsupported hallowed hoptions
          · intro hkind
            obtain ⟨operation, hoperation, hcallable⟩ := operation_of_shaped hshaped hkind
            exact ⟨operation, hoperation, hcallable hsupported⟩
        · intro staged _
          exact .ok _

end Deciding

end RttHttp.Server
