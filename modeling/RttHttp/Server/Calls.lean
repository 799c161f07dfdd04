import RttHttp.Server.Variables

/-! # Calls under way

Many requests are under way at once. All but the calls of operations are served at one
moment. A call takes several: its handler admits it to the executor and waits, a worker
passes it on to RTT, a component performs it, and the handler answers with what it finds.

Here RTT may do anything at any time: perform a call, write to its data sources, report it
as done. What it promises is stated apart, as obligations on the moves of a run.
-/

namespace RttHttp.Server

open Codec (TypeCodec Value)
open Executor (Outcome OperationExecutor Prepared Store slot)
open Model (OperationPart PortReader)

variable {Hidden : Type}

/-! ## Components -/

/-- What the components are made of: the values of their variables, and all the rest. -/
structure World (Hidden : Type) where
  values : Values
  hidden : Hidden

/-- What it means to perform an operation with some arguments: what it gives, unless it
throws, and what becomes of the components. -/
abbrev Performs (Hidden : Type) :=
  OperationPart → List Value → World Hidden → Option Outcome × World Hidden

/-- The components, and what each call gave when it was performed. -/
structure Components (Hidden : Type) where
  world : World Hidden
  outcome : Nat → Option Outcome

/-- What is done to the components: a call is performed, a request writes a variable, or
they go on by themselves. -/
inductive Deed (Hidden : Type) where
  | perform (i : Nat)
  | write (i address : Nat) (value : Value)
  | proceed (world : World Hidden)

/-- The request that a deed is done for. -/
def Deed.request : Deed Hidden → Option Nat
  | .perform i | .write i _ _ => some i
  | .proceed _ => none

/-- The components by themselves, with one deed done after the other. -/
def Components.step (performs : Performs Hidden) (calls : Nat → Option Prepared)
    (components : Components Hidden) : Deed Hidden → Option (Components Hidden)
  | .perform i => (calls i).map fun prepared =>
      let performed := performs prepared.operation.part prepared.arguments components.world
      { world := performed.2, outcome := Function.update components.outcome i performed.1 }
  | .write _ address value => some { components with
      world := { components.world with
        values := Function.update components.world.values address value } }
  | .proceed world => some { components with world := world }

/-! ## Requests -/

section Requests

variable [PortReader TypeCodec]

/-- The invocation that a request brings to the executor. -/
def Exchange.call (exchange : Exchange) : Option Prepared :=
  if exchange.circumstances.second.running then
    match decideRequest exchange.library exchange.rtt exchange.options exchange.request
        exchange.circumstances with
    | .ok (_, .invocation prepared) => some prepared
    | _ => none
  else none

/-- The request, with what its handler meets behind the boundary. -/
def Exchange.meets (exchange : Exchange) (invocation : Nat) (polls : List Poll) (status : Nat)
    (values : Nat → Value) : Exchange :=
  { exchange with
    circumstances := { exchange.circumstances with
      invocation := invocation, polls := polls, status := status, values := values }
    published := exchange.published }

/-- What a request that is no call does to the components. -/
def Exchange.deeds (exchange : Exchange) (i : Nat) (live : Live) : List (Deed Hidden) :=
  ((Turn.exchange exchange (exchange.exit live).status).written.map fun write =>
    Deed.write i write.1 write.2).toList

/-- The collected values of an invocation, as its data sources hold them. -/
def heldValues (prepared : Prepared) (store : Store) (i : Nat) : Value :=
  match slot prepared.operation prepared.send i with
  | some cell => store cell
  | none => store (.fresh i)

/-- The requests under way. `posted` are the calls that RTT was asked for and has not
performed, `reported` those that it has reported as successful; `done` is what was done to
the components so far. -/
structure Traffic (Hidden : Type) where
  components : Components Hidden
  done : List (Deed Hidden)
  executor : OperationExecutor
  posted : List Nat
  reported : List Nat
  store : Nat → Store
  entered : Nat → Option Live
  answer : Nat → Option Exit

/-- What may happen next. With `fill` RTT writes to the data sources of an invocation. -/
inductive Move (Hidden : Type) where
  | serve (i : Nat)
  | enter (i : Nat)
  | work (action : Executor.Action)
  | perform (i : Nat)
  | fill (i : Nat) (store : Store)
  | proceed (world : World Hidden)
  | respond (i : Nat)
  | giveUp (i : Nat)

namespace Traffic

variable (performs : Performs Hidden) (exchanges : Nat → Exchange) (s : Traffic Hidden)

/-- What a handler finds. -/
def live : Live := ⟨s.components.world.values, s.executor⟩

/-- Before the first request; the data sources hold anything. -/
def start (width : Nat) (world : World Hidden) (store : Nat → Store) : Traffic Hidden where
  components := ⟨world, fun _ => none⟩
  done := []
  executor := .start width fun i => ((exchanges i).call.map (·.send)).getD false
  posted := []
  reported := []
  store := store
  entered := fun _ => none
  answer := fun _ => none

/-- A request that is no call has been served. -/
def served (i : Nat) : Traffic Hidden :=
  { s with
    components := { s.components with
      world := { s.components.world with values := ((exchanges i).after s.live).values } }
    done := s.done ++ (exchanges i).deeds i s.live
    executor := ((exchanges i).after s.live).executor
    answer := Function.update s.answer i (some ((exchanges i).exit s.live)) }

/-- A request that is no call, from its beginning to its answer. -/
def serveStep (i : Nat) : Option (Traffic Hidden) :=
  if (s.answer i).isSome || (exchanges i).call.isSome then none else some (s.served exchanges i)

/-- A call at the boundary: it is admitted, or answered at once. -/
def enterStep (i : Nat) : Option (Traffic Hidden) :=
  match (exchanges i).call with
  | none => none
  | some prepared =>
      let cap := (exchanges i).options.maxPendingOperations.toNat
      let fault := (exchanges i).circumstances.fault
      let result := (Executor.admitInvocation s.executor i cap fault).1
      (s.executor.step (.handler i (.admission cap fault result))).map fun executor =>
        match result with
        | .admitted =>
            { s with executor := executor, entered := Function.update s.entered i (some s.live) }
        | _ =>
            let met := (exchanges i).meets i [] 200 (heldValues prepared (s.store i))
            { s with executor := executor
                     answer := Function.update s.answer i (some (met.exit s.live)) }

/-- What RTT was asked for and has reported, after an action of the executor. A direct call
is over when it returns. -/
def note : Executor.Action → Traffic Hidden
  | .worker _ (.call i) | .worker _ (.evaluate i) => { s with posted := i :: s.posted }
  | .worker _ (.called i outcome) =>
      { s with
        posted := s.posted.erase i
        reported := if outcome = .returned true then i :: s.reported else s.reported }
  | .reaper (.collect i (.returned .sendSuccess)) => { s with reported := i :: s.reported }
  | _ => s

/-- A thread of the executor goes on. The handlers have moves of their own. -/
def workStep (action : Executor.Action) : Option (Traffic Hidden) :=
  match action with
  | .handler _ _ => none
  | _ => (s.executor.step action).map fun executor => { s.note action with executor := executor }

/-- A component performs a call. -/
def performStep (i : Nat) : Option (Traffic Hidden) :=
  (s.components.step performs (fun j => (exchanges j).call) (.perform i)).map fun components =>
    { s with components := components, done := s.done ++ [.perform i], posted := s.posted.erase i }

/-- The handler of a call leaves the wait loop, with the invocation complete or not. -/
def leaveStep (i : Nat) (action : Executor.HandlerAction) (polls : List Poll) :
    Option (Traffic Hidden) :=
  match s.entered i, (exchanges i).call with
  | some live, some prepared =>
      (s.executor.step (.handler i action)).map fun executor =>
        let met := (exchanges i).meets i polls (s.executor.invocation i).status
          (heldValues prepared (s.store i))
        { s with executor := executor, answer := Function.update s.answer i (some (met.exit live)) }
  | _, _ => none

def step : Move Hidden → Option (Traffic Hidden)
  | .serve i => s.serveStep exchanges i
  | .enter i => s.enterStep exchanges i
  | .work action => s.workStep action
  | .perform i => s.performStep performs exchanges i
  | .fill i store => some { s with store := Function.update s.store i store }
  | .proceed world => some { s with
      components := { s.components with world := world }, done := s.done ++ [.proceed world] }
  | .respond i =>
      s.leaveStep exchanges i (.respond (s.executor.invocation i).status) [⟨true, false, false, false⟩]
  | .giveUp i => s.leaveStep exchanges i .giveUp []

/-! ## What RTT promises -/

/-- The call was performed, and its data sources hold what it gave. -/
def Delivered (i : Nat) : Prop :=
  ∃ prepared outcome store, (exchanges i).call = some prepared ∧
    s.components.outcome i = some outcome ∧ s.store i = prepared.finish outcome store

/-- RTT performs what it is asked to perform, once for each time that it is asked. -/
def PerformsAsked (s : Traffic Hidden) : Move Hidden → Prop
  | .perform i => i ∈ s.posted
  | _ => True

/-- A call that RTT reports as successful was performed, and RTT has written what it gave to
its data sources: the worker is told so by a direct call, the reaper by the collector. -/
def ReportsDelivered (s : Traffic Hidden) : Move Hidden → Prop
  | .work (.worker _ (.called i (.returned true)))
  | .work (.reaper (.collect i (.returned .sendSuccess))) => s.Delivered exchanges i
  | _ => True

/-- RTT leaves the data sources of a call alone once it has reported it as successful. -/
def LeavesReported (s : Traffic Hidden) : Move Hidden → Prop
  | .fill i _ => i ∉ s.reported
  | _ => True

instance decidablePerformsAsked (s : Traffic Hidden) :
    ∀ move : Move Hidden, Decidable (s.PerformsAsked move)
  | .perform i => inferInstanceAs (Decidable (i ∈ s.posted))
  | .serve _ | .enter _ | .work _ | .fill _ _ | .proceed _ | .respond _ | .giveUp _ =>
      inferInstanceAs (Decidable True)

instance decidableLeavesReported (s : Traffic Hidden) :
    ∀ move : Move Hidden, Decidable (s.LeavesReported move)
  | .fill i _ => inferInstanceAs (Decidable (i ∉ s.reported))
  | .serve _ | .enter _ | .work _ | .perform _ | .proceed _ | .respond _ | .giveUp _ =>
      inferInstanceAs (Decidable True)

/-- What RTT promises of every move. -/
structure RttKeeps (s : Traffic Hidden) (move : Move Hidden) : Prop where
  asked : s.PerformsAsked move
  delivered : s.ReportsDelivered exchanges move
  reported : s.LeavesReported move

end Traffic

end Requests

end RttHttp.Server
