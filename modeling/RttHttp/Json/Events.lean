import RttHttp.Json.Output
import RttHttp.Json.Unambiguous

/-! # Parsing with a check for duplicate keys

`parseJson` runs the Boost parser twice: once with a `DuplicateHandler`, which sees
the events of the document before a value can replace another one, and once to
build the value. The parser is a parameter; what is relied on is that it delivers
the events of the document whose text it reads, keys decoded and cut anyhow.
-/

namespace RttHttp

open Codec (CodecErrorCode JsonLimits Status)

/-! ## Events -/

/-- What the parser reports. Parts of strings and numbers and the literals are
`value`; the handler ignores them. -/
inductive Event where
  | documentBegin
  | documentEnd
  | objectBegin
  | objectEnd
  | arrayBegin
  | arrayEnd
  | keyPart (part : Bytes)
  | key (part : Bytes)
  | value
  deriving DecidableEq, Repr

/-- A key in any number of pieces. -/
inductive StreamsKey : Bytes → List Event → Prop
  | last (key : Bytes) : StreamsKey key [.key key]
  | part {rest : Bytes} {events : List Event} (part : Bytes) (hrest : StreamsKey rest events) :
      StreamsKey (part ++ rest) (.keyPart part :: events)

mutual

/-- The events of a value, with every member of every object. -/
def Streams : Json → List Event → Prop
  | .array items, events =>
      ∃ inside, StreamsItems items inside ∧ events = .arrayBegin :: (inside ++ [.arrayEnd])
  | .object members, events =>
      ∃ inside, StreamsMembers members inside ∧ events = .objectBegin :: (inside ++ [.objectEnd])
  | _, events => ∀ event ∈ events, event = .value

def StreamsItems : List Json → List Event → Prop
  | [], events => events = []
  | item :: rest, events =>
      ∃ first others, Streams item first ∧ StreamsItems rest others ∧ events = first ++ others

def StreamsMembers : List (Bytes × Json) → List Event → Prop
  | [], events => events = []
  | (name, item) :: rest, events =>
      ∃ key first others, StreamsKey name key ∧ Streams item first ∧ StreamsMembers rest others ∧
        events = key ++ first ++ others

end

def StreamsDocument (json : Json) (events : List Event) : Prop :=
  ∃ inside, Streams json inside ∧ events = .documentBegin :: (inside ++ [.documentEnd])

/-! ## The handler -/

namespace DuplicateHandler

structure Frame where
  keys : List Bytes := []
  key : Bytes := []
  deriving DecidableEq, Repr

end DuplicateHandler

/-- The innermost container comes first. -/
structure DuplicateHandler where
  frames : List DuplicateHandler.Frame := []
  duplicate : Bool := false
  deriving DecidableEq, Repr

namespace DuplicateHandler

/-- A container opens. -/
def push (handler : DuplicateHandler) : DuplicateHandler :=
  { handler with frames := {} :: handler.frames }

/-- `frames.pop_back()`, which an empty stack does not allow. -/
def pop (handler : DuplicateHandler) : Except Fault DuplicateHandler :=
  match handler.frames with
  | [] => .error .outOfRange
  | _ :: below => .ok { handler with frames := below }

/-- `on_key_part`. -/
def appendKey (handler : DuplicateHandler) (part : Bytes) : Except Fault DuplicateHandler :=
  match handler.frames with
  | [] => .error .outOfRange
  | frame :: below => .ok { handler with frames := { frame with key := frame.key ++ part } :: below }

/-- The rest of `on_key`: the key goes into the set of its object. -/
def insertKey (handler : DuplicateHandler) : Except Fault DuplicateHandler :=
  match handler.frames with
  | [] => .error .outOfRange
  | frame :: below =>
      if frame.key ∈ frame.keys then
        .ok { frames := { frame with key := [] } :: below, duplicate := true }
      else
        .ok { handler with frames := { keys := frame.key :: frame.keys, key := [] } :: below }

def on (handler : DuplicateHandler) : Event → Except Fault DuplicateHandler
  | .objectBegin | .arrayBegin => .ok handler.push
  | .objectEnd | .arrayEnd => handler.pop
  | .keyPart part => handler.appendKey part
  | .key part => handler.appendKey part >>= insertKey
  | .documentBegin | .documentEnd | .value => .ok handler

def run (handler : DuplicateHandler) (events : List Event) : Except Fault DuplicateHandler :=
  events.foldlM on handler

theorem run_append (handler : DuplicateHandler) (first second : List Event) :
    handler.run (first ++ second) = handler.run first >>= fun after => after.run second :=
  List.foldlM_append

theorem run_cons (handler : DuplicateHandler) (event : Event) (rest : List Event) :
    handler.run (event :: rest) = handler.on event >>= fun after => after.run rest :=
  List.foldlM_cons

/-- A stretch of events that leaves the stack as it is and notes a duplicate
exactly when there is one. -/
def Notes (events : List Event) (frames after : List Frame) (found : Prop) : Prop :=
  ∀ before : Bool, ∃ noted : Bool,
    run ⟨frames, before⟩ events = .ok ⟨after, noted⟩ ∧ (noted = true ↔ before = true ∨ found)

variable {frames : List Frame}

theorem Notes.append {first second : List Event} {middle after : List Frame} {one two : Prop}
    (hfirst : Notes first frames middle one) (hsecond : Notes second middle after two) :
    Notes (first ++ second) frames after (one ∨ two) := by
  intro before
  obtain ⟨between, hrun, hbetween⟩ := hfirst before
  obtain ⟨noted, hrest, hnoted⟩ := hsecond between
  refine ⟨noted, ?_, ?_⟩
  · rw [run_append, hrun]
    exact hrest
  · rw [hnoted, hbetween, or_assoc]

theorem Notes.of_step {event : Event} {after : List Frame}
    (h : ∀ before, on ⟨frames, before⟩ event = .ok ⟨after, before⟩) :
    Notes [event] frames after False := by
  intro before
  refine ⟨before, ?_, by simp⟩
  rw [run_cons, h]
  rfl

theorem Notes.congr {events : List Event} {after : List Frame} {one two : Prop}
    (h : Notes events frames after one) (hiff : one ↔ two) : Notes events frames after two := by
  rwa [← propext hiff]

/-- The handler ignores scalars. -/
theorem notes_values {events : List Event} (h : ∀ event ∈ events, event = .value)
    (frames : List Frame) : Notes events frames frames False := by
  induction events with
  | nil => exact fun before => ⟨before, rfl, by simp⟩
  | cons event rest ih =>
      obtain ⟨rfl, hrest⟩ := List.forall_mem_cons.mp h
      have hstep : Notes [.value] frames frames False := .of_step fun _ => rfl
      exact (hstep.append (ih hrest)).congr (by simp)

/-- A key is put together from its pieces before it is looked up. -/
theorem notes_key {name : Bytes} {events : List Event} (h : StreamsKey name events)
    (keys : List Bytes) (key : Bytes) (below : List Frame) :
    Notes events (⟨keys, key⟩ :: below)
      (⟨if key ++ name ∈ keys then keys else (key ++ name) :: keys, []⟩ :: below)
      (key ++ name ∈ keys) := by
  induction h generalizing key with
  | last name =>
      intro before
      by_cases hmem : key ++ name ∈ keys
      · refine ⟨true, ?_, by simp [hmem]⟩
        simp [on, appendKey, insertKey, hmem, run, bind, Except.bind, pure, Except.pure]
      · refine ⟨before, ?_, by simp [hmem]⟩
        simp [on, appendKey, insertKey, hmem, run, bind, Except.bind, pure, Except.pure]
  | part part hrest ih =>
      have hstep : Notes [.keyPart part] (⟨keys, key⟩ :: below) (⟨keys, key ++ part⟩ :: below)
          False := .of_step fun _ => rfl
      have hboth := hstep.append (ih (key ++ part))
      rw [List.append_assoc] at hboth
      exact hboth.congr (by simp)

mutual

/-- The events of a value show whether one of its objects repeats a key. -/
theorem notes_value {json : Json} {events : List Event} (h : Streams json events)
    (frames : List Frame) : Notes events frames frames (¬ json.Distinct) := by
  match json with
  | .array items =>
      obtain ⟨inside, hinside, rfl⟩ := h
      have hbegin : Notes [.arrayBegin] frames ({} :: frames) False := .of_step fun _ => rfl
      have hend : Notes [.arrayEnd] ({} :: frames) frames False := .of_step fun _ => rfl
      exact (hbegin.append ((notes_items hinside _).append hend)).congr (by simp [Json.Distinct])
  | .object members =>
      obtain ⟨inside, hinside, rfl⟩ := h
      have hbegin : Notes [.objectBegin] frames ({} :: frames) False := .of_step fun _ => rfl
      obtain ⟨keys, hmembers⟩ := notes_members hinside [] frames
      have hend : Notes [.objectEnd] (⟨keys, []⟩ :: frames) frames False := .of_step fun _ => rfl
      exact (hbegin.append (hmembers.append hend)).congr (by simp [Json.Distinct])
  | .null | .bool _ | .int64 _ | .uint64 _ | .double _ | .string _ =>
      exact (notes_values h frames).congr (by simp [Json.Distinct])

theorem notes_items {items : List Json} {events : List Event} (h : StreamsItems items events)
    (frames : List Frame) : Notes events frames frames (¬ DistinctItems items) := by
  match items with
  | [] =>
      obtain rfl : events = [] := h
      exact fun before => ⟨before, rfl, by simp [DistinctItems]⟩
  | item :: rest =>
      obtain ⟨first, others, hfirst, hothers, rfl⟩ := h
      refine ((notes_value hfirst frames).append (notes_items hothers frames)).congr ?_
      rw [DistinctItems, not_and_or]

/-- Inside an object: a key counts against those before it. -/
theorem notes_members {members : List (Bytes × Json)} {events : List Event}
    (h : StreamsMembers members events) (keys : List Bytes) (below : List Frame) :
    ∃ after, Notes events (⟨keys, []⟩ :: below) (⟨after, []⟩ :: below)
      (¬ ((members.map Prod.fst).Nodup ∧ (∀ name ∈ members.map Prod.fst, name ∉ keys) ∧
        DistinctMembers members)) := by
  match members with
  | [] =>
      obtain rfl : events = [] := h
      exact ⟨keys, fun before => ⟨before, rfl, by simp [DistinctMembers]⟩⟩
  | (name, item) :: rest =>
      obtain ⟨key, first, others, hkey, hfirst, hothers, rfl⟩ := h
      have hname := notes_key hkey keys [] below
      rw [List.nil_append] at hname
      by_cases hmem : name ∈ keys
      · rw [if_pos hmem] at hname
        obtain ⟨after, hrest⟩ := notes_members hothers keys below
        refine ⟨after, ((hname.append (notes_value hfirst _)).append hrest).congr ?_⟩
        simp [hmem]
      · rw [if_neg hmem] at hname
        obtain ⟨after, hrest⟩ := notes_members hothers (name :: keys) below
        refine ⟨after, ((hname.append (notes_value hfirst _)).append hrest).congr ?_⟩
        have hnames : (∀ other ∈ rest.map Prod.fst, other ∉ name :: keys) ↔
            name ∉ rest.map Prod.fst ∧ ∀ other ∈ rest.map Prod.fst, other ∉ keys := by
          simp only [List.mem_cons, not_or]
          constructor
          · intro hall
            exact ⟨fun hself => (hall name hself).1 rfl, fun other hother => (hall other hother).2⟩
          · rintro ⟨hself, hall⟩ other hother
            exact ⟨fun hsame => hself (hsame ▸ hother), hall other hother⟩
        rw [hnames, DistinctMembers, List.map_cons, List.nodup_cons, List.forall_mem_cons]
        tauto

end

/-- Containers end only after they began, and keys stand inside of one. -/
def Nested : (depth : Nat) → List Event → Prop
  | _, [] => True
  | depth, .objectBegin :: rest | depth, .arrayBegin :: rest => Nested (depth + 1) rest
  | depth, .objectEnd :: rest | depth, .arrayEnd :: rest => 0 < depth ∧ Nested (depth - 1) rest
  | depth, .keyPart _ :: rest | depth, .key _ :: rest => 0 < depth ∧ Nested depth rest
  | depth, _ :: rest => Nested depth rest

/-- The handler never reads an empty stack. -/
theorem run_total {handler : DuplicateHandler} {events : List Event}
    (h : Nested handler.frames.length events) : ∃ after, handler.run events = .ok after := by
  induction events generalizing handler with
  | nil => exact ⟨handler, rfl⟩
  | cons event rest ih =>
      obtain ⟨frames, duplicate⟩ := handler
      have hpop : 0 < frames.length ∧ Nested (frames.length - 1) rest →
          ∃ after, (pop ⟨frames, duplicate⟩ >>= fun next => next.run rest) = .ok after := by
        rintro ⟨hopen, hrest⟩
        cases frames with
        | nil => cases hopen
        | cons frame below =>
            exact ih (show Nested (mk below duplicate).frames.length rest from hrest)
      cases event with
      | objectBegin => exact ih (show Nested (push ⟨frames, duplicate⟩).frames.length rest from h)
      | arrayBegin => exact ih (show Nested (push ⟨frames, duplicate⟩).frames.length rest from h)
      | objectEnd => exact hpop h
      | arrayEnd => exact hpop h
      | keyPart part =>
          obtain ⟨hopen, hrest⟩ := h
          cases frames with
          | nil => cases hopen
          | cons frame below =>
              exact ih (show Nested (mk (⟨frame.keys, frame.key ++ part⟩ :: below)
                duplicate).frames.length rest from hrest)
      | key part =>
          obtain ⟨hopen, hrest⟩ := h
          cases frames with
          | nil => cases hopen
          | cons frame below =>
              by_cases hmem : frame.key ++ part ∈ frame.keys
              · have hstep : on ⟨frame :: below, duplicate⟩ (.key part) =
                    .ok ⟨⟨frame.keys, []⟩ :: below, true⟩ := by
                  simp [on, appendKey, insertKey, hmem, bind, Except.bind]
                rw [run_cons, hstep]
                exact ih (show Nested (mk (⟨frame.keys, []⟩ :: below) true).frames.length rest
                  from hrest)
              · have hstep : on ⟨frame :: below, duplicate⟩ (.key part) =
                    .ok ⟨⟨(frame.key ++ part) :: frame.keys, []⟩ :: below, duplicate⟩ := by
                  simp [on, appendKey, insertKey, hmem, bind, Except.bind]
                rw [run_cons, hstep]
                exact ih (show Nested (mk (⟨(frame.key ++ part) :: frame.keys, []⟩ :: below)
                  duplicate).frames.length rest from hrest)
      | documentBegin => exact ih (show Nested (mk frames duplicate).frames.length rest from h)
      | documentEnd => exact ih (show Nested (mk frames duplicate).frames.length rest from h)
      | value => exact ih (show Nested (mk frames duplicate).frames.length rest from h)

/-- At the end the flag says whether an object of the document repeats a key. -/
theorem run_document {json : Json} {events : List Event} (h : StreamsDocument json events) :
    ∃ handler, run {} events = .ok handler ∧ (handler.duplicate = true ↔ ¬ json.Distinct) := by
  obtain ⟨inside, hinside, rfl⟩ := h
  have hbegin : Notes [.documentBegin] [] [] False := .of_step fun _ => rfl
  have hend : Notes [.documentEnd] [] [] False := .of_step fun _ => rfl
  obtain ⟨noted, hrun, hnoted⟩ :=
    (hbegin.append ((notes_value hinside []).append hend)) false
  exact ⟨⟨[], noted⟩, hrun, by simpa using hnoted⟩

end DuplicateHandler

mutual

/-- No object at any depth has two members of one name. -/
theorem distinct_iff {json : Json} : json.Distinct ↔
    ∀ members, .object members ∈ json.nodes → (members.map Prod.fst).Nodup := by
  match json with
  | .array items => simpa [Json.Distinct, Json.nodes] using distinctItems_iff
  | .object members =>
      rw [Json.Distinct, Json.nodes, distinctMembers_iff]
      simp
  | .null | .bool _ | .int64 _ | .uint64 _ | .double _ | .string _ =>
      simp [Json.Distinct, Json.nodes]

theorem distinctItems_iff {items : List Json} : DistinctItems items ↔
    ∀ members, .object members ∈ itemsNodes items → (members.map Prod.fst).Nodup := by
  match items with
  | [] => simp [DistinctItems, itemsNodes]
  | item :: rest =>
      rw [DistinctItems, itemsNodes, distinct_iff, distinctItems_iff]
      simp only [List.mem_append, or_imp, forall_and]

theorem distinctMembers_iff {members : List (Bytes × Json)} : DistinctMembers members ↔
    ∀ inner, .object inner ∈ membersNodes members → (inner.map Prod.fst).Nodup := by
  match members with
  | [] => simp [DistinctMembers, membersNodes]
  | (name, item) :: rest =>
      rw [DistinctMembers, membersNodes, distinct_iff, distinctMembers_iff]
      simp only [List.mem_append, or_imp, forall_and]

end

/-! ## Parsing -/

/-- The errors of Boost.JSON that `parseError` tells apart. -/
inductive ParseError where
  | tooDeep
  | exponentOverflow
  | other
  deriving DecidableEq, Repr

def parseError : ParseError → CodecErrorCode
  | .tooDeep => .depthLimit
  | .exponentOverflow => .typeMismatch
  | .other => .invalidJson

/-- What `write_some` does: the events it delivers, its error and the bytes it
takes. -/
structure Validation where
  events : List Event
  error : Option ParseError
  consumed : Nat

/-- The parser, with a handler of events and with values. -/
structure Boost where
  validate : (maxDepth : Nat) → Bytes → Validation
  parse : (maxDepth : Nat) → Bytes → Except ParseError Json

/-- `parseJson`; the result is on the storage of the context. Memory is not
modelled here. -/
def parseJson (boost : Boost) (limits : JsonLimits) (text : Bytes) (value : Json) :
    Except Fault (Status × Json) :=
  if limits.maxDocumentBytes < text.length then .ok (.failure .documentLimit, value)
  else
    match DuplicateHandler.run {} (boost.validate limits.maxDepth text).events with
    | .error fault => .error fault
    | .ok handler =>
        match (boost.validate limits.maxDepth text).error with
        | some error => .ok (.failure (parseError error), value)
        | none =>
            if (boost.validate limits.maxDepth text).consumed ≠ text.length then
              .ok (.failure .invalidJson, value)
            else if handler.duplicate then .ok (.failure .duplicateKey, value)
            else
              match boost.parse limits.maxDepth text with
              | .error error => .ok (.failure (parseError error), value)
              | .ok staged => .ok (.converted, staged)

section Parsing

variable (number : Bytes → Option Json)

/-- A text that stands for a value within the depth limit. -/
structure Document (maxDepth : Nat) (text : Bytes) (json : Json) : Prop where
  valid : validUtf8 text = true
  document : ∃ short, SpellsDocument number json text short
  depth : json.depth ≤ maxDepth

/-- What the parser does with a text. -/
structure Boost.Reads (boost : Boost) (maxDepth : Nat) (text : Bytes) : Prop where
  nested : DuplicateHandler.Nested 0 (boost.validate maxDepth text).events
  events : ∀ json, Document number maxDepth text json →
    StreamsDocument json (boost.validate maxDepth text).events
  accepted : ∀ json, Document number maxDepth text json →
    (boost.validate maxDepth text).error = none ∧
      (boost.validate maxDepth text).consumed = text.length
  rejected : (¬ ∃ json, Document number maxDepth text json) →
    (boost.validate maxDepth text).error.isSome ∨
      (boost.validate maxDepth text).consumed ≠ text.length
  parsed : ∀ json, Document number maxDepth text json → json.Distinct →
    boost.parse maxDepth text = .ok json

variable {number}

/-- The four ends of `parseJson`, in the order of their checks. -/
theorem parseJson_cases {boost : Boost} {limits : JsonLimits} {text : Bytes}
    (hreads : boost.Reads number limits.maxDepth text) (value : Json) :
    (limits.maxDocumentBytes < text.length ∧
      parseJson boost limits text value = .ok (.failure .documentLimit, value)) ∨
    text.length ≤ limits.maxDocumentBytes ∧
      ((¬ (∃ json, Document number limits.maxDepth text json) ∧ ∃ error,
        parseJson boost limits text value = .ok (.failure (parseError error), value)) ∨
      ∃ json, Document number limits.maxDepth text json ∧
        (¬ json.Distinct ∧ parseJson boost limits text value = .ok (.failure .duplicateKey, value) ∨
          json.Distinct ∧ parseJson boost limits text value = .ok (.converted, json))) := by
  by_cases hlong : limits.maxDocumentBytes < text.length
  · exact .inl ⟨hlong, if_pos hlong⟩
  refine .inr ⟨Nat.le_of_not_lt hlong, ?_⟩
  by_cases hdocument : ∃ json, Document number limits.maxDepth text json
  · obtain ⟨json, hjson⟩ := hdocument
    obtain ⟨handler, hrun, hduplicate⟩ := DuplicateHandler.run_document (hreads.events json hjson)
    obtain ⟨herror, hconsumed⟩ := hreads.accepted json hjson
    refine .inr ⟨json, hjson, ?_⟩
    by_cases hdistinct : json.Distinct
    · refine .inr ⟨hdistinct, ?_⟩
      have hclear : handler.duplicate = false := by simpa [hdistinct] using hduplicate
      simp [parseJson, hlong, hrun, herror, hconsumed, hclear, hreads.parsed json hjson hdistinct]
    · refine .inl ⟨hdistinct, ?_⟩
      simp [parseJson, hlong, hrun, herror, hconsumed, hduplicate.mpr hdistinct]
  · have htotal : ∃ after, DuplicateHandler.run {} _ = .ok after :=
      DuplicateHandler.run_total hreads.nested
    obtain ⟨handler, hrun⟩ := htotal
    refine .inl ⟨hdocument, ?_⟩
    cases herror : (boost.validate limits.maxDepth text).error with
    | some error => exact ⟨error, by simp [parseJson, hlong, hrun, herror]⟩
    | none =>
        have hconsumed : (boost.validate limits.maxDepth text).consumed ≠ text.length := by
          simpa [herror] using hreads.rejected hdocument
        exact ⟨.other, by simp [parseJson, hlong, hrun, herror, hconsumed, parseError]⟩

/-- All values of one text repeat a key, or none does. -/
theorem Boost.Reads.distinct_iff {boost : Boost} {maxDepth : Nat} {text : Bytes} {json other : Json}
    (hreads : boost.Reads number maxDepth text) (hjson : Document number maxDepth text json)
    (hother : Document number maxDepth text other) : json.Distinct ↔ other.Distinct := by
  obtain ⟨handler, hrun, hfirst⟩ := DuplicateHandler.run_document (hreads.events json hjson)
  obtain ⟨again, hagain, hsecond⟩ := DuplicateHandler.run_document (hreads.events other hother)
  obtain rfl : handler = again := Except.ok.inj (hrun.symm.trans hagain)
  exact not_iff_not.mp (hfirst.symm.trans hsecond)

theorem parses_iff {limits : JsonLimits} {text : Bytes} {json : Json} :
    Parses number limits text json ↔ text.length ≤ limits.maxDocumentBytes ∧
      Document number limits.maxDepth text json ∧ json.Distinct :=
  ⟨fun h => ⟨h.length, ⟨h.valid, h.document, h.depth⟩, h.distinct⟩,
    fun ⟨hlength, hdocument, hdistinct⟩ =>
      ⟨hlength, hdocument.valid, hdocument.document, hdocument.depth, hdistinct⟩⟩

/-- A text is parsed exactly when it is short enough, valid within the depth and
without repeated keys; every other error comes before that of a repeated key, and
a failure leaves the result alone. -/
theorem parse_exact {boost : Boost} (limits : JsonLimits) {text : Bytes}
    (hreads : boost.Reads number limits.maxDepth text) (value : Json) :
    (∀ json events, StreamsDocument json events → ∃ handler,
      DuplicateHandler.run {} events = .ok handler ∧ (handler.duplicate = true ↔
        ∃ members, .object members ∈ json.nodes ∧ ¬ (members.map Prod.fst).Nodup)) ∧
    ∃ status result, parseJson boost limits text value = .ok (status, result) ∧
      (status = .converted ↔ ∃ json, Parses number limits text json) ∧
      (∀ json, Parses number limits text json → result = json) ∧
      (status ≠ .converted → result = value) ∧
      (status = .failure .duplicateKey ↔ text.length ≤ limits.maxDocumentBytes ∧
        ∃ json, Document number limits.maxDepth text json ∧ ¬ json.Distinct) ∧
      (text.length ≤ limits.maxDocumentBytes →
        (¬ ∃ json, Document number limits.maxDepth text json) →
        ∃ error, status = .failure (parseError error)) := by
  constructor
  · intro json events hevents
    obtain ⟨handler, hrun, hduplicate⟩ := DuplicateHandler.run_document hevents
    refine ⟨handler, hrun, ?_⟩
    rw [hduplicate, distinct_iff]
    simp only [not_forall, exists_prop]
  simp only [parses_iff]
  rcases parseJson_cases hreads value with ⟨hlong, hparse⟩ | ⟨hshort, ⟨hnone, error, hparse⟩ |
      ⟨json, hjson, ⟨hrepeated, hparse⟩ | ⟨hdistinct, hparse⟩⟩⟩
  · have hlength : ¬ text.length ≤ limits.maxDocumentBytes := Nat.not_le.mpr hlong
    refine ⟨_, _, hparse, ?_, ?_, ?_, ?_, ?_⟩
    · simp [Status.failure, hlength]
    · simp [hlength]
    · simp
    · simp [Status.failure, Codec.codecFailure, hlength]
    · simp [hlength]
  · refine ⟨_, _, hparse, ?_, ?_, ?_, ?_, ?_⟩
    · simp only [Status.failure, reduceCtorEq, false_iff]
      rintro ⟨json, -, hjson, -⟩
      exact hnone ⟨json, hjson⟩
    · rintro json ⟨-, hjson, -⟩
      exact absurd ⟨json, hjson⟩ hnone
    · simp
    · have hcode : Status.failure (parseError error) ≠ .failure .duplicateKey := by
        cases error <;> decide
      simp only [hcode, false_iff]
      rintro ⟨-, json, hjson, -⟩
      exact hnone ⟨json, hjson⟩
    · exact fun _ _ => ⟨error, rfl⟩
  · refine ⟨_, _, hparse, ?_, ?_, ?_, ?_, ?_⟩
    · simp only [Status.failure, reduceCtorEq, false_iff]
      rintro ⟨other, -, hother, hdistinct⟩
      exact hrepeated ((hreads.distinct_iff hjson hother).mpr hdistinct)
    · rintro other ⟨-, hother, hdistinct⟩
      exact absurd ((hreads.distinct_iff hjson hother).mpr hdistinct) hrepeated
    · simp
    · simp only [true_iff]
      exact ⟨hshort, json, hjson, hrepeated⟩
    · exact fun _ hnone => absurd ⟨json, hjson⟩ hnone
  · refine ⟨_, _, hparse, ?_, ?_, ?_, ?_, ?_⟩
    · simp only [true_iff]
      exact ⟨json, hshort, hjson, hdistinct⟩
    · rintro other ⟨-, hother, hsame⟩
      have hparsed := hreads.parsed json hjson hdistinct
      rw [hreads.parsed other hother hsame] at hparsed
      exact (Except.ok.inj hparsed).symm
    · simp
    · simp only [Status.failure, reduceCtorEq, false_iff]
      rintro ⟨-, other, hother, hrepeated⟩
      exact hrepeated ((hreads.distinct_iff hjson hother).mp hdistinct)
    · exact fun _ hnone => absurd ⟨json, hjson⟩ hnone

end Parsing

/-! ### A parser of given documents -/

/-- A key, byte by byte. -/
def keyEvents : Bytes → List Event
  | [] => [.key []]
  | c :: rest => .keyPart [c] :: keyEvents rest

mutual

def Json.events : Json → List Event
  | .array items => .arrayBegin :: (itemsEvents items ++ [.arrayEnd])
  | .object members => .objectBegin :: (membersEvents members ++ [.objectEnd])
  | _ => [.value]

def itemsEvents : List Json → List Event
  | [] => []
  | item :: rest => item.events ++ itemsEvents rest

def membersEvents : List (Bytes × Json) → List Event
  | [] => []
  | (name, item) :: rest => keyEvents name ++ item.events ++ membersEvents rest

end

theorem streamsKey_keyEvents (name : Bytes) : StreamsKey name (keyEvents name) := by
  induction name with
  | nil => exact .last []
  | cons c rest ih => exact .part [c] ih

mutual

theorem streams_events (json : Json) : Streams json json.events := by
  match json with
  | .array items => exact ⟨_, streamsItems_events items, rfl⟩
  | .object members => exact ⟨_, streamsMembers_events members, rfl⟩
  | .null | .bool _ | .int64 _ | .uint64 _ | .double _ | .string _ =>
      exact fun event hevent => List.mem_singleton.mp hevent

theorem streamsItems_events (items : List Json) : StreamsItems items (itemsEvents items) := by
  match items with
  | [] => exact rfl
  | item :: rest => exact ⟨_, _, streams_events item, streamsItems_events rest, rfl⟩

theorem streamsMembers_events (members : List (Bytes × Json)) :
    StreamsMembers members (membersEvents members) := by
  match members with
  | [] => exact rfl
  | (name, item) :: rest =>
      exact ⟨_, _, _, streamsKey_keyEvents name, streams_events item, streamsMembers_events rest, rfl⟩

end

open DuplicateHandler (Nested)

theorem nested_keyEvents (name : Bytes) {depth : Nat} {rest : List Event} (hdepth : 0 < depth)
    (h : Nested depth rest) : Nested depth (keyEvents name ++ rest) := by
  induction name with
  | nil => exact ⟨hdepth, h⟩
  | cons c more ih => exact ⟨hdepth, ih⟩

mutual

/-- The events of a value leave the depth as it is. -/
theorem nested_events (json : Json) {depth : Nat} {rest : List Event} (h : Nested depth rest) :
    Nested depth (json.events ++ rest) := by
  match json with
  | .array items =>
      rw [Json.events, List.cons_append, List.append_assoc]
      exact nested_itemsEvents items ⟨Nat.succ_pos depth, h⟩
  | .object members =>
      rw [Json.events, List.cons_append, List.append_assoc]
      exact nested_membersEvents members (Nat.succ_pos depth) ⟨Nat.succ_pos depth, h⟩
  | .null | .bool _ | .int64 _ | .uint64 _ | .double _ | .string _ => exact h

theorem nested_itemsEvents (items : List Json) {depth : Nat} {rest : List Event}
    (h : Nested depth rest) : Nested depth (itemsEvents items ++ rest) := by
  match items with
  | [] => exact h
  | item :: more =>
      rw [itemsEvents, List.append_assoc]
      exact nested_events item (nested_itemsEvents more h)

theorem nested_membersEvents (members : List (Bytes × Json)) {depth : Nat} {rest : List Event}
    (hdepth : 0 < depth) (h : Nested depth rest) :
    Nested depth (membersEvents members ++ rest) := by
  match members with
  | [] => exact h
  | (name, item) :: more =>
      rw [membersEvents, List.append_assoc, List.append_assoc]
      exact nested_keyEvents name hdepth (nested_events item (nested_membersEvents more hdepth h))

end

/-- A parser that reads the documents of a list, and stops behind one. -/
def Boost.ofDocuments (documents : List (Bytes × Json)) : Boost where
  validate _ text :=
    match documents.find? fun document => document.1.isPrefixOf text with
    | some (known, json) =>
        ⟨.documentBegin :: (json.events ++ [.documentEnd]), none, known.length⟩
    | none => ⟨[.documentBegin], some .other, 0⟩
  parse _ text :=
    match documents.lookup text with
    | some json => .ok json
    | none => .error .other

section Documents

variable {documents : List (Bytes × Json)} {maxDepth : Nat} {text known : Bytes} {json : Json}

theorem Boost.validate_ofDocuments
    (hfind : documents.find? (fun document => document.1.isPrefixOf text) = some (known, json)) :
    (Boost.ofDocuments documents).validate maxDepth text =
      ⟨.documentBegin :: (json.events ++ [.documentEnd]), none, known.length⟩ := by
  rw [Boost.ofDocuments]
  simp only [hfind]

theorem Boost.nested_ofDocuments
    (hfind : documents.find? (fun document => document.1.isPrefixOf text) = some (known, json)) :
    Nested 0 ((Boost.ofDocuments documents).validate maxDepth text).events := by
  rw [Boost.validate_ofDocuments hfind]
  have hend : Nested 0 [.documentEnd] := trivial
  exact nested_events json hend

variable {number : Bytes → Option Json}
  (hnumber : ∀ text json, number text = some json → ∀ c ∈ text, isNumberByte c = true)

include hnumber

/-- It reads a document as there is no other value of its text. -/
theorem Boost.reads_ofDocuments (hdocument : Document number maxDepth text json)
    (hfind : documents.find? (fun document => document.1.isPrefixOf text) = some (text, json))
    (hlookup : documents.lookup text = some json) :
    (Boost.ofDocuments documents).Reads number maxDepth text where
  nested := Boost.nested_ofDocuments hfind
  events other hother := by
    obtain ⟨short, hspells⟩ := hdocument.document
    obtain ⟨more, hagain⟩ := hother.document
    obtain rfl := document_unique hnumber hspells hagain
    rw [Boost.validate_ofDocuments hfind]
    exact ⟨_, streams_events json, rfl⟩
  accepted other hother := by simp [Boost.validate_ofDocuments hfind]
  rejected hnone := absurd ⟨json, hdocument⟩ hnone
  parsed other hother hdistinct := by
    obtain ⟨short, hspells⟩ := hdocument.document
    obtain ⟨more, hagain⟩ := hother.document
    obtain rfl := document_unique hnumber hspells hagain
    simp [Boost.ofDocuments, hlookup]

/-- Something behind a document makes it none. -/
theorem Boost.reads_behind {rest : Bytes} {short : Nat}
    (hdocument : SpellsDocument number json known short) (hends : Punctuated rest) (hrest : rest ≠ [])
    (hfind : documents.find? (fun document => document.1.isPrefixOf (known ++ rest)) =
      some (known, json)) :
    (Boost.ofDocuments documents).Reads number maxDepth (known ++ rest) := by
  -- A document of the whole text would have to end where the known one does.
  have hnone : ∀ other, ¬ Document number maxDepth (known ++ rest) other := by
    intro other hother
    obtain ⟨more, hspells⟩ := hother.document
    exact hrest (document_ends hnumber hends hdocument hspells)
  constructor
  case nested => exact Boost.nested_ofDocuments hfind
  case events => exact fun other hother => absurd hother (hnone other)
  case accepted => exact fun other hother => absurd hother (hnone other)
  case parsed => exact fun other hother => absurd hother (hnone other)
  case rejected =>
    intro _
    rw [Boost.validate_ofDocuments hfind]
    exact .inr (by simpa using hrest)

end Documents

/-! ### Keys of nested objects -/

/-- A parser of one number. -/
def oneNumber (text : Bytes) : Option Json := if text = bytes "1" then some (.int64 1) else none

theorem oneNumber_bytes (text : Bytes) (json : Json) (h : oneNumber text = some json) :
    ∀ c ∈ text, isNumberByte c = true := by
  unfold oneNumber at h
  split at h
  next hone =>
    rw [hone]
    decide +kernel
  next => cases h

/-- Equal keys stand in different objects only. -/
def nestedText : Bytes :=
  bytes "\x7b\"a\":\x7b\"a\":1\x7d,\"b\":[\x7b\"a\":true\x7d,\x7b\"a\":\"x\"\x7d]\x7d"

def nestedJson : Json :=
  .object [(bytes "a", .object [(bytes "a", .int64 1)]),
    (bytes "b", .array [.object [(bytes "a", .bool true)],
      .object [(bytes "a", .string (bytes "x"))]])]

/-- The second key of the inner object is written with an escape. -/
def repeatedText : Bytes :=
  bytes "\x7b\"b\":[\x7b\"ab\":null,\"\\u0061b\":\x7b\x7d\x7d]\x7d"

def repeatedJson : Json :=
  .object [(bytes "b", .array [.object [(bytes "ab", .null), (bytes "ab", .object [])]])]

theorem nestedText_document : Document oneNumber 64 nestedText nestedJson := by
  refine ⟨by decide +kernel, ⟨0, .bare ?_⟩, by decide⟩
  have ha : SpellsString (bytes "a") (bytes "\"a\"") 0 := spells_self (by decide +kernel)
  have hb : SpellsString (bytes "b") (bytes "\"b\"") 0 := spells_self (by decide +kernel)
  have hone : Spells oneNumber (.int64 1) (bytes "1") 0 := ⟨rfl, by decide, rfl⟩
  have htrue : Spells oneNumber (.bool true) (bytes "true") 0 := ⟨rfl, rfl⟩
  have hx : Spells oneNumber (.string (bytes "x")) (bytes "\"x\"") 0 := spells_self (by decide +kernel)
  have hobject := spells_object (spells_member ha hone)
  have hlist := spells_array (spells_items (spells_object (spells_member ha htrue))
    (spells_item (spells_object (spells_member ha hx))))
  exact spells_object (spells_members ha hobject (spells_member hb hlist))

theorem repeatedText_document : Document oneNumber 64 repeatedText repeatedJson := by
  refine ⟨by decide +kernel, ⟨0, .bare ?_⟩, by decide⟩
  have hb : SpellsString (bytes "b") (bytes "\"b\"") 0 := spells_self (by decide +kernel)
  have hkey : SpellsString (bytes "ab") (bytes "\"ab\"") 0 := spells_self (by decide +kernel)
  have hunit : hexUnit 0x30 0x30 0x36 0x31 = some 0x61 := rfl
  have hescaped : SpellsString (bytes "ab") (bytes "\"\\u0061b\"") 0 :=
    ⟨bytes "\\u0061b", .unicode hunit (by decide) (.plain (by decide) .nil), rfl⟩
  have hnull : Spells oneNumber .null (bytes "null") 0 := ⟨rfl, rfl⟩
  have hempty : Spells oneNumber (.object []) (bytes "\x7b\x7d") 0 :=
    ⟨[], ⟨by simp [White], rfl⟩, rfl⟩
  have hobject := spells_object (spells_members hkey hnull (spells_member hescaped hempty))
  exact spells_object (spells_member hb (spells_array (spells_item hobject)))

def sampleDocuments : List (Bytes × Json) :=
  [(nestedText, nestedJson), (repeatedText, repeatedJson)]

theorem nestedText_reads : (Boost.ofDocuments sampleDocuments).Reads oneNumber 64 nestedText :=
  Boost.reads_ofDocuments oneNumber_bytes nestedText_document rfl rfl

theorem repeatedText_reads : (Boost.ofDocuments sampleDocuments).Reads oneNumber 64 repeatedText :=
  Boost.reads_ofDocuments oneNumber_bytes repeatedText_document rfl rfl

/-- The key is still repeated, but a bracket is left over. -/
theorem brokenText_reads :
    (Boost.ofDocuments sampleDocuments).Reads oneNumber 64 (repeatedText ++ [0x5d]) := by
  obtain ⟨short, hspells⟩ := repeatedText_document.document
  exact Boost.reads_behind oneNumber_bytes hspells (punctuated_cons rfl rfl) (by decide) rfl

theorem nestedJson_distinct : nestedJson.Distinct := by
  have hnames : [bytes "a", bytes "b"].Nodup := by decide
  simp [nestedJson, Json.Distinct, DistinctMembers, DistinctItems, hnames]

theorem repeatedJson_not_distinct : ¬ repeatedJson.Distinct := by
  simp [repeatedJson, Json.Distinct, DistinctMembers, DistinctItems]

theorem parse_exact_nested :
    parseJson (.ofDocuments sampleDocuments) {} nestedText .null = .ok (.converted, nestedJson) ∧
      parseJson (.ofDocuments sampleDocuments) {} repeatedText .null =
        .ok (.failure .duplicateKey, .null) ∧
      ∃ error, parseJson (.ofDocuments sampleDocuments) {} (repeatedText ++ [0x5d]) .null =
        .ok (.failure (parseError error), .null) := by
  refine ⟨?_, ?_, ?_⟩
  · obtain ⟨-, status, result, hparse, hconverted, hresult, -⟩ :=
      parse_exact {} nestedText_reads .null
    have hparses : Parses oneNumber {} nestedText nestedJson :=
      parses_iff.mpr ⟨by decide, nestedText_document, nestedJson_distinct⟩
    rw [hparse, hconverted.mpr ⟨_, hparses⟩, hresult _ hparses]
  · obtain ⟨-, status, result, hparse, -, -, hkept, hduplicate, -⟩ :=
      parse_exact {} repeatedText_reads .null
    have hstatus := hduplicate.mpr
      ⟨by decide, repeatedJson, repeatedText_document, repeatedJson_not_distinct⟩
    rw [hparse, hstatus, hkept (by rw [hstatus]; decide)]
  · obtain ⟨-, status, result, hparse, -, -, hkept, -, hfailed⟩ :=
      parse_exact {} brokenText_reads .null
    have hnone : ¬ ∃ json, Document oneNumber 64 (repeatedText ++ [0x5d]) json := by
      rintro ⟨json, hjson⟩
      have haccepted := (brokenText_reads.accepted json hjson).2
      revert haccepted
      decide
    obtain ⟨error, hstatus⟩ := hfailed (by decide) hnone
    refine ⟨error, ?_⟩
    rw [hparse, hstatus, hkept (by rw [hstatus]; cases error <;> decide)]

end RttHttp
