import RttHttp.Json.Serialize
import RttHttp.Json.Spelling

/-! # Checked serialization

`validateOutput` walks a value with an explicit stack of the containers it is
inside, and `serializeJson` writes what passed, up to the document limit. A frame
holds the children that are still to be visited.
-/

namespace RttHttp

open Codec (CodecErrorCode JsonLimits)

inductive Frame where
  | items (rest : List Json)
  | members (rest : List (Bytes × Json))

/-- The check of one value; a container is pushed. -/
def enterValue (maxDepth : Nat) (parents : List Frame) : Json → Except CodecErrorCode (List Frame)
  | .string text => if validUtf8 text then .ok parents else .error .invalidUtf8
  | .double value => if value.isFinite then .ok parents else .error .typeMismatch
  | .array items =>
      if parents.length = maxDepth then .error .depthLimit else .ok (.items items :: parents)
  | .object members =>
      if parents.length = maxDepth then .error .depthLimit else .ok (.members members :: parents)
  | _ => .ok parents

/-- The inner loop: the next child, out of the innermost container that has one. -/
def nextValue : List Frame → Except CodecErrorCode (Option (Json × List Frame))
  | [] => .ok none
  | .items [] :: below | .members [] :: below => nextValue below
  | .items (item :: rest) :: below => .ok (some (item, .items rest :: below))
  | .members ((key, value) :: rest) :: below =>
      if validUtf8 key then .ok (some (value, .members rest :: below)) else .error .invalidUtf8

/-- The outer loop; every round visits one value. -/
def validateLoop (maxDepth : Nat) : (fuel : Nat) → Json → List Frame →
    Except (Option CodecErrorCode) Unit
  | 0, _, _ => .error none
  | fuel + 1, current, parents =>
      match enterValue maxDepth parents current with
      | .error code => .error (some code)
      | .ok parents =>
          match nextValue parents with
          | .error code => .error (some code)
          | .ok none => .ok ()
          | .ok (some (next, parents)) => validateLoop maxDepth fuel next parents

mutual

/-- The number of values in a document. -/
def Json.size : Json → Nat
  | .array items => itemsSize items + 1
  | .object members => membersSize members + 1
  | _ => 1

def itemsSize : List Json → Nat
  | [] => 0
  | item :: rest => item.size + itemsSize rest

def membersSize : List (Bytes × Json) → Nat
  | [] => 0
  | (_, value) :: rest => value.size + membersSize rest

end

def validateOutput (root : Json) (maxDepth : Nat) : Except (Option CodecErrorCode) Unit :=
  validateLoop maxDepth root.size root []

/-- `serializeJson`; how a `double` is written is left open. Memory is not
modelled here. -/
def serializeJson (double : Double → Bytes) (value : Json) (limits : JsonLimits) :
    Except (Option CodecErrorCode) Bytes :=
  match validateOutput value limits.maxDepth with
  | .error code => .error code
  | .ok _ =>
      if limits.maxDocumentBytes < (serialize double value).length then .error (some .documentLimit)
      else .ok (serialize double value)

theorem serializeJson_ok {double : Double → Bytes} {value : Json} {limits : JsonLimits}
    {text : Bytes} (h : serializeJson double value limits = .ok text) :
    text = serialize double value ∧ text.length ≤ limits.maxDocumentBytes := by
  unfold serializeJson at h
  split at h
  next => cases h
  next =>
    split at h
    next => cases h
    next hlength =>
      cases h
      exact ⟨rfl, Nat.le_of_not_lt hlength⟩

/-! ## The first violation -/

mutual

/-- The first violation in document order: a key comes before its value, and a
container that is too deep is refused where it opens. -/
def violation (maxDepth depth : Nat) : Json → Option CodecErrorCode
  | .string text => if validUtf8 text then none else some .invalidUtf8
  | .double value => if value.isFinite then none else some .typeMismatch
  | .array items =>
      if depth = maxDepth then some .depthLimit else itemsViolation maxDepth (depth + 1) items
  | .object members =>
      if depth = maxDepth then some .depthLimit else membersViolation maxDepth (depth + 1) members
  | _ => none

def itemsViolation (maxDepth depth : Nat) : List Json → Option CodecErrorCode
  | [] => none
  | item :: rest => (violation maxDepth depth item).or (itemsViolation maxDepth depth rest)

def membersViolation (maxDepth depth : Nat) : List (Bytes × Json) → Option CodecErrorCode
  | [] => none
  | (key, value) :: rest =>
      if validUtf8 key then
        (violation maxDepth depth value).or (membersViolation maxDepth depth rest)
      else some .invalidUtf8

end

mutual

/-- The values of a document, each container before what is in it. -/
def Json.nodes : Json → List Json
  | .array items => .array items :: itemsNodes items
  | .object members => .object members :: membersNodes members
  | value => [value]

def itemsNodes : List Json → List Json
  | [] => []
  | item :: rest => item.nodes ++ itemsNodes rest

def membersNodes : List (Bytes × Json) → List Json
  | [] => []
  | (_, value) :: rest => value.nodes ++ membersNodes rest

end

/-! ## The walk -/

/-- The values that the outer loop visits. -/
def visitLoop (maxDepth : Nat) : (fuel : Nat) → Json → List Frame → List Json
  | 0, _, _ => []
  | fuel + 1, current, parents =>
      current :: match enterValue maxDepth parents current with
        | .error _ => []
        | .ok parents =>
            match nextValue parents with
            | .ok (some (next, parents)) => visitLoop maxDepth fuel next parents
            | _ => []

namespace Frame

def size : Frame → Nat
  | .items rest => itemsSize rest
  | .members rest => membersSize rest

def nodes : Frame → List Json
  | .items rest => itemsNodes rest
  | .members rest => membersNodes rest

def violation (maxDepth depth : Nat) : Frame → Option CodecErrorCode
  | .items rest => itemsViolation maxDepth depth rest
  | .members rest => membersViolation maxDepth depth rest

end Frame

/-- What is left to visit in the open containers. -/
def framesNodes (frames : List Frame) : List Json := frames.flatMap Frame.nodes

def framesSize (frames : List Frame) : Nat := (frames.map Frame.size).sum

/-- The first violation in the open containers, the innermost first. -/
def framesViolation (maxDepth : Nat) : List Frame → Option CodecErrorCode
  | [] => none
  | frame :: below =>
      (frame.violation maxDepth (below.length + 1)).or (framesViolation maxDepth below)

section Walk

variable {maxDepth : Nat} {frames : List Frame}

/-- What the inner loop finds. -/
def FoundNext (maxDepth : Nat) (frames : List Frame) :
    Except CodecErrorCode (Option (Json × List Frame)) → Prop
  | .error code => framesViolation maxDepth frames = some code
  | .ok none => framesViolation maxDepth frames = none ∧ framesNodes frames = []
  | .ok (some (value, after)) =>
      framesViolation maxDepth frames =
        (violation maxDepth after.length value).or (framesViolation maxDepth after) ∧
      framesNodes frames = value.nodes ++ framesNodes after ∧
      value.size + framesSize after = framesSize frames

/-- A container that is used up changes nothing. -/
theorem FoundNext.drop {frame : Frame} {found : Except CodecErrorCode (Option (Json × List Frame))}
    (hviolation : ∀ depth, frame.violation maxDepth depth = none) (hnodes : frame.nodes = [])
    (hsize : frame.size = 0) (h : FoundNext maxDepth frames found) :
    FoundNext maxDepth (frame :: frames) found := by
  have hsame : framesViolation maxDepth (frame :: frames) = framesViolation maxDepth frames := by
    rw [framesViolation, hviolation, Option.none_or]
  have hsameNodes : framesNodes (frame :: frames) = framesNodes frames := by
    rw [framesNodes, List.flatMap_cons, hnodes, List.nil_append, framesNodes]
  have hsameSize : framesSize (frame :: frames) = framesSize frames := by
    rw [framesSize, List.map_cons, List.sum_cons, hsize, Nat.zero_add, framesSize]
  cases found with
  | error code =>
      rw [FoundNext, hsame]
      exact h
  | ok next =>
      cases next with
      | none =>
          rw [FoundNext, hsame, hsameNodes]
          exact h
      | some next =>
          obtain ⟨value, after⟩ := next
          rw [FoundNext, hsame, hsameNodes, hsameSize]
          exact h

theorem nextValue_found (maxDepth : Nat) (frames : List Frame) :
    FoundNext maxDepth frames (nextValue frames) := by
  induction frames with
  | nil => exact ⟨rfl, rfl⟩
  | cons frame below ih =>
      cases frame with
      | items rest =>
          cases rest with
          | nil => exact ih.drop (fun _ => rfl) rfl rfl
          | cons item rest =>
              refine ⟨?_, ?_, ?_⟩
              · rw [framesViolation, framesViolation, Frame.violation, Frame.violation,
                  itemsViolation, Option.or_assoc]
                rfl
              · simp [framesNodes, Frame.nodes, itemsNodes]
              · simp only [framesSize, List.map_cons, List.sum_cons, Frame.size, itemsSize]
                omega
      | members rest =>
          cases rest with
          | nil => exact ih.drop (fun _ => rfl) rfl rfl
          | cons member rest =>
              obtain ⟨key, value⟩ := member
              rw [nextValue]
              split
              next hkey =>
                refine ⟨?_, ?_, ?_⟩
                · rw [framesViolation, framesViolation, Frame.violation, Frame.violation,
                    membersViolation, if_pos hkey, Option.or_assoc]
                  rfl
                · simp [framesNodes, Frame.nodes, membersNodes]
                · simp only [framesSize, List.map_cons, List.sum_cons, Frame.size, membersSize]
                  omega
              next hkey =>
                rw [FoundNext, framesViolation, Frame.violation, membersViolation, if_neg hkey]
                rfl

/-- What entering a value does to what is left. -/
def Entered (maxDepth : Nat) (parents : List Frame) (value : Json) :
    Except CodecErrorCode (List Frame) → Prop
  | .error code => violation maxDepth parents.length value = some code
  | .ok after =>
      framesViolation maxDepth after =
        (violation maxDepth parents.length value).or (framesViolation maxDepth parents) ∧
      value :: framesNodes after = value.nodes ++ framesNodes parents ∧
      framesSize after + 1 = value.size + framesSize parents

theorem Entered.scalar {value : Json} (hviolation : violation maxDepth frames.length value = none)
    (hnodes : value.nodes = [value]) (hsize : value.size = 1) :
    Entered maxDepth frames value (.ok frames) := by
  refine ⟨?_, ?_, ?_⟩
  · rw [hviolation, Option.none_or]
  · rw [hnodes]
    rfl
  · rw [hsize]
    omega

theorem enterValue_entered (maxDepth : Nat) (parents : List Frame) (value : Json) :
    Entered maxDepth parents value (enterValue maxDepth parents value) := by
  cases value with
  | string text =>
      rw [enterValue]
      split
      next htext => exact .scalar (by rw [violation, if_pos htext]) rfl rfl
      next htext => rw [Entered, violation, if_neg htext]
  | double value =>
      rw [enterValue]
      split
      next hvalue => exact .scalar (by rw [violation, if_pos hvalue]) rfl rfl
      next hvalue => rw [Entered, violation, if_neg hvalue]
  | array items =>
      rw [enterValue]
      split
      next hfull => rw [Entered, violation, if_pos hfull]
      next hfull =>
        refine ⟨?_, rfl, ?_⟩
        · rw [violation, if_neg hfull]
          rfl
        · simp only [framesSize, List.map_cons, List.sum_cons, Frame.size, Json.size]
          omega
  | object members =>
      rw [enterValue]
      split
      next hfull => rw [Entered, violation, if_pos hfull]
      next hfull =>
        refine ⟨?_, rfl, ?_⟩
        · rw [violation, if_neg hfull]
          rfl
        · simp only [framesSize, List.map_cons, List.sum_cons, Frame.size, Json.size]
          omega
  | _ => exact .scalar rfl rfl rfl

/-- How the walk ends, and what it has visited then. -/
structure Walks (maxDepth fuel : Nat) (current : Json) (parents : List Frame) : Prop where
  verdict : validateLoop maxDepth fuel current parents =
    match (violation maxDepth parents.length current).or (framesViolation maxDepth parents) with
    | some code => .error (some code)
    | none => .ok ()
  visited : visitLoop maxDepth fuel current parents <+: current.nodes ++ framesNodes parents
  complete :
    (violation maxDepth parents.length current).or (framesViolation maxDepth parents) = none →
    visitLoop maxDepth fuel current parents = current.nodes ++ framesNodes parents

/-- The run lemma of the walk, by the values that are left. -/
theorem validateLoop_walks {fuel : Nat} {current : Json} {parents : List Frame}
    (hfuel : current.size + framesSize parents ≤ fuel) : Walks maxDepth fuel current parents := by
  induction fuel generalizing current parents with
  | zero =>
      have hpositive : 0 < current.size := by cases current <;> simp [Json.size]
      omega
  | succ fuel ih =>
      have hentered := enterValue_entered maxDepth parents current
      cases henter : enterValue maxDepth parents current with
      | error code =>
          rw [henter] at hentered
          have hfirst : violation maxDepth parents.length current = some code := hentered
          have hhead : [current] <+: current.nodes ++ framesNodes parents := by
            cases current <;> exact ⟨_, rfl⟩
          refine ⟨?_, ?_, ?_⟩
          · simp [validateLoop, henter, hfirst]
          · simpa [visitLoop, henter] using hhead
          · simp [hfirst]
      | ok inside =>
          rw [henter] at hentered
          obtain ⟨hviolation, hnodes, hsize⟩ := hentered
          have hfound := nextValue_found maxDepth inside
          cases hnext : nextValue inside with
          | error code =>
              rw [hnext] at hfound
              have hsecond : framesViolation maxDepth inside = some code := hfound
              refine ⟨?_, ?_, ?_⟩
              · simp [validateLoop, henter, hnext, ← hviolation, hsecond]
              · rw [← hnodes]
                simp [visitLoop, henter, hnext]
              · simp [← hviolation, hsecond]
          | ok next =>
              rw [hnext] at hfound
              cases next with
              | none =>
                  obtain ⟨hnone, hempty⟩ := hfound
                  refine ⟨?_, ?_, ?_⟩
                  · simp [validateLoop, henter, hnext, ← hviolation, hnone]
                  · rw [← hnodes]
                    simp [visitLoop, henter, hnext]
                  · rw [← hnodes, hempty]
                    simp [visitLoop, henter, hnext]
              | some next =>
                  obtain ⟨value, after⟩ := next
                  obtain ⟨hrest, hleft, hsizes⟩ := hfound
                  have hwalks : Walks maxDepth fuel value after := ih (by omega)
                  refine ⟨?_, ?_, ?_⟩
                  · simp only [validateLoop, henter, hnext, ← hviolation, hrest]
                    exact hwalks.verdict
                  · rw [← hnodes, hleft]
                    simp only [visitLoop, henter, hnext]
                    exact List.cons_prefix_cons.mpr ⟨rfl, hwalks.visited⟩
                  · intro hnone
                    rw [← hviolation, hrest] at hnone
                    rw [← hnodes, hleft]
                    simp only [visitLoop, henter, hnext]
                    rw [hwalks.complete hnone]

end Walk

/-- The check of a document finds its first violation. -/
theorem validateOutput_eq (root : Json) (maxDepth : Nat) :
    validateOutput root maxDepth =
      match violation maxDepth 0 root with
      | some code => .error (some code)
      | none => .ok () := by
  have hwalks : Walks maxDepth root.size root [] := validateLoop_walks (by simp [framesSize])
  have hverdict := hwalks.verdict
  simp only [framesViolation, Option.or_none, List.length_nil] at hverdict
  exact hverdict

/-! ## What passes -/

mutual

/-- Strings and names are UTF-8, and numbers are finite. -/
def Json.Clean : Json → Prop
  | .string text => validUtf8 text = true
  | .double value => value.isFinite = true
  | .array items => CleanItems items
  | .object members => CleanMembers members
  | _ => True

def CleanItems : List Json → Prop
  | [] => True
  | item :: rest => item.Clean ∧ CleanItems rest

def CleanMembers : List (Bytes × Json) → Prop
  | [] => True
  | (name, value) :: rest => validUtf8 name = true ∧ value.Clean ∧ CleanMembers rest

end

/-- So many levels below so many others stay within the limit. -/
def Fits (maxDepth depth levels : Nat) : Prop := levels = 0 ∨ depth + levels ≤ maxDepth

theorem fits_max {maxDepth depth first second : Nat} :
    Fits maxDepth depth (max first second) ↔
      Fits maxDepth depth first ∧ Fits maxDepth depth second := by
  unfold Fits
  omega

theorem fits_succ {maxDepth depth levels : Nat} (hdepth : depth < maxDepth) :
    Fits maxDepth depth (levels + 1) ↔ Fits maxDepth (depth + 1) levels := by
  unfold Fits
  omega

mutual

theorem violation_eq_none_iff {maxDepth depth : Nat} {json : Json} (hdepth : depth ≤ maxDepth) :
    violation maxDepth depth json = none ↔ json.Clean ∧ Fits maxDepth depth json.depth := by
  match json with
  | .array items =>
      rw [violation, Json.Clean, Json.depth]
      split
      next hfull => simp [Fits, hfull]
      next hfull =>
        have hless : depth < maxDepth := Nat.lt_of_le_of_ne hdepth hfull
        rw [itemsViolation_eq_none_iff hless, fits_succ hless]
  | .object members =>
      rw [violation, Json.Clean, Json.depth]
      split
      next hfull => simp [Fits, hfull]
      next hfull =>
        have hless : depth < maxDepth := Nat.lt_of_le_of_ne hdepth hfull
        rw [membersViolation_eq_none_iff hless, fits_succ hless]
  | .string text => simp [violation, Json.Clean, Fits, Json.depth]
  | .double value => simp [violation, Json.Clean, Fits, Json.depth]
  | .null => simp [violation, Json.Clean, Fits, Json.depth]
  | .bool value => simp [violation, Json.Clean, Fits, Json.depth]
  | .int64 value => simp [violation, Json.Clean, Fits, Json.depth]
  | .uint64 value => simp [violation, Json.Clean, Fits, Json.depth]

theorem itemsViolation_eq_none_iff {maxDepth depth : Nat} {items : List Json}
    (hdepth : depth + 1 ≤ maxDepth) :
    itemsViolation maxDepth (depth + 1) items = none ↔
      CleanItems items ∧ Fits maxDepth (depth + 1) (itemsDepth items) := by
  match items with
  | [] => simp [itemsViolation, CleanItems, itemsDepth, Fits]
  | item :: rest =>
      rw [itemsViolation, Option.or_eq_none_iff, violation_eq_none_iff hdepth,
        itemsViolation_eq_none_iff hdepth, CleanItems, itemsDepth, fits_max]
      tauto

theorem membersViolation_eq_none_iff {maxDepth depth : Nat} {members : List (Bytes × Json)}
    (hdepth : depth + 1 ≤ maxDepth) :
    membersViolation maxDepth (depth + 1) members = none ↔
      CleanMembers members ∧ Fits maxDepth (depth + 1) (membersDepth members) := by
  match members with
  | [] => simp [membersViolation, CleanMembers, membersDepth, Fits]
  | (key, value) :: rest =>
      rw [membersViolation, CleanMembers, membersDepth, fits_max]
      split
      next hkey =>
        rw [Option.or_eq_none_iff, violation_eq_none_iff hdepth,
          membersViolation_eq_none_iff hdepth]
        simp only [hkey, true_and]
        tauto
      next hkey => simp [hkey]

end

theorem violation_root_eq_none_iff {maxDepth : Nat} {json : Json} :
    violation maxDepth 0 json = none ↔ json.Clean ∧ json.depth ≤ maxDepth := by
  rw [violation_eq_none_iff (Nat.zero_le maxDepth)]
  unfold Fits
  constructor
  · rintro ⟨hclean, hfits⟩
    exact ⟨hclean, by omega⟩
  · rintro ⟨hclean, hdepth⟩
    exact ⟨hclean, by omega⟩

mutual

/-- In a clean value the depth alone is refused. -/
theorem violation_clean {maxDepth depth : Nat} {json : Json} {code : CodecErrorCode}
    (hclean : json.Clean) (h : violation maxDepth depth json = some code) : code = .depthLimit := by
  match json with
  | .array items =>
      rw [violation] at h
      split at h
      next => exact (Option.some.inj h).symm
      next => exact itemsViolation_clean hclean h
  | .object members =>
      rw [violation] at h
      split at h
      next => exact (Option.some.inj h).symm
      next => exact membersViolation_clean hclean h
  | .string text =>
      have hvalid : validUtf8 text = true := hclean
      simp [violation, hvalid] at h
  | .double value =>
      have hfinite : value.isFinite = true := hclean
      simp [violation, hfinite] at h

theorem itemsViolation_clean {maxDepth depth : Nat} {items : List Json} {code : CodecErrorCode}
    (hclean : CleanItems items) (h : itemsViolation maxDepth depth items = some code) :
    code = .depthLimit := by
  match items with
  | item :: rest =>
      rw [itemsViolation, Option.or_eq_some_iff] at h
      rcases h with hitem | ⟨-, hrest⟩
      · exact violation_clean hclean.1 hitem
      · exact itemsViolation_clean hclean.2 hrest

theorem membersViolation_clean {maxDepth depth : Nat} {members : List (Bytes × Json)}
    {code : CodecErrorCode} (hclean : CleanMembers members)
    (h : membersViolation maxDepth depth members = some code) : code = .depthLimit := by
  match members with
  | (key, value) :: rest =>
      obtain ⟨hkey, hvalue, hrest⟩ := hclean
      rw [membersViolation, if_pos hkey, Option.or_eq_some_iff] at h
      rcases h with hvalueCode | ⟨-, hrestCode⟩
      · exact violation_clean hvalue hvalueCode
      · exact membersViolation_clean hrest hrestCode

end

/-- A clean document passes exactly when it is not too deep. -/
theorem validateOutput_clean {json : Json} (hclean : json.Clean) (maxDepth : Nat) :
    validateOutput json maxDepth =
      if maxDepth < json.depth then .error (some .depthLimit) else .ok () := by
  rw [validateOutput_eq]
  split
  next code hcode =>
    have hdeep : maxDepth < json.depth := by
      by_contra hshallow
      have hnone := violation_root_eq_none_iff.mpr ⟨hclean, Nat.le_of_not_lt hshallow⟩
      rw [hnone] at hcode
      cases hcode
    rw [if_pos hdeep, violation_clean hclean hcode]
  next hnone =>
    have hshallow : json.depth ≤ maxDepth := (violation_root_eq_none_iff.mp hnone).2
    rw [if_neg (Nat.not_lt.mpr hshallow)]

theorem clean_of_serializeJson {double : Double → Bytes} {value : Json} {limits : JsonLimits}
    {text : Bytes} (h : serializeJson double value limits = .ok text) : value.Clean := by
  rw [serializeJson, validateOutput_eq] at h
  cases hviolation : violation limits.maxDepth 0 value with
  | none => exact (violation_root_eq_none_iff.mp hviolation).1
  | some code =>
      rw [hviolation] at h
      cases h

/-! ## Writing in chunks -/

/-- The loop over what the serializer delivers. `none` stands for a wrapped
`maxDocumentBytes - staged.size()`. -/
def appendChunks (maxDocumentBytes : Nat) : (chunks : List Bytes) → (staged : Bytes) →
    Except (Option CodecErrorCode) Bytes
  | [], staged => .ok staged
  | part :: rest, staged =>
      if maxDocumentBytes < staged.length then .error none
      else if maxDocumentBytes - staged.length < part.length then .error (some .documentLimit)
      else appendChunks maxDocumentBytes rest (staged ++ part)

/-- `serializeJson` with its result argument; `chunks` is what the serializer
delivers into the buffer, one entry for each `read`. -/
def serializeInto (value : Json) (chunks : List Bytes) (limits : JsonLimits) (text : Bytes) :
    Except (Option CodecErrorCode) Unit × Bytes :=
  match validateOutput value limits.maxDepth with
  | .error code => (.error code, text)
  | .ok _ =>
      match appendChunks limits.maxDocumentBytes chunks [] with
      | .error code => (.error code, text)
      | .ok staged => (.ok (), staged)

theorem appendChunks_eq {maxDocumentBytes : Nat} (chunks : List Bytes) {staged : Bytes}
    (hstaged : staged.length ≤ maxDocumentBytes) :
    appendChunks maxDocumentBytes chunks staged =
      if maxDocumentBytes < (staged ++ chunks.flatten).length then .error (some .documentLimit)
      else .ok (staged ++ chunks.flatten) := by
  induction chunks generalizing staged with
  | nil => simp [appendChunks, hstaged]
  | cons part rest ih =>
      rw [appendChunks, if_neg (Nat.not_lt.mpr hstaged)]
      split
      next hlong =>
        rw [if_pos]
        simp only [List.length_append, List.flatten_cons]
        omega
      next hshort =>
        have hmore : (staged ++ part).length ≤ maxDocumentBytes := by
          rw [List.length_append]
          omega
        rw [ih hmore, List.flatten_cons, List.append_assoc]

/-- However the text is cut, the outcome is that of the whole text. -/
theorem serializeInto_eq {double : Double → Bytes} {value : Json} {chunks : List Bytes}
    (hchunks : chunks.flatten = serialize double value) (limits : JsonLimits) (text : Bytes) :
    serializeInto value chunks limits text =
      match serializeJson double value limits with
      | .error code => (.error code, text)
      | .ok written => (.ok (), written) := by
  unfold serializeInto serializeJson
  split
  next => rfl
  next =>
    rw [appendChunks_eq chunks (Nat.zero_le _), List.nil_append, hchunks]

/-- Serialization is exact and all or nothing: what it accepts, what it leaves in
the result, which violation it reports, and that the walk over the document is
complete. -/
theorem serialize_exact (double : Double → Bytes) (value : Json) (chunks : List Bytes)
    (limits : JsonLimits) (text : Bytes) (hchunks : chunks.flatten = serialize double value) :
    ((serializeInto value chunks limits text).1 = .ok () ↔
      value.Clean ∧ value.depth ≤ limits.maxDepth ∧
        (serialize double value).length ≤ limits.maxDocumentBytes) ∧
    ((serializeInto value chunks limits text).1 = .ok () →
      (serializeInto value chunks limits text).2 = serialize double value) ∧
    ((serializeInto value chunks limits text).1 ≠ .ok () →
      (serializeInto value chunks limits text).2 = text) ∧
    (∀ code, violation limits.maxDepth 0 value = some code →
      (serializeInto value chunks limits text).1 = .error (some code)) ∧
    (violation limits.maxDepth 0 value = none →
      limits.maxDocumentBytes < (serialize double value).length →
      (serializeInto value chunks limits text).1 = .error (some .documentLimit)) ∧
    (serializeInto value chunks limits text).1 ≠ .error none ∧
    visitLoop limits.maxDepth value.size value [] <+: value.nodes ∧
    (violation limits.maxDepth 0 value = none →
      visitLoop limits.maxDepth value.size value [] = value.nodes) := by
  have hwalks : Walks limits.maxDepth value.size value [] :=
    validateLoop_walks (by simp [framesSize])
  have hvisited := hwalks.visited
  have hcomplete := hwalks.complete
  simp only [framesNodes, framesViolation, List.flatMap_nil, List.append_nil, List.length_nil,
    Option.or_none] at hvisited hcomplete
  rw [serializeInto_eq hchunks, serializeJson, validateOutput_eq]
  cases hviolation : violation limits.maxDepth 0 value with
  | some code =>
      have hrefused : ¬ (value.Clean ∧ value.depth ≤ limits.maxDepth) := by
        intro haccepted
        have hnone := violation_root_eq_none_iff.mpr haccepted
        rw [hviolation] at hnone
        cases hnone
      refine ⟨?_, ?_, ?_, ?_, ?_, ?_, hvisited, ?_⟩
      · simp only [reduceCtorEq, false_iff]
        rintro ⟨hclean, hdepth, -⟩
        exact hrefused ⟨hclean, hdepth⟩
      · simp
      · simp
      · rintro other ⟨⟩
        rfl
      · simp
      · simp
      · simp
  | none =>
      obtain ⟨hclean, hdepth⟩ := violation_root_eq_none_iff.mp hviolation
      by_cases hlong : limits.maxDocumentBytes < (serialize double value).length
      · simp only [if_pos hlong]
        refine ⟨?_, ?_, ?_, ?_, ?_, ?_, hvisited, fun _ => hcomplete hviolation⟩
        · simp only [reduceCtorEq, false_iff]
          rintro ⟨-, -, hlength⟩
          omega
        all_goals simp
      · simp only [if_neg hlong]
        refine ⟨?_, ?_, ?_, ?_, ?_, ?_, hvisited, fun _ => hcomplete hviolation⟩
        · simpa using ⟨hclean, hdepth, Nat.le_of_not_lt hlong⟩
        · simp
        · simp
        · simp
        · intro _ hbad
          exact absurd hbad hlong
        · simp

/-- A list in two chunks. -/
theorem serialize_exact_list :
    (serializeInto (.array [.null, .bool true]) [bytes "[nu", bytes "ll,true]"]
      ⟨16, 2⟩ []).2 = bytes "[null,true]" := by
  have haccepted : (serializeInto (.array [.null, .bool true]) [bytes "[nu", bytes "ll,true]"]
      ⟨16, 2⟩ []).1 = .ok () := by rfl
  exact (serialize_exact (fun _ => []) (.array [.null, .bool true]) [bytes "[nu", bytes "ll,true]"]
    ⟨16, 2⟩ [] (by decide)).2.1 haccepted

end RttHttp
