import RttHttp.Codec.RequestBudget
import RttHttp.Codec.ResponseBudget
import RttHttp.Json.Output

/-! # The depth counters

The parser, the scopes of the codecs and the stack of `validateOutput` count the
containers that are nested in each other. A conversion leaves its counter as it
found it, and the three counters agree on every value.
-/

namespace RttHttp.Codec

/-! ## Contexts after a conversion -/

section Ends

variable {α : Type} {context : CodecContext} {output : α} {value : Option α} {cost nesting : Nat}
  {result : Result α}

theorem Ends.framed (h : Ends context output value cost nesting result) :
    context.Framed result.context := by
  cases h with
  | converted => exact context.framed_spend cost
  | rejected _ _ hframe => exact hframe
  | outOfBytes _ hframe => exact hframe
  | tooDeep _ hframe => exact hframe

/-- No conversion that fits fails for its depth. -/
theorem Ends.not_depthLimit (h : Ends context output value cost nesting result)
    (hfits : context.depth + nesting ≤ context.limits.maxDepth) {error : CodecError}
    (hfailed : result.status = .failed (some error)) : error.code ≠ .depthLimit := by
  cases h with
  | converted => cases hfailed
  | rejected _ herror =>
      cases hfailed
      exact (herror error rfl).2
  | outOfBytes =>
      cases hfailed
      exact nofun
  | tooDeep hdepth => omega

/-- A failure for the depth, wherever it is reported. -/
def FailsForDepth (result : Result α) : Prop :=
  ∃ error, result.status = .failed (some error) ∧ error.code = .depthLimit

/-- With enough bytes, a value is refused exactly when it is too deep. -/
theorem Ends.failsForDepth_iff {found : α}
    (h : Ends context output (some found) cost nesting result)
    (hbytes : cost ≤ context.remaining) :
    FailsForDepth result ↔ context.limits.maxDepth < context.depth + nesting := by
  cases h with
  | converted _ _ hdepth =>
      refine ⟨?_, fun hdeep => by omega⟩
      rintro ⟨error, hstatus, -⟩
      cases hstatus
  | rejected hvalue => cases hvalue
  | outOfBytes hfew => omega
  | tooDeep hdepth => exact ⟨fun _ => hdepth, fun _ => ⟨_, rfl, rfl⟩⟩

end Ends

/-! ## The depth of what is written -/

/-- What is written for a value: a clean document as deep as the levels entered. -/
structure Written (json : Json) (nesting : Nat) : Prop where
  clean : json.Clean
  depth : json.depth = nesting

/-- The elements of a list are written one by one. -/
theorem written_array {α : Type} {values : List α} {items : List Json} {write : α → Option Json}
    {nesting : α → Nat} (hitems : values.mapM write = some items)
    (hvalue : ∀ value ∈ values, ∀ json, write value = some json → Written json (nesting value)) :
    Written (.array items) (deepest (values.map nesting) + 1) := by
  rw [mapM_eq_some_iff] at hitems
  have hall : CleanItems items ∧ itemsDepth items = deepest (values.map nesting) := by
    induction hitems with
    | nil => exact ⟨trivial, rfl⟩
    | @cons value json values items hfirst _ ih =>
        obtain ⟨hhead, hrest⟩ := List.forall_mem_cons.mp hvalue
        obtain ⟨hclean, hdepth⟩ := ih hrest
        obtain ⟨hfirstClean, hfirstDepth⟩ := hhead json hfirst
        refine ⟨⟨hfirstClean, hclean⟩, ?_⟩
        rw [itemsDepth, hdepth, hfirstDepth]
        rfl
  refine ⟨hall.1, ?_⟩
  rw [Json.depth, hall.2]

theorem written_intJson (t : IntType) (value : t.Value) : Written (intJson t value) 0 := by
  have hdigits : validUtf8 (toChars value.1) = true := by
    apply validUtf8_ascii
    intro c hc
    have hdigit : ∀ c : UInt8, isDigit c = true → c < 0x80 :=
      forall_byte (p := fun c => isDigit c = true → c < 0x80) (by decide +kernel)
    rcases mem_toChars hc with rfl | hc
    · decide
    · exact hdigit c hc
  unfold intJson
  split
  · exact ⟨hdigits, rfl⟩
  · split
    · exact ⟨trivial, rfl⟩
    · exact ⟨trivial, rfl⟩

theorem written_floatJson (t : FloatType) (value : Binary t.format) : Written (floatJson t value) 0 := by
  have hword : ∀ text ∈ [bytes "NaN", bytes "Infinity", bytes "-Infinity"],
      validUtf8 text = true := by decide
  cases value with
  | finite number =>
      rw [floatJson_finite]
      exact ⟨rfl, rfl⟩
  | infinite negative =>
      cases negative with
      | false => exact ⟨hword (bytes "Infinity") (by simp), rfl⟩
      | true => exact ⟨hword (bytes "-Infinity") (by simp), rfl⟩
  | nan => exact ⟨hword (bytes "NaN") (by simp), rfl⟩

theorem written_encoded {code : Code} {value : code.Value} {json : Json}
    (h : encoded code value = some json) : Written json (encodeNesting code value) := by
  induction code generalizing json with
  | bool =>
      cases h
      exact ⟨trivial, rfl⟩
  | int t =>
      cases h
      exact written_intJson t value
  | float t =>
      cases h
      exact written_floatJson t value
  | string =>
      obtain ⟨hvalid, hjson⟩ := Option.ite_none_right_eq_some.mp h
      cases hjson
      exact ⟨hvalid, rfl⟩
  | enum wire =>
      cases h
      exact written_intJson wire value
  | vector element ih =>
      obtain ⟨items, hitems, rfl⟩ := Option.map_eq_some_iff.mp h
      exact written_array hitems fun value _ json => ih
  | array element size ih =>
      obtain ⟨items, hitems, rfl⟩ := Option.map_eq_some_iff.mp h
      exact written_array hitems fun value _ json => ih

mutual

theorem written_value {codec : TypeCodec} {value : Value} {json : Json}
    (hregistered : codec.Registered) (h : written codec value = some json) :
    Written json (writeNesting codec value) := by
  match codec, value with
  | .typed code, .typed found value =>
      rw [written] at h
      split at h
      next heq =>
        subst heq
        rw [writeNesting, dif_pos rfl]
        exact written_encoded h
      next => cases h
  | .record type members, .record found parts =>
      rw [written] at h
      obtain ⟨htype, hmembers⟩ := Option.ite_none_right_eq_some.mp h
      obtain ⟨object, hobject, rfl⟩ := Option.map_eq_some_iff.mp hmembers
      obtain ⟨more, hmore, hclean, hdepth⟩ := written_members hregistered.2.2 hregistered.2.1
        (by simp) hobject
      obtain rfl : object = more := hmore
      refine ⟨hclean, ?_⟩
      rw [Json.depth, hdepth, writeNesting, if_pos htype]
  | .sequence type length element, .sequence found items =>
      rw [written] at h
      obtain ⟨htype, h⟩ := Option.ite_none_right_eq_some.mp h
      obtain ⟨hfits, h⟩ := Option.ite_none_right_eq_some.mp h
      obtain ⟨array, harray, rfl⟩ := Option.map_eq_some_iff.mp h
      have helement : element.Registered := hregistered
      rw [writeNesting, if_pos ⟨htype, hfits⟩]
      apply written_array harray
      intro item _ json hjson
      obtain ⟨part, hpart, hwritten⟩ := Option.bind_eq_some_iff.mp hjson
      rw [hpart, Option.map_some, Option.getD_some]
      exact written_value helement hwritten

theorem written_members {members : List (Bytes × TypeCodec)} {parts : List (Bytes × Value)}
    {object result : JsonObject} (hregistered : RegisteredMembers members)
    (hdistinct : (members.map Prod.fst).Nodup)
    (hfresh : ∀ name ∈ members.map Prod.fst, name ∉ object.map Prod.fst)
    (h : writtenMembers members parts object = some result) :
    ∃ more, result = object ++ more ∧ CleanMembers more ∧
      membersDepth more = membersNesting members parts := by
  match members with
  | [] =>
      cases h
      exact ⟨[], (List.append_nil _).symm, trivial, rfl⟩
  | (name, codec) :: rest =>
      rw [writtenMembers] at h
      obtain ⟨hvalid, h⟩ := Option.ite_none_right_eq_some.mp h
      obtain ⟨part, hpart, h⟩ := Option.bind_eq_some_iff.mp h
      obtain ⟨value, hvalue, h⟩ := Option.bind_eq_some_iff.mp h
      obtain ⟨-, -, hcodec, hothers⟩ := hregistered
      obtain ⟨hname, hrest⟩ := List.nodup_cons.mp hdistinct
      obtain ⟨hclean, hdepth⟩ := written_value hcodec hvalue
      rw [emplace_fresh (hfresh name (by simp))] at h
      obtain ⟨more, rfl, hmore, hlevels⟩ := written_members hothers hrest
        (fresh_of_append hname fun other hother => hfresh other (List.mem_cons_of_mem _ hother)) h
      refine ⟨(name, value) :: more, by simp, ⟨hvalid, hclean, hmore⟩, ?_⟩
      rw [membersDepth, hdepth, hlevels, membersNesting, hpart]

end

/-! ## The depth of what is read -/

theorem depth_le_itemsDepth {items : List Json} {item : Json} (hitem : item ∈ items) :
    item.depth ≤ itemsDepth items := by
  induction items with
  | nil => cases hitem
  | cons first rest ih =>
      rw [itemsDepth]
      rcases List.mem_cons.mp hitem with rfl | hrest
      · exact Nat.le_max_left _ _
      · exact (ih hrest).trans (Nat.le_max_right _ _)

theorem depth_memberValue_le (object : JsonObject) (name : Bytes) :
    (memberValue object name).depth ≤ membersDepth object := by
  unfold memberValue JsonObject.find?
  induction object with
  | nil => exact Nat.zero_le _
  | cons member rest ih =>
      obtain ⟨key, value⟩ := member
      rw [membersDepth, List.lookup_cons]
      split
      · exact Nat.le_max_left _ _
      · exact ih.trans (Nat.le_max_right _ _)

theorem deepest_le {α : Type} {inputs : List α} {nesting : α → Nat} {bound : Nat}
    (h : ∀ input ∈ inputs, nesting input ≤ bound) : deepest (inputs.map nesting) ≤ bound := by
  induction inputs with
  | nil => exact Nat.zero_le _
  | cons input rest ih =>
      obtain ⟨hfirst, hrest⟩ := List.forall_mem_cons.mp h
      exact Nat.max_le.mpr ⟨hfirst, ih hrest⟩

/-- A scope is entered for each container, and for one value of another kind. -/
theorem decodeNesting_le (code : Code) (json : Json) : decodeNesting code json ≤ json.depth + 1 := by
  have hitems : ∀ {element : Code} {items : List Json},
      (∀ item, decodeNesting element item ≤ item.depth + 1) →
      deepest (items.map (decodeNesting element)) ≤ itemsDepth items + 1 := by
    intro element items helement
    apply deepest_le
    intro item hitem
    exact (helement item).trans (Nat.succ_le_succ (depth_le_itemsDepth hitem))
  induction code generalizing json with
  | vector element ih =>
      cases json with
      | array items => exact Nat.succ_le_succ (hitems ih)
      | _ => simp [decodeNesting]
  | array element size ih =>
      cases json with
      | array items =>
          rw [decodeNesting]
          split
          · exact Nat.succ_le_succ (hitems ih)
          · exact Nat.succ_le_succ (Nat.zero_le _)
      | _ => simp [decodeNesting]
  | _ => cases json <;> simp [decodeNesting]

mutual

theorem readNesting_le (codec : TypeCodec) (json : Json) :
    readNesting codec json ≤ json.depth + 1 := by
  match codec with
  | .typed code =>
      rw [readNesting]
      exact decodeNesting_le code json
  | .record type members =>
      cases json with
      | object object =>
          rw [readNesting, Json.depth]
          split
          · exact Nat.succ_le_succ (readMembersNesting_le members object)
          · omega
      | _ => simp [readNesting]
  | .sequence type length element =>
      cases json with
      | array items =>
          rw [readNesting, Json.depth]
          split
          · apply Nat.succ_le_succ
            apply deepest_le
            intro item hitem
            exact (readNesting_le element item).trans (Nat.succ_le_succ (depth_le_itemsDepth hitem))
          · omega
      | _ => simp [readNesting]

theorem readMembersNesting_le (members : List (Bytes × TypeCodec)) (object : JsonObject) :
    readMembersNesting members object ≤ membersDepth object + 1 := by
  match members with
  | [] => exact Nat.zero_le _
  | (name, codec) :: rest =>
      rw [readMembersNesting]
      apply Nat.max_le.mpr
      refine ⟨?_, readMembersNesting_le rest object⟩
      exact (readNesting_le codec _).trans (Nat.succ_le_succ (depth_memberValue_le object name))

end

theorem argumentsNesting_le (codecs : List TypeCodec) (arguments : List Json) :
    argumentsNesting codecs arguments ≤ itemsDepth arguments + 1 := by
  unfold argumentsNesting
  apply deepest_le
  intro input hinput
  have hargument : input.2 ∈ arguments := (List.of_mem_zip hinput).2
  exact (readNesting_le input.1 input.2).trans (Nat.succ_le_succ (depth_le_itemsDepth hargument))

/-! ## The counters agree -/

/-- The conversions of a type leave the depth of their context alone. -/
structure KeepsDepth (codec : TypeCodec) : Prop where
  toJson : ∀ value result (context : CodecContext),
    (toJson codec value result context).context.depth = context.depth ∧
    context.depth ≤ context.limits.maxDepth
  makeDataSource : ∀ json (context : CodecContext),
    (makeDataSource codec json context).context.depth = context.depth ∧
    context.depth ≤ context.limits.maxDepth

/-- The same for the typed conversions. -/
structure KeepsTypedDepth (code : Code) : Prop where
  encode : ∀ value output (context : CodecContext),
    (encode code value output context).context.depth = context.depth ∧
    context.depth ≤ context.limits.maxDepth
  decode : ∀ json output (context : CodecContext),
    (decode code json output context).context.depth = context.depth ∧
    context.depth ≤ context.limits.maxDepth

section

variable (number : Bytes → Option Json)

/-- What is written is refused by the codec exactly when the output check refuses
it; what was parsed is never too deep to be decoded; and the depth of a context
outlives every conversion. -/
theorem depth_counters_agree :
    (∀ codec value, codec.Registered → codec.Describes value →
      ∃ json enough, Represents codec value json ∧
        ∀ limits : JsonLimits, enough ≤ limits.maxDocumentBytes → ∀ result,
          (FailsForDepth (toJson codec value result (.fresh limits)) ↔ limits.maxDepth < json.depth) ∧
          (validateOutput json limits.maxDepth = .error (some .depthLimit) ↔
            limits.maxDepth < json.depth)) ∧
    (∀ limits text, (∀ json codec, Parses number limits text (valueBody json) →
        ¬ FailsForDepth (makeDataSource codec json (.fresh limits))) ∧
      ∀ arguments codecs, Parses number limits text (argumentsBody arguments) →
        ¬ FailsForDepth (makeArguments codecs arguments (.fresh limits))) ∧
    (∀ codec, KeepsDepth codec) ∧ ∀ code, KeepsTypedDepth code := by
  refine ⟨?_, ?_, ?_, ?_⟩
  · intro codec value hregistered hvalue
    obtain ⟨json, hjson⟩ := written_of_describes hregistered hvalue
    obtain ⟨hclean, hdepth⟩ := written_value hregistered hjson
    refine ⟨json, writeCost codec value, represents_iff.mpr hjson, ?_⟩
    intro limits henough result
    have hends := toJson_ends codec value result (.fresh limits)
    rw [hjson] at hends
    have hfresh : (CodecContext.fresh limits).depth = 0 := rfl
    refine ⟨?_, ?_⟩
    · rw [hends.failsForDepth_iff henough, hdepth, hfresh, Nat.zero_add]
      rfl
    · rw [validateOutput_clean hclean]
      split
      next hdeep => simp [hdeep]
      next hfits => simp [hfits]
  · intro limits text
    have hfresh : (CodecContext.fresh limits).depth = 0 := rfl
    have hmax : (CodecContext.fresh limits).limits.maxDepth = limits.maxDepth := rfl
    refine ⟨?_, ?_⟩
    · rintro json codec hparses ⟨error, hfailed, hcode⟩
      have hdepth := hparses.depth
      simp only [valueBody, Json.depth, membersDepth] at hdepth
      have hlevels := readNesting_le codec json
      refine (makeDataSource_ends codec json (.fresh limits)).not_depthLimit ?_ hfailed hcode
      omega
    · rintro arguments codecs hparses ⟨error, hfailed, hcode⟩
      have hdepth := hparses.depth
      simp only [argumentsBody, Json.depth, membersDepth] at hdepth
      have hlevels := argumentsNesting_le codecs arguments
      refine (makeArguments_ends codecs arguments (.fresh limits)).not_depthLimit ?_ hfailed hcode
      omega
  · intro codec
    refine ⟨?_, ?_⟩
    · intro value result context
      exact ⟨(toJson_ends codec value result context).framed.depth, context.depth_le⟩
    · intro json context
      exact ⟨(makeDataSource_ends codec json context).framed.depth, context.depth_le⟩
  · intro code
    refine ⟨?_, ?_⟩
    · intro value output context
      exact ⟨(encode_ends code value output context).framed.depth, context.depth_le⟩
    · intro json output context
      exact ⟨(decode_ends code json output context).framed.depth, context.depth_le⟩

/-- A vector in a structure: two levels. -/
theorem depth_counters_agree_flags :
    ∃ json enough, Represents (.record 1 [(bytes "a", .typed (.vector .bool))])
        (.record 1 [(bytes "a", .typed (.vector .bool) [true])]) json ∧
      ∀ limits : JsonLimits, enough ≤ limits.maxDocumentBytes → ∀ result,
        (FailsForDepth (toJson (.record 1 [(bytes "a", .typed (.vector .bool))])
          (.record 1 [(bytes "a", .typed (.vector .bool) [true])]) result (.fresh limits)) ↔
          limits.maxDepth < json.depth) := by
  have hregistered : TypeCodec.Registered (.record 1 [(bytes "a", .typed (.vector .bool))]) :=
    ⟨by simp, by simp, by decide, by decide, trivial, trivial⟩
  have hvalue : TypeCodec.Describes (.record 1 [(bytes "a", .typed (.vector .bool))])
      (.record 1 [(bytes "a", .typed (.vector .bool) [true])]) :=
    ⟨rfl, ⟨_, rfl, rfl, fun _ _ => trivial⟩, trivial⟩
  obtain ⟨json, enough, hjson, hagree⟩ :=
    (depth_counters_agree fun _ => none).1 _ _ hregistered hvalue
  exact ⟨json, enough, hjson, fun limits henough result => (hagree limits henough result).1⟩

end

end RttHttp.Codec
