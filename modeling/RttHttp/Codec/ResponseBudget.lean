import RttHttp.Codec.ReflectedMeasure
import RttHttp.Codec.RoundTrip
import RttHttp.Json.Serialize

/-! # The response budget

Encoding charges more bytes than the serializer writes: four for every control
character with a two-byte escape, and one for every structure and every non-empty
sequence that is converted by reflection.
-/

namespace RttHttp.Codec

variable (double : Double → Bytes)

/-! ## Values with a JSON form -/

/-- All strings in a value are valid UTF-8. -/
def Code.ValidUtf8 : (code : Code) → code.Value → Prop
  | .bool => fun _ => True
  | .int _ => fun _ => True
  | .float _ => fun _ => True
  | .string => fun value : Bytes => validUtf8 value = true
  | .enum _ => fun _ => True
  | .vector element => fun values : List element.Value => ∀ value ∈ values, element.ValidUtf8 value
  | .array element size => fun values : StdArray element.Value size =>
      ∀ value ∈ values.1, element.ValidUtf8 value

mutual

/-- A value of the type of a codec, with valid UTF-8 in all its strings. -/
def TypeCodec.Describes : TypeCodec → Value → Prop
  | .typed code, .typed found value => found = code ∧ found.ValidUtf8 value
  | .record type members, .record found parts => found = type ∧ DescribesMembers members parts
  | .sequence type length element, .sequence found items =>
      found = type ∧ FitsLength length items.length ∧ ∀ item ∈ items, element.Describes item
  | _, _ => False

def DescribesMembers : List (Bytes × TypeCodec) → List (Bytes × Value) → Prop
  | [], _ => True
  | (name, codec) :: rest, parts =>
      (∃ part, parts.lookup name = some part ∧ codec.Describes part) ∧ DescribesMembers rest parts

end

mutual

/-- What registration requires of a reflected type. -/
def TypeCodec.Registered : TypeCodec → Prop
  | .typed _ => True
  | .record _ members =>
      members ≠ [] ∧ (members.map Prod.fst).Nodup ∧ RegisteredMembers members
  | .sequence _ _ element => element.Registered

def RegisteredMembers : List (Bytes × TypeCodec) → Prop
  | [] => True
  | (name, codec) :: rest =>
      name ≠ [] ∧ validUtf8 name = true ∧ codec.Registered ∧ RegisteredMembers rest

end

mutual

/-- A codec without floating-point numbers, whose text the codec does not measure. -/
def TypeCodec.Exact : TypeCodec → Prop
  | .typed code => code.Exact
  | .record _ members => ExactMembers members
  | .sequence _ _ element => element.Exact

def ExactMembers : List (Bytes × TypeCodec) → Prop
  | [] => True
  | (_, codec) :: rest => codec.Exact ∧ ExactMembers rest

end

theorem encoded_of_validUtf8 {code : Code} {value : code.Value} (h : code.ValidUtf8 value) :
    ∃ json, encoded code value = some json := by
  induction code with
  | bool => exact ⟨_, rfl⟩
  | int t => exact ⟨_, rfl⟩
  | float t => exact ⟨_, rfl⟩
  | string => exact ⟨_, if_pos h⟩
  | enum wire => exact ⟨_, rfl⟩
  | vector element ih =>
      obtain ⟨items, hitems⟩ := mapM_total fun value hvalue => ih (h value hvalue)
      exact ⟨.array items, by simp only [encoded, hitems]; rfl⟩
  | array element size ih =>
      obtain ⟨items, hitems⟩ := mapM_total fun value hvalue => ih (h value hvalue)
      exact ⟨.array items, by simp only [encoded, hitems]; rfl⟩

theorem typedPart_of_describes {codec : TypeCodec} {value : Value} (h : codec.Describes value) :
    typedPart (some value) codec.identity = some value := by
  have hidentity : value.identity = codec.identity := by
    cases codec <;> cases value <;> simp_all [TypeCodec.Describes, Value.identity, TypeCodec.identity]
  simp [typedPart, hidentity]

mutual

/-- A value of the type has a JSON form. -/
theorem written_of_describes {codec : TypeCodec} {value : Value} (hregistered : codec.Registered)
    (h : codec.Describes value) : ∃ json, written codec value = some json := by
  match codec, value with
  | .typed code, .typed found value =>
      obtain ⟨rfl, hvalid⟩ := h
      obtain ⟨json, hjson⟩ := encoded_of_validUtf8 hvalid
      exact ⟨json, by rw [written, dif_pos rfl]; exact hjson⟩
  | .record type members, .record found parts =>
      obtain ⟨rfl, hmembers⟩ := h
      obtain ⟨object, hobject⟩ := writtenMembers_of_describes hregistered.2.2 hmembers []
      exact ⟨.object object, by rw [written, if_pos rfl, hobject]; rfl⟩
  | .sequence type length element, .sequence found items =>
      obtain ⟨rfl, hlength, hitems⟩ := h
      have helement : element.Registered := hregistered
      have hall : ∀ item ∈ items, ∃ json,
          ((typedPart (some item) element.identity).bind fun item => written element item) =
            some json := by
        intro item hitem
        obtain ⟨json, hjson⟩ := written_of_describes helement (hitems item hitem)
        exact ⟨json, by rw [typedPart_of_describes (hitems item hitem), Option.bind_some, hjson]⟩
      obtain ⟨array, harray⟩ := mapM_total hall
      exact ⟨.array array, by rw [written, if_pos rfl, if_pos hlength, harray]; rfl⟩

theorem writtenMembers_of_describes {members : List (Bytes × TypeCodec)}
    {parts : List (Bytes × Value)} (hregistered : RegisteredMembers members)
    (h : DescribesMembers members parts) (object : JsonObject) :
    ∃ result, writtenMembers members parts object = some result := by
  match members with
  | [] => exact ⟨object, rfl⟩
  | (name, codec) :: rest =>
      obtain ⟨⟨part, hlookup, hpart⟩, hrest⟩ := h
      obtain ⟨-, hname, hcodec, hothers⟩ := hregistered
      obtain ⟨json, hjson⟩ := written_of_describes hcodec hpart
      obtain ⟨result, hresult⟩ :=
        writtenMembers_of_describes hothers hrest (JsonObject.emplace object name json)
      refine ⟨result, ?_⟩
      rw [writtenMembers, if_pos hname, hlookup, typedPart_of_describes hpart, Option.bind_some,
        hjson, Option.bind_some, hresult]

end

/-! ## Charged and written bytes -/

/-- The bytes charged for a typed value without floating-point numbers and not written. -/
def typedOvercharge : (code : Code) → code.Value → Nat
  | .bool => fun _ => 0
  | .int _ => fun _ => 0
  | .float _ => fun _ => 0
  | .string => fun value : Bytes => 4 * shortEscapes value
  | .enum _ => fun _ => 0
  | .vector element => fun values : List element.Value => (values.map (typedOvercharge element)).sum
  | .array element size => fun values : StdArray element.Value size =>
      (values.1.map (typedOvercharge element)).sum

mutual

/-- The bytes charged for a value and not written. -/
def overcharge : TypeCodec → Value → Nat
  | .typed _, .typed found value => typedOvercharge found value
  | .record _ members, .record _ parts => 1 + membersOvercharge members parts
  | .sequence _ _ element, .sequence _ items =>
      (if items.isEmpty then 0 else 1) + (items.map fun item => overcharge element item).sum
  | _, _ => 0

def membersOvercharge : List (Bytes × TypeCodec) → List (Bytes × Value) → Nat
  | [], _ => 0
  | (name, codec) :: rest, parts =>
      4 * shortEscapes name + ((parts.lookup name).map fun part => overcharge codec part).getD 0 +
        membersOvercharge rest parts

end

theorem byteCost_eq (c : UInt8) :
    byteCost c = (escapeByte c).length + if (shortEscape c).isSome then 4 else 0 :=
  forall_byte (p := fun c => byteCost c = (escapeByte c).length +
    if (shortEscape c).isSome then 4 else 0) (by decide +kernel) c

theorem stringCost_eq (text : Bytes) :
    stringCost text = (quoted text).length + 4 * shortEscapes text := by
  rw [stringCost, length_quoted]
  have hsum : (text.map byteCost).sum =
      (text.map fun c => (escapeByte c).length).sum + 4 * shortEscapes text := by
    induction text with
    | nil => rfl
    | cons c rest ih =>
        rw [List.map_cons, List.map_cons, List.sum_cons, List.sum_cons, ih, byteCost_eq,
          shortEscapes, shortEscapes, List.countP_cons]
        split <;> omega
  omega

/-- Digits and the minus sign are written as they are. -/
theorem length_quoted_toChars (value : Int) :
    (quoted (toChars value)).length = (toChars value).length + 2 := by
  have hplain : ∀ c ∈ toChars value, (escapeByte c).length = 1 := by
    have hdigit : ∀ c : UInt8, isDigit c = true → (escapeByte c).length = 1 :=
      forall_byte (p := fun c => isDigit c = true → (escapeByte c).length = 1) (by decide +kernel)
    intro c hc
    rcases mem_toChars hc with rfl | hc
    · decide
    · exact hdigit c hc
  rw [length_quoted, List.map_congr_left hplain]
  simp
  omega

theorem intCost_eq (t : IntType) (value : t.Value) :
    intCost t value = (serialize double (intJson t value)).length := by
  unfold intCost
  by_cases hwide : t.width = .w64
  · have hjson : intJson t value = .string (toChars value.1) := by rw [intJson, hwide]
    rw [hjson, serialize, length_quoted_toChars, if_pos hwide]
  · obtain ⟨hlow, hhigh⟩ := narrow_bounds hwide value.2
    have hnumber := number?_intJson hwide value
    rw [if_neg hwide, Nat.add_zero, intJson_narrow hwide] at *
    cases hsigned : t.signed with
    | true =>
        simp only [hsigned, if_true, Json.number?, Option.some.injEq] at hnumber ⊢
        rw [serialize, hnumber]
    | false =>
        have hnonneg := nonneg_of_unsigned hsigned value.2
        simp only [hsigned, Bool.false_eq_true, if_false, Json.number?, Option.some.injEq] at hnumber ⊢
        have habs : value.1.natAbs = (UInt64.ofNat value.1.toNat).toNat := by omega
        rw [serialize, toChars, if_neg (by omega), habs]

/-- A list of parts costs what each of them does. -/
theorem sum_cost_eq {α : Type} {values : List α} {items : List Json} {write : α → Option Json}
    {cost extra : α → Nat} (hitems : values.mapM write = some items)
    (hcost : ∀ value ∈ values, ∀ json, write value = some json →
      cost value = (serialize double json).length + extra value) :
    items.length = values.length ∧ (values.map cost).sum =
      (items.map fun item => (serialize double item).length).sum + (values.map extra).sum := by
  rw [mapM_eq_some_iff] at hitems
  induction hitems with
  | nil => exact ⟨rfl, rfl⟩
  | cons hfirst _ ih =>
      obtain ⟨hlength, hsum⟩ := ih fun value hvalue => hcost value (List.mem_cons_of_mem _ hvalue)
      have hone := hcost _ List.mem_cons_self _ hfirst
      simp only [List.length_cons, List.map_cons, List.sum_cons]
      omega

theorem length_serialize_array (items : List Json) :
    (serialize double (.array items)).length =
      2 + (items.map fun item => (serialize double item).length).sum + separators items.length := by
  rw [serialize, List.length_cons, List.length_append, length_serializeItems]
  simp only [List.length_singleton]
  omega

section Arrays

variable {α : Type} {values : List α} {items : List Json} {write : α → Option Json}
  {cost extra : α → Nat} (hitems : values.mapM write = some items)
  (hcost : ∀ value ∈ values, ∀ json, write value = some json →
    cost value = (serialize double json).length + extra value)

include hitems hcost

theorem vectorCost_eq :
    2 + ((if values.isEmpty then 0 else values.length - 1) + (values.map cost).sum) =
      (serialize double (.array items)).length + (values.map extra).sum := by
  obtain ⟨hlength, hsum⟩ := sum_cost_eq double hitems hcost
  rw [length_serialize_array, hsum, hlength, separators]
  cases values with
  | nil =>
      simp only [List.isEmpty_nil, if_true, List.length_nil]
      omega
  | cons first rest =>
      simp only [List.isEmpty_cons, Bool.false_eq_true, if_false]
      omega

theorem arrayCost_eq {size : Nat} (hsize : values.length = size) :
    (if size = 0 then 2 else size + 1) + (values.map cost).sum =
      (serialize double (.array items)).length + (values.map extra).sum := by
  obtain ⟨hlength, hsum⟩ := sum_cost_eq double hitems hcost
  rw [length_serialize_array, hsum, hlength, hsize, separators]
  split <;> omega

end Arrays

theorem encodeCost_eq {code : Code} (hexact : code.Exact) {value : code.Value} {json : Json}
    (h : encoded code value = some json) :
    encodeCost code value = (serialize double json).length + typedOvercharge code value := by
  induction code generalizing json with
  | bool =>
      cases h
      cases value <;> rfl
  | int t =>
      cases h
      exact intCost_eq double t value
  | float t => exact hexact.elim
  | string =>
      obtain ⟨-, hjson⟩ := Option.ite_none_right_eq_some.mp h
      cases hjson
      exact stringCost_eq value
  | enum wire =>
      cases h
      exact intCost_eq double wire value
  | vector element ih =>
      obtain ⟨items, hitems, rfl⟩ := Option.map_eq_some_iff.mp h
      exact vectorCost_eq double hitems fun value _ json => ih hexact
  | array element size ih =>
      obtain ⟨items, hitems, rfl⟩ := Option.map_eq_some_iff.mp h
      exact arrayCost_eq double hitems (fun value _ json => ih hexact) value.2

/-! ### Structures and sequences -/

theorem emplace_fresh {object : JsonObject} {name : Bytes} {value : Json}
    (hfresh : name ∉ object.map Prod.fst) :
    JsonObject.emplace object name value = object ++ [(name, value)] := by
  have hnone : JsonObject.contains object name = false := by
    rw [JsonObject.contains, JsonObject.find?, ← Bool.not_eq_true, List.lookup_isSome_iff]
    rintro ⟨member, hmember, hname⟩
    exact hfresh (List.mem_map.mpr ⟨member, hmember, (eq_of_beq hname).symm⟩)
  rw [JsonObject.emplace, hnone]
  rfl

/-- Names that are new next to one more member. -/
theorem fresh_of_append {names : List Bytes} {object : JsonObject} {name : Bytes} {value : Json}
    (hname : name ∉ names) (hfresh : ∀ other ∈ names, other ∉ object.map Prod.fst) :
    ∀ other ∈ names, other ∉ (object ++ [(name, value)]).map Prod.fst := by
  intro other hother
  rw [List.map_append, List.mem_append, not_or]
  refine ⟨hfresh other hother, ?_⟩
  intro hmem
  obtain rfl : other = name := by simpa using hmem
  exact hname hother

mutual

/-- The bytes charged for a value are those written and the overcharge. -/
theorem writeCost_eq {codec : TypeCodec} {value : Value} {json : Json}
    (hregistered : codec.Registered) (hexact : codec.Exact) (h : written codec value = some json) :
    writeCost codec value = (serialize double json).length + overcharge codec value := by
  match codec, value with
  | .typed code, .typed found value =>
      rw [written] at h
      split at h
      next heq =>
        subst heq
        rw [writeCost, dif_pos rfl, overcharge]
        exact encodeCost_eq double hexact h
      next => cases h
  | .record type members, .record found parts =>
      rw [written] at h
      obtain ⟨htype, hmembers⟩ := Option.ite_none_right_eq_some.mp h
      obtain ⟨object, hobject, rfl⟩ := Option.map_eq_some_iff.mp hmembers
      obtain ⟨more, hmore, hnames, hcost⟩ := membersCost_eq hregistered.2.2 hexact hregistered.2.1
        (by simp) hobject
      obtain rfl : object = more := hmore
      have hlength : object.length = members.length := by
        simpa using congrArg List.length hnames
      have hpositive := List.length_pos_of_ne_nil hregistered.1
      rw [writeCost, if_pos htype, hcost, overcharge, serialize, List.length_cons,
        List.length_append, length_serializeMembers, separators]
      simp only [List.length_singleton]
      omega
  | .sequence type length element, .sequence found items =>
      rw [written] at h
      obtain ⟨htype, h⟩ := Option.ite_none_right_eq_some.mp h
      obtain ⟨hfits, h⟩ := Option.ite_none_right_eq_some.mp h
      obtain ⟨array, harray, rfl⟩ := Option.map_eq_some_iff.mp h
      have helement : element.Registered := hregistered
      have hexactElement : element.Exact := hexact
      have hitem : ∀ item ∈ items, ∀ json,
          ((typedPart (some item) element.identity).bind fun item => written element item) =
            some json →
          ((typedPart (some item) element.identity).map fun item => writeCost element item).getD 0 =
            (serialize double json).length + overcharge element item := by
        intro item _ json hjson
        obtain ⟨part, hpart, hwritten⟩ := Option.bind_eq_some_iff.mp hjson
        obtain rfl : item = part := Option.some.inj (Option.filter_eq_some_iff.mp hpart).1
        rw [hpart, Option.map_some, Option.getD_some]
        exact writeCost_eq helement hexactElement hwritten
      obtain ⟨hlength, hsum⟩ : _ ∧ _ = _ + (items.map fun item => overcharge element item).sum :=
        sum_cost_eq double harray hitem
      rw [writeCost, if_pos htype, if_pos hfits, hsum, overcharge, length_serialize_array, hlength,
        separators]
      cases items with
      | nil =>
          simp only [List.isEmpty_nil, if_true, List.length_nil]
          omega
      | cons first rest =>
          simp only [List.isEmpty_cons, Bool.false_eq_true, if_false, List.length_cons]
          omega

theorem membersCost_eq {members : List (Bytes × TypeCodec)} {parts : List (Bytes × Value)}
    {object result : JsonObject} (hregistered : RegisteredMembers members)
    (hexact : ExactMembers members) (hdistinct : (members.map Prod.fst).Nodup)
    (hfresh : ∀ name ∈ members.map Prod.fst, name ∉ object.map Prod.fst)
    (h : writtenMembers members parts object = some result) :
    ∃ more, result = object ++ more ∧ more.map Prod.fst = members.map Prod.fst ∧
      membersCost members parts =
        (more.map (memberLength double)).sum + members.length + membersOvercharge members parts := by
  match members with
  | [] =>
      cases h
      exact ⟨[], (List.append_nil _).symm, rfl, rfl⟩
  | (name, codec) :: rest =>
      rw [writtenMembers] at h
      obtain ⟨hvalid, h⟩ := Option.ite_none_right_eq_some.mp h
      obtain ⟨part, hpart, h⟩ := Option.bind_eq_some_iff.mp h
      obtain ⟨value, hvalue, h⟩ := Option.bind_eq_some_iff.mp h
      obtain ⟨-, -, hcodec, hothers⟩ := hregistered
      obtain ⟨hname, hrest⟩ := List.nodup_cons.mp hdistinct
      have hlookup : parts.lookup name = some part := (Option.filter_eq_some_iff.mp hpart).1
      have hcost := writeCost_eq hcodec hexact.1 hvalue
      rw [emplace_fresh (hfresh name (by simp))] at h
      obtain ⟨more, rfl, hnames, hmore⟩ := membersCost_eq hothers hexact.2 hrest
        (fresh_of_append hname fun other hother => hfresh other (List.mem_cons_of_mem _ hother)) h
      refine ⟨(name, value) :: more, by simp, by simp [hnames], ?_⟩
      rw [membersCost, hpart, membersOvercharge, hlookup, stringCost_eq]
      simp only [hcost, hmore, List.map_cons, List.sum_cons, List.length_cons, Option.map_some,
        Option.getD_some, memberLength]
      omega

end

/-! ## Exactly when a response overflows its budget -/

/-- The JSON value that encoding yields when its limits suffice. -/
def Represents (codec : TypeCodec) (value : Value) (json : Json) : Prop :=
  ∃ limits, (toJson codec value .null (.fresh limits)).status = .converted ∧
    (toJson codec value .null (.fresh limits)).output = json

theorem represents_iff {codec : TypeCodec} {value : Value} {json : Json} :
    Represents codec value json ↔ written codec value = some json := by
  constructor
  · rintro ⟨limits, hstatus, rfl⟩
    exact ((toJson_ends codec value .null (.fresh limits)).of_converted hstatus).1
  · intro h
    have hends := toJson_ends codec value .null
      (.fresh ⟨writeCost codec value, writeNesting codec value⟩)
    rw [h] at hends
    rcases hends.of_some with hok | ⟨-, hbytes⟩ | ⟨-, hdepth⟩
    · exact ⟨_, hok⟩
    · exact absurd hbytes (Nat.lt_irrefl _)
    · rw [CodecContext.fresh] at hdepth
      simp at hdepth

/-- A value whose serialization fits is not refused for the size of the document. -/
def NoFalseOverflow (codec : TypeCodec) (value : Value) (json : Json) (limits : JsonLimits) : Prop :=
  (serialize double json).length ≤ limits.maxDocumentBytes →
    ∀ result, (toJson codec value result (.fresh limits)).status ≠ .failure .documentLimit

/-- The serialization is too long anyway, or leaves room for the overcharge. -/
def LeavesRoom (codec : TypeCodec) (value : Value) (json : Json) (limits : JsonLimits) : Prop :=
  limits.maxDocumentBytes < (serialize double json).length ∨
    (serialize double json).length + overcharge codec value ≤ limits.maxDocumentBytes

/-- Every registered value has a JSON form, and its response budget is right
exactly when it leaves room for the overcharge; where the levels do not suffice it
may also fail for them. -/
theorem response_budget {codec : TypeCodec} {value : Value} (hregistered : codec.Registered)
    (hexact : codec.Exact) (hvalue : codec.Describes value) :
    ∃ json, Represents codec value json ∧ ∀ limits : JsonLimits,
      (LeavesRoom double codec value json limits →
        NoFalseOverflow double codec value json limits) ∧
      (writeNesting codec value ≤ limits.maxDepth →
        NoFalseOverflow double codec value json limits →
        LeavesRoom double codec value json limits) := by
  obtain ⟨json, hjson⟩ := written_of_describes hregistered hvalue
  have hcost := writeCost_eq double hregistered hexact hjson
  refine ⟨json, represents_iff.mpr hjson, fun limits => ⟨fun hroom hfits result hstatus => ?_,
    fun hlevels hbudget => ?_⟩⟩
  · have hends := toJson_ends codec value result (.fresh limits)
    rw [hjson] at hends
    rcases hends.of_some with ⟨hok, -⟩ | ⟨-, hbytes⟩ | ⟨hdepth, -⟩
    · rw [hok] at hstatus
      cases hstatus
    · have hremaining : (CodecContext.fresh limits).remaining = limits.maxDocumentBytes := rfl
      unfold LeavesRoom at hroom
      omega
    · rw [hdepth] at hstatus
      cases hstatus
  · by_cases hfits : (serialize double json).length ≤ limits.maxDocumentBytes
    · have hends := toJson_ends codec value .null (.fresh limits)
      rw [hjson] at hends
      rcases hends.of_some with ⟨hok, -⟩ | ⟨hstatus, -⟩ | ⟨-, hdepth⟩
      · have hbytes := (toJson_ends codec value .null (.fresh limits)).of_converted hok
        have hremaining : (CodecContext.fresh limits).remaining = limits.maxDocumentBytes := rfl
        exact .inr (by omega)
      · exact absurd hstatus (hbudget hfits .null)
      · have hfresh : (CodecContext.fresh limits).depth = 0 := rfl
        have hlimits : (CodecContext.fresh limits).limits = limits := rfl
        rw [hfresh, hlimits] at hdepth
        omega
    · exact .inl (by omega)

/-- A structure with one boolean member. -/
def flagCodec : TypeCodec := .record 1 [(bytes "a", .typed .bool)]

def flagValue : Value := .record 1 [(bytes "a", .typed .bool true)]

theorem response_budget_flag :
    flagCodec.Registered ∧ flagCodec.Describes flagValue ∧
      ∃ json, Represents flagCodec flagValue json ∧
        NoFalseOverflow (fun _ => []) flagCodec flagValue json {} := by
  have hregistered : flagCodec.Registered :=
    ⟨by simp, by simp, by decide, by decide, trivial, trivial⟩
  have hvalue : flagCodec.Describes flagValue := ⟨rfl, ⟨_, rfl, rfl, trivial⟩, trivial⟩
  obtain ⟨json, hjson, hbudget⟩ := response_budget (fun _ => []) hregistered ⟨trivial, trivial⟩ hvalue
  refine ⟨hregistered, hvalue, json, hjson, (hbudget {}).1 (.inr ?_)⟩
  obtain rfl : json = .object [(bytes "a", .bool true)] := by
    have hwritten : written flagCodec flagValue = some (.object [(bytes "a", .bool true)]) := rfl
    exact Option.some.inj ((represents_iff.mp hjson).symm.trans hwritten)
  decide

/-- The ten bytes of `{"a":true}` are refused by a budget of ten. -/
theorem flag_false_overflow :
    flagCodec.Registered ∧ flagCodec.Describes flagValue ∧
      Represents flagCodec flagValue (.object [(bytes "a", .bool true)]) ∧
      ¬ NoFalseOverflow (fun _ => []) flagCodec flagValue (.object [(bytes "a", .bool true)])
        { maxDocumentBytes := 10 } := by
  refine ⟨⟨by simp, by simp, by decide, by decide, trivial, trivial⟩,
    ⟨rfl, ⟨_, rfl, rfl, trivial⟩, trivial⟩, represents_iff.mpr rfl, fun hbudget => ?_⟩
  exact hbudget (by decide) .null (by decide)

end RttHttp.Codec
