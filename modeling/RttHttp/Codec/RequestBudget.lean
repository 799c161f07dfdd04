import RttHttp.Codec.ResponseBudget
import RttHttp.Json.Spelling

/-! # The request budget

Decoding charges no more than the request text is long, and four bytes for every
control character that the text spells with a two-byte escape. So a body that
fits may still be refused for its size.
-/

namespace RttHttp.Codec

variable (number : Bytes → Option Json)

/-! ## Charged bytes and the JSON value -/

mutual

/-- The most that any codec charges for a JSON value. -/
def weight : Json → Nat
  | .string text => stringCost text
  | .array items => items.length + itemsWeight items
  | .object members => membersWeight members
  | _ => 0

def itemsWeight : List Json → Nat
  | [] => 0
  | item :: rest => weight item + itemsWeight rest

def membersWeight : List (Bytes × Json) → Nat
  | [] => 0
  | (_, value) :: rest => weight value + membersWeight rest

end

theorem sum_le_itemsWeight {cost : Json → Nat} {items : List Json}
    (hcost : ∀ item ∈ items, cost item ≤ weight item) : (items.map cost).sum ≤ itemsWeight items := by
  induction items with
  | nil => exact Nat.le_refl 0
  | cons item rest ih =>
      have hfirst := hcost item List.mem_cons_self
      have hrest := ih fun other hother => hcost other (List.mem_cons_of_mem _ hother)
      simp only [List.map_cons, List.sum_cons, itemsWeight]
      omega

theorem decodeCost_le_weight (code : Code) (json : Json) : decodeCost code json ≤ weight json := by
  induction code generalizing json with
  | bool => cases json <;> exact Nat.zero_le _
  | int t => cases json <;> exact Nat.zero_le _
  | float t => cases json <;> exact Nat.zero_le _
  | enum wire => cases json <;> exact Nat.zero_le _
  | string =>
      cases json with
      | string text => exact Nat.le_refl _
      | _ => exact Nat.zero_le _
  | vector element ih =>
      cases json with
      | array items => exact Nat.add_le_add_left (sum_le_itemsWeight fun item _ => ih item) _
      | _ => exact Nat.zero_le _
  | array element size ih =>
      cases json with
      | array items =>
          have hsum := sum_le_itemsWeight fun item (_ : item ∈ items) => ih item
          rw [decodeCost, weight]
          split <;> omega
      | _ => exact Nat.zero_le _

/-- Members of different names are different members. -/
theorem sum_memberValue_le {names : List Bytes} {object : JsonObject} (hdistinct : names.Nodup)
    (hnames : ∀ name ∈ names, JsonObject.contains object name = true) :
    (names.map fun name => weight (memberValue object name)).sum ≤ membersWeight object := by
  induction object generalizing names with
  | nil =>
      cases names with
      | nil => exact Nat.le_refl 0
      | cons name rest => exact absurd (hnames name List.mem_cons_self) Bool.false_ne_true
  | cons member rest ih =>
      obtain ⟨key, value⟩ := member
      have hother : ∀ name, name ≠ key →
          JsonObject.find? ((key, value) :: rest) name = JsonObject.find? rest name := by
        intro name hne
        have hbeq : (name == key) = false := by simpa using hne
        simp [JsonObject.find?, List.lookup_cons, hbeq]
      -- The names that are left when the first member is taken away.
      have hrest := ih (hdistinct.erase key) fun name hname => by
        have hmem := hnames name (List.mem_of_mem_erase hname)
        rwa [JsonObject.contains, hother name (hdistinct.mem_erase_iff.mp hname).1] at hmem
      have hsame : ((names.erase key).map fun name => weight (memberValue rest name)).sum =
          ((names.erase key).map fun name =>
            weight (memberValue ((key, value) :: rest) name)).sum := by
        refine congrArg List.sum (List.map_congr_left fun name hname => ?_)
        rw [memberValue, memberValue, hother name (hdistinct.mem_erase_iff.mp hname).1]
      rw [membersWeight]
      by_cases hkey : key ∈ names
      · have hperm := ((List.perm_cons_erase hkey).map fun name =>
          weight (memberValue ((key, value) :: rest) name)).sum_nat
        have hvalue : memberValue ((key, value) :: rest) key = value := by
          simp [memberValue, JsonObject.find?]
        rw [List.map_cons, List.sum_cons, hvalue] at hperm
        omega
      · rw [List.erase_of_not_mem hkey] at hsame hrest
        omega

mutual

theorem readCost_le_weight {codec : TypeCodec} (hregistered : codec.Registered) (json : Json) :
    readCost codec json ≤ weight json := by
  match codec with
  | .typed code =>
      rw [readCost]
      exact decodeCost_le_weight code json
  | .record type members =>
      cases json with
      | object object =>
          rw [readCost, weight]
          split
          next hmembers =>
            refine Nat.le_trans (readMembersCost_le hregistered.2.2 object) ?_
            refine sum_memberValue_le hregistered.2.1 fun name hname => ?_
            obtain ⟨member, hmember, rfl⟩ := List.mem_map.mp hname
            exact hmembers.2 member hmember
          next => exact Nat.zero_le _
      | _ => exact Nat.zero_le _
  | .sequence type length element =>
      cases json with
      | array items =>
          have helement : element.Registered := hregistered
          have hsum : (items.map fun item => readCost element item).sum ≤ itemsWeight items :=
            sum_le_itemsWeight fun item _ => readCost_le_weight helement item
          rw [readCost, weight]
          split <;> omega
      | _ => exact Nat.zero_le _

theorem readMembersCost_le {members : List (Bytes × TypeCodec)}
    (hregistered : RegisteredMembers members) (object : JsonObject) :
    readMembersCost members object ≤
      ((members.map Prod.fst).map fun name => weight (memberValue object name)).sum := by
  match members with
  | [] => exact Nat.le_refl 0
  | (name, codec) :: rest =>
      obtain ⟨-, -, hcodec, hothers⟩ := hregistered
      rw [readMembersCost, List.map_cons, List.map_cons, List.sum_cons]
      exact Nat.add_le_add (readCost_le_weight hcodec (memberValue object name))
        (readMembersCost_le hothers object)

end

/-! ## The JSON value and its text -/

theorem byteCost_le (c : UInt8) : byteCost c ≤ 6 := by
  unfold byteCost
  split
  · omega
  · split <;> omega

theorem byteCost_ofNat {n : Nat} (hlow : 0x80 ≤ n) (hhigh : n < 0x100) :
    byteCost (UInt8.ofNat n) = 1 := by
  have hbyte : (UInt8.ofNat n).toNat = n := by simp; omega
  have hplain : ∀ c : UInt8, 0x80 ≤ c.toNat → byteCost c = 1 :=
    forall_byte (p := fun c => 0x80 ≤ c.toNat → byteCost c = 1) (by decide +kernel)
  exact hplain _ (by omega)

theorem byteCost_continuation (code shift : Nat) : byteCost (continuation code shift) = 1 := by
  have hlow := Nat.mod_lt (code / 2 ^ shift) (y := 64) (by omega)
  exact byteCost_ofNat (by omega) (by omega)

/-- A code point of the basic plane costs no more than its escape. -/
theorem cost_utf8Encode_le {code : Nat} (hcode : code < 0x10000) :
    ((utf8Encode code).map byteCost).sum ≤ 6 := by
  unfold utf8Encode
  split
  · simpa using byteCost_le _
  · split
    · simp only [List.map_cons, List.map_nil, List.sum_cons, List.sum_nil, byteCost_continuation]
      rw [byteCost_ofNat (by omega) (by omega)]
      omega
    · simp only [List.map_cons, List.map_nil, List.sum_cons, List.sum_nil, byteCost_continuation]
      rw [byteCost_ofNat (by omega) (by omega)]
      omega

theorem cost_utf8Encode_pair_le (code : Nat) : ((utf8Encode code).map byteCost).sum ≤ 12 := by
  by_cases hcode : code < 0x10000
  · exact Nat.le_trans (cost_utf8Encode_le hcode) (by omega)
  · have hlead := byteCost_le (UInt8.ofNat (0xf0 + code / 2 ^ 18))
    rw [utf8Encode, if_neg (by omega), if_neg (by omega), if_neg hcode]
    simp only [List.map_cons, List.map_nil, List.sum_cons, List.sum_nil, byteCost_continuation]
    omega

theorem hexDigit_lt {c : UInt8} {value : Nat} (h : hexDigit c = some value) : value < 16 := by
  have hall : ∀ c : UInt8, (hexDigit c).all (fun value => value < 16) = true :=
    forall_byte (p := fun c => (hexDigit c).all (fun value => value < 16) = true)
      (by decide +kernel)
  simpa [h] using hall c

theorem hexUnit_lt {a b c d : UInt8} {code : Nat} (h : hexUnit a b c d = some code) :
    code < 0x10000 := by
  simp only [hexUnit, Option.bind_eq_bind, Option.bind_eq_some_iff, Option.pure_def,
    Option.some.injEq] at h
  obtain ⟨first, ha, second, hb, third, hc, fourth, hd, rfl⟩ := h
  have hfirst := hexDigit_lt ha
  have hsecond := hexDigit_lt hb
  have hthird := hexDigit_lt hc
  have hfourth := hexDigit_lt hd
  omega

theorem byteCost_escape {letter c : UInt8} (h : escapeLetter letter = some c) :
    byteCost c ≤ 2 + 4 * if (shortEscape c).isSome then 1 else 0 := by
  have hall : ∀ letter : UInt8, (escapeLetter letter).all (fun c =>
      byteCost c ≤ 2 + 4 * if (shortEscape c).isSome then 1 else 0) = true :=
    forall_byte (p := fun letter => (escapeLetter letter).all (fun c =>
      byteCost c ≤ 2 + 4 * if (shortEscape c).isSome then 1 else 0) = true) (by decide +kernel)
  simpa [h] using hall letter

/-- The characters of a string cost no more than their text and the overcharge. -/
theorem cost_chars_le {text decoded : Bytes} {short : Nat} (h : SpellsChars text decoded short) :
    (decoded.map byteCost).sum ≤ text.length + 4 * short := by
  induction h with
  | nil => exact Nat.le_refl 0
  | @plain c text decoded short hc hrest ih =>
      have hone : byteCost c = 1 := by
        rw [byteCost, if_neg (by simp [hc.2]), if_neg (by simpa using hc.1)]
      rw [List.map_cons, List.sum_cons, List.length_cons, hone]
      omega
  | escape hletter hrest ih =>
      have hcost := byteCost_escape hletter
      simp only [List.map_cons, List.sum_cons, List.length_cons]
      omega
  | unicode hunit hcode hrest ih =>
      have hcost := cost_utf8Encode_le (hexUnit_lt hunit)
      simp only [List.map_append, List.sum_append, List.length_cons]
      omega
  | @surrogates _ _ _ _ _ _ _ _ high low text decoded short hhigh hlow hrange hrest ih =>
      have hcost := cost_utf8Encode_pair_le (0x10000 + (high - 0xd800) * 0x400 + (low - 0xdc00))
      simp only [List.map_append, List.sum_append, List.length_cons]
      omega

theorem stringCost_le {text decoded : Bytes} {short : Nat} (h : SpellsString decoded text short) :
    stringCost decoded ≤ text.length + 4 * short := by
  obtain ⟨inside, hinside, rfl⟩ := h
  have hcost := cost_chars_le hinside
  rw [stringCost, List.length_cons, List.length_append, List.length_singleton]
  omega

mutual

/-- A value weighs no more than its text and the overcharge. -/
theorem weight_le {json : Json} {text : Bytes} {short : Nat} (h : Spells number json text short) :
    weight json ≤ text.length + 4 * short := by
  match json with
  | .string decoded => exact stringCost_le h
  | .array items =>
      obtain ⟨inside, hinside, rfl⟩ := h
      have hitems := itemsWeight_le hinside
      rw [weight, List.length_cons, List.length_append, List.length_singleton]
      omega
  | .object members =>
      obtain ⟨inside, hinside, rfl⟩ := h
      have hmembers := membersWeight_le hinside
      rw [weight, List.length_cons, List.length_append, List.length_singleton]
      omega
  | .null => exact Nat.zero_le _
  | .bool _ => exact Nat.zero_le _
  | .int64 _ => exact Nat.zero_le _
  | .uint64 _ => exact Nat.zero_le _
  | .double _ => exact Nat.zero_le _

theorem itemsWeight_le {items : List Json} {text : Bytes} {short : Nat}
    (h : SpellsItems number items text short) :
    items.length + itemsWeight items ≤ text.length + 1 + 4 * short := by
  match items with
  | [] => exact Nat.zero_le _
  | item :: rest =>
      obtain ⟨first, one, hpadded, hrest⟩ := h
      obtain ⟨inside, hinside, hlength⟩ := hpadded.le_length
      have hitem := weight_le hinside
      rw [List.length_cons, itemsWeight]
      split at hrest
      next hempty =>
        obtain ⟨rfl, rfl⟩ := hrest
        obtain rfl := List.isEmpty_iff.mp hempty
        simp only [List.length_nil, itemsWeight]
        omega
      next =>
        obtain ⟨others, more, hothers, rfl, rfl⟩ := hrest
        have hmore := itemsWeight_le hothers
        rw [List.length_append, List.length_cons]
        omega

theorem membersWeight_le {members : List (Bytes × Json)} {text : Bytes} {short : Nat}
    (h : SpellsMembers number members text short) :
    membersWeight members ≤ text.length + 4 * short := by
  match members with
  | [] => exact Nat.zero_le _
  | (name, value) :: rest =>
      obtain ⟨key, first, inName, one, -, hpadded, hrest⟩ := h
      obtain ⟨inside, hinside, hlength⟩ := hpadded.le_length
      have hvalue := weight_le hinside
      rw [membersWeight]
      split at hrest
      next hempty =>
        obtain ⟨rfl, rfl⟩ := hrest
        obtain rfl := List.isEmpty_iff.mp hempty
        rw [membersWeight, List.length_append, List.length_cons]
        omega
      next =>
        obtain ⟨others, more, hothers, rfl, rfl⟩ := hrest
        have hmore := membersWeight_le hothers
        rw [List.length_append, List.length_append, List.length_cons, List.length_cons]
        omega

end

/-! ## Exactly when a request overflows its budget -/

/-- The value of a document with one member weighs no more than the document. -/
theorem weight_le_document {name text : Bytes} {json : Json} {short : Nat}
    (h : SpellsDocument number (.object [(name, json)]) text short) :
    weight json ≤ text.length + 4 * short := by
  obtain ⟨inside, hinside, hlength⟩ := Padded.le_length h
  have hweight := weight_le number hinside
  simp only [weight, membersWeight] at hweight
  omega

theorem argumentsCost_le {codecs : List TypeCodec} (hregistered : ∀ codec ∈ codecs, codec.Registered)
    (arguments : List Json) : argumentsCost codecs arguments ≤ weight (.array arguments) := by
  have hitems : argumentsCost codecs arguments ≤ itemsWeight arguments := by
    induction codecs generalizing arguments with
    | nil => exact Nat.zero_le _
    | cons codec rest ih =>
        cases arguments with
        | nil => exact Nat.zero_le _
        | cons argument others =>
            have hfirst := readCost_le_weight (hregistered codec List.mem_cons_self) argument
            have hrest := ih (fun other hother => hregistered other (List.mem_cons_of_mem _ hother))
              others
            simp only [argumentsCost, List.zip_cons_cons, List.map_cons, List.sum_cons,
              itemsWeight] at hrest ⊢
            omega
  rw [weight]
  omega

/-- A conversion that succeeds with some byte budget succeeds with the given one. -/
def NeverOverflows {α : Type} (convert : CodecContext → Result α) (limits : JsonLimits) : Prop :=
  (∃ bytes, (convert (.fresh { limits with maxDocumentBytes := bytes })).status = .converted) →
    (convert (.fresh limits)).status = .converted

/-- The value has no type-correct reading within the depth limit, or its charge fits. -/
def ChargeFits {α : Type} (value : Option α) (cost nesting : Nat) (limits : JsonLimits) : Prop :=
  value = none ∨ limits.maxDepth < nesting ∨ cost ≤ limits.maxDocumentBytes

theorem neverOverflows_iff {α : Type} {convert : CodecContext → Result α} {output : α}
    {value : Option α} {cost nesting : Nat} {limits : JsonLimits}
    (hends : ∀ context, Ends context output value cost nesting (convert context)) :
    NeverOverflows convert limits ↔ ChargeFits value cost nesting limits := by
  have hdepth : ∀ limits, (CodecContext.fresh limits).depth = 0 := fun _ => rfl
  have hlimits : ∀ limits, (CodecContext.fresh limits).limits = limits := fun _ => rfl
  have hremaining : ∀ limits, (CodecContext.fresh limits).remaining = limits.maxDocumentBytes :=
    fun _ => rfl
  constructor
  · intro hnever
    cases hvalue : value with
    | none => exact .inl rfl
    | some found =>
        by_cases hlevels : limits.maxDepth < nesting
        · exact .inr (.inl hlevels)
        · have hroomy := hends (.fresh { limits with maxDocumentBytes := cost })
          rw [hvalue] at hroomy
          rcases hroomy.of_some with ⟨hok, -⟩ | ⟨-, hbytes⟩ | ⟨-, hdeep⟩
          · have hbytes := ((hends (.fresh limits)).of_converted (hnever ⟨cost, hok⟩)).2.1
            rw [hremaining] at hbytes
            exact .inr (.inr hbytes)
          · rw [hremaining] at hbytes
            exact absurd hbytes (Nat.lt_irrefl _)
          · rw [hdepth, hlimits, Nat.zero_add] at hdeep
            exact absurd hdeep hlevels
  · rintro hfits ⟨bytes, hok⟩
    obtain ⟨hvalue, -, hlevels⟩ := (hends _).of_converted hok
    rw [hdepth, hlimits, Nat.zero_add] at hlevels
    have hnesting : nesting ≤ limits.maxDepth := hlevels
    have hgiven := hends (.fresh limits)
    rw [hvalue] at hgiven hfits
    rcases hfits with hnone | hdeep | hbytes
    · cases hnone
    · omega
    · rcases hgiven.of_some with ⟨hstatus, -⟩ | ⟨-, hover⟩ | ⟨-, hdeep⟩
      · exact hstatus
      · rw [hremaining] at hover
        omega
      · rw [hdepth, hlimits] at hdeep
        omega

/-- A body that holds one value. -/
def valueBody (json : Json) : Json := .object [(bytes "value", json)]

/-- A body that holds the arguments of an operation. -/
def argumentsBody (arguments : List Json) : Json := .object [(bytes "arguments", .array arguments)]

/-- An accepted body passes its budget exactly when the decoder charges no more
than the limit, and what it charges is bounded by the text: a body without two-byte
escapes of control characters always passes. -/
theorem request_budget {codec : TypeCodec} {codecs : List TypeCodec}
    (hregistered : codec.Registered) (hall : ∀ codec ∈ codecs, codec.Registered)
    (limits : JsonLimits) (text : Bytes) :
    (∀ json, Parses number limits text (valueBody json) →
      (NeverOverflows (makeDataSource codec json) limits ↔
        ChargeFits (accepted codec json) (readCost codec json) (readNesting codec json) limits) ∧
      ∀ short, SpellsDocument number (valueBody json) text short →
        readCost codec json ≤ text.length + 4 * short) ∧
    (∀ arguments, Parses number limits text (argumentsBody arguments) →
      (NeverOverflows (makeArguments codecs arguments) limits ↔
        ChargeFits (acceptedArguments codecs arguments) (argumentsCost codecs arguments)
          (argumentsNesting codecs arguments) limits) ∧
      ∀ short, SpellsDocument number (argumentsBody arguments) text short →
        argumentsCost codecs arguments ≤ text.length + 4 * short) := by
  refine ⟨fun json _ => ⟨?_, fun short hspells => ?_⟩,
    fun arguments _ => ⟨?_, fun short hspells => ?_⟩⟩
  · rw [neverOverflows_iff (makeDataSource_ends codec json), ChargeFits, ChargeFits,
      Option.map_eq_none_iff]
  · exact Nat.le_trans (readCost_le_weight hregistered json) (weight_le_document number hspells)
  · exact neverOverflows_iff (makeArguments_ends codecs arguments)
  · exact Nat.le_trans (argumentsCost_le hall arguments) (weight_le_document number hspells)

/-- `{"value":"\n\n\n"}`, with each newline as a two-byte escape. -/
def newlinesText : Bytes := bytes "\x7b\"value\":\"\\n\\n\\n\"\x7d"

def newlines : Json := .string [0x0a, 0x0a, 0x0a]

theorem newlinesText_parses {limits : JsonLimits} (hbytes : 18 ≤ limits.maxDocumentBytes)
    (hdepth : 1 ≤ limits.maxDepth) :
    Parses (fun _ => none) limits newlinesText (valueBody newlines) := by
  have hname : SpellsString (bytes "value") (bytes "\"value\"") 0 :=
    ⟨bytes "value", by
      repeat refine .plain (by decide) ?_
      exact .nil, rfl⟩
  have hvalue : SpellsString [0x0a, 0x0a, 0x0a] (bytes "\"\\n\\n\\n\"") 3 :=
    ⟨bytes "\\n\\n\\n", .escape rfl (.escape rfl (.escape rfl .nil)), rfl⟩
  refine ⟨hbytes, by decide, ⟨3, .bare ?_⟩, hdepth, ⟨by decide, trivial, trivial⟩⟩
  exact ⟨_, ⟨_, _, _, _, .bare hname, .bare hvalue, rfl, rfl⟩, rfl⟩

theorem request_budget_newlines :
    (TypeCodec.typed .string).Registered ∧
      Parses (fun _ => none) { maxDocumentBytes := 20 } newlinesText (valueBody newlines) ∧
      NeverOverflows (makeDataSource (.typed .string) newlines) { maxDocumentBytes := 20 } := by
  have hparses : Parses (fun _ => none) { maxDocumentBytes := 20 } newlinesText
      (valueBody newlines) := newlinesText_parses (by decide) (by decide)
  have hregistered : (TypeCodec.typed .string).Registered := trivial
  have hall : ∀ codec ∈ [TypeCodec.typed .string], codec.Registered := by
    rintro codec ⟨⟩
    · exact hregistered
    · contradiction
  obtain ⟨hvalue, -⟩ := request_budget (fun _ => none) hregistered hall
    { maxDocumentBytes := 20 } newlinesText
  exact ⟨hregistered, hparses, (hvalue newlines hparses).1.mpr (.inr (.inr (by decide)))⟩

/-- A text of 18 bytes within a limit of 18 is charged 20. -/
theorem newlines_refused :
    Parses (fun _ => none) { maxDocumentBytes := 18 } newlinesText (valueBody newlines) ∧
      ¬ NeverOverflows (makeDataSource (.typed .string) newlines) { maxDocumentBytes := 18 } := by
  refine ⟨newlinesText_parses (by decide) (by decide), fun hnever => ?_⟩
  have hok := hnever ⟨20, by decide⟩
  revert hok
  decide

end RttHttp.Codec
