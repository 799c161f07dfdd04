import RttHttp.Codec.Measure

/-! # Round trips of the typed conversions

What is encoded is decoded to the value it came from, also when a number comes
back in another kind; what is decoded is encoded to the value it was read from,
up to the kind its numbers are held in.
-/

namespace RttHttp

/-- The integer a JSON number stands for. -/
def Json.number? : Json → Option Int
  | .int64 value => some value.toInt
  | .uint64 value => some value.toNat
  | .double value => value.toInt?
  | _ => none

/-- Equal up to the kind in which integers are held. -/
inductive Respelled : Json → Json → Prop
  | refl (json : Json) : Respelled json json
  | number {first second : Json} {value : Int} (hfirst : first.number? = some value)
      (hsecond : second.number? = some value) : Respelled first second
  | array {first second : List Json} (hitems : List.Forall₂ Respelled first second) :
      Respelled (.array first) (.array second)

theorem Respelled.array_cases {items : List Json} {other : Json}
    (h : Respelled (.array items) other) :
    ∃ others, other = .array others ∧ List.Forall₂ Respelled items others := by
  cases h with
  | refl => exact ⟨items, rfl, List.forall₂_same.mpr fun item _ => .refl item⟩
  | number hfirst => cases hfirst
  | array hitems => exact ⟨_, rfl, hitems⟩

namespace Codec

/-! ## Integers -/

theorem narrow_bounds {t : IntType} (hnarrow : t.width ≠ .w64) {value : Int} (h : t.Holds value) :
    -2 ^ 31 ≤ value ∧ value < 2 ^ 32 := by
  obtain ⟨signed, width⟩ := t
  unfold IntType.Holds IntType.low IntType.high at h
  cases width with
  | w64 => exact absurd rfl hnarrow
  | _ => cases signed <;> simp only [Width.bits] at h <;> norm_num at h ⊢ <;> omega

theorem nonneg_of_unsigned {t : IntType} (hsigned : t.signed = false) {value : Int}
    (h : t.Holds value) : 0 ≤ value := by
  have hlow := h.1
  rwa [IntType.low, hsigned] at hlow

theorem intJson_narrow {t : IntType} (hnarrow : t.width ≠ .w64) (value : t.Value) :
    intJson t value =
      if t.signed then .int64 (Int64.ofInt value.1) else .uint64 (UInt64.ofNat value.1.toNat) := by
  unfold intJson
  split
  · next hwidth => exact absurd hwidth hnarrow
  · rfl

/-- A narrow integer is written as a number of its value. -/
theorem number?_intJson {t : IntType} (hnarrow : t.width ≠ .w64) (value : t.Value) :
    (intJson t value).number? = some value.1 := by
  obtain ⟨hlow, hhigh⟩ := narrow_bounds hnarrow value.2
  rw [intJson_narrow hnarrow]
  cases hsigned : t.signed with
  | true =>
      rw [if_pos rfl, Json.number?, Int64.toInt_ofInt_of_le (by omega) (by omega)]
  | false =>
      have hnonneg := nonneg_of_unsigned hsigned value.2
      have hsize : value.1.toNat < UInt64.size := by
        rw [Int.toNat_lt hnonneg]
        exact hhigh.trans (by decide)
      rw [if_neg Bool.false_ne_true, Json.number?, UInt64.toNat_ofNat_of_lt' hsize,
        Int.toNat_of_nonneg hnonneg]

/-- A narrow integer is read from exactly the numbers of its range. -/
theorem narrowNumber_eq_some {t : IntType} {json : Json} {value : Int} :
    narrowNumber t json = some value ↔ json.number? = some value ∧ t.Holds value := by
  have hlow : t.signed = false → t.low = 0 := fun h => by rw [IntType.low, h]; rfl
  have hlow' : t.low ≤ 0 := by
    unfold IntType.low
    split
    · exact neg_nonpos.mpr (by positivity)
    · exact le_refl 0
  cases json with
  | int64 number =>
      have hzero : number < 0 ↔ number.toInt < 0 := by rw [Int64.lt_iff_toInt_lt]; rfl
      simp only [narrowNumber, Json.number?, IntType.Holds, hzero]
      cases hsigned : t.signed with
      | true => simp only [if_true]; grind
      | false => simp only [hlow hsigned]; grind
  | uint64 number =>
      simp only [narrowNumber, Json.number?, IntType.Holds]
      grind
  | double number =>
      simp only [narrowNumber, Json.number?, IntType.Holds]
      cases number.toInt? with
      | some found => grind
      | none => simp
  | _ => simp [narrowNumber, Json.number?]

/-- A wide integer is read from exactly its canonical spelling. -/
theorem wideNumber_eq_some {t : IntType} {json : Json} {value : Int} :
    wideNumber t json = some value ↔ json = .string (toChars value) ∧ t.Holds value := by
  constructor
  · intro h
    cases json with
    | string text =>
        simp only [wideNumber] at h
        split at h
        next found hread =>
          obtain ⟨hcanonical, hfound⟩ := Option.ite_none_right_eq_some.mp h
          cases hfound
          refine ⟨by rw [hcanonical], ?_⟩
          simp only [fromChars] at hread
          grind [IntType.Holds]
        next => cases h
    | _ => cases h
  · rintro ⟨rfl, hlow, hhigh⟩
    simp [wideNumber, fromChars_toChars hlow hhigh]

/-- Two spellings of one integer are equal up to the kind of number. -/
theorem respelled_of_intNumber {t : IntType} {first second : Json} {value : Int}
    (hfirst : intNumber t first = some value) (hsecond : intNumber t second = some value) :
    Respelled first second := by
  unfold intNumber at hfirst hsecond
  split at hfirst
  · rename_i hwide
    rw [if_pos hwide] at hsecond
    rw [(wideNumber_eq_some.mp hfirst).1, (wideNumber_eq_some.mp hsecond).1]
    exact .refl _
  · rename_i hnarrow
    rw [if_neg hnarrow] at hsecond
    exact .number (narrowNumber_eq_some.mp hfirst).1 (narrowNumber_eq_some.mp hsecond).1

/-- An encoded integer is read back in every spelling. -/
theorem intNumber_of_respelled {t : IntType} (value : t.Value) {json : Json}
    (h : Respelled (intJson t value) json) : intNumber t json = some value.1 := by
  unfold intNumber
  by_cases hwide : t.width = .w64
  · rw [if_pos hwide, wideNumber_eq_some]
    have hjson : intJson t value = .string (toChars value.1) := by rw [intJson, hwide]
    rw [hjson] at h
    cases h with
    | refl => exact ⟨rfl, value.2⟩
    | number hfirst => cases hfirst
  · rw [if_neg hwide, narrowNumber_eq_some]
    refine ⟨?_, value.2⟩
    have hnumber := number?_intJson hwide value
    generalize intJson t value = written at h hnumber
    cases h with
    | refl => exact hnumber
    | number hfirst hsecond => rw [hsecond, ← hfirst, hnumber]
    | array => cases hnumber

theorem intNumber_holds {t : IntType} {json : Json} {value : Int}
    (h : intNumber t json = some value) : t.Holds value := by
  unfold intNumber at h
  split at h
  · exact (wideNumber_eq_some.mp h).2
  · exact (narrowNumber_eq_some.mp h).2

theorem intNumber_of_cast {t : IntType} {value : t.Value} {json : Json}
    (h : (intNumber t json).map t.cast = some value) : intNumber t json = some value.1 := by
  obtain ⟨number, hnumber, rfl⟩ := Option.map_eq_some_iff.mp h
  rw [hnumber, IntType.cast_of_holds (intNumber_holds hnumber)]

theorem cast_intNumber {t : IntType} (value : t.Value) {json : Json}
    (h : Respelled (intJson t value) json) : (intNumber t json).map t.cast = some value := by
  rw [intNumber_of_respelled value h, Option.map_some, IntType.cast_val]

/-! ## All types -/

theorem fixed_val {α : Type} {size : Nat} (initial : α) (values : StdArray α size) :
    fixed size initial values.1 = values := by
  rw [fixed, dif_pos values.2]

theorem val_fixed {α : Type} {size : Nat} (initial : α) {items : List α}
    (hsize : items.length = size) : (fixed size initial items).1 = items := by
  rw [fixed, dif_pos hsize]

/-- The elements of an array, given that each of them is decoded to the value it encodes. -/
theorem decodedAll_of_spelled {element : Code} {spelled : Json → Json → Prop}
    (helement : ∀ (value : element.Value) (json other : Json), encoded element value = some json →
      spelled json other → decoded element other = some value ∧
        decodeNesting element other = encodeNesting element value)
    {values : List element.Value} {items others : List Json}
    (hitems : values.mapM (encoded element) = some items) (hothers : List.Forall₂ spelled items others) :
    others.mapM (decoded element) = some values ∧
      others.map (decodeNesting element) = values.map (encodeNesting element) := by
  rw [mapM_eq_some_iff] at hitems
  induction hitems generalizing others with
  | nil =>
      cases hothers
      exact ⟨rfl, rfl⟩
  | cons hfirst _ ih =>
      cases hothers with
      | cons hother hothers =>
          obtain ⟨hdecoded, hnesting⟩ := helement _ _ _ hfirst hother
          obtain ⟨hrest, hnestings⟩ := ih hothers
          rw [List.mapM_cons, hdecoded, hrest, List.map_cons, List.map_cons, hnesting, hnestings]
          exact ⟨rfl, rfl⟩

theorem FloatType.exceeds_eq_false_iff {t : FloatType} {number : Finite .binary64} :
    t.exceeds number = false ↔ number.units ≤ (Finite.widen t.includes (.largest t.format)).units := by
  rw [FloatType.exceeds, Binary.cast_finite_of_includes t.includes, Binary.less, decide_eq_false_iff_not,
    Int.not_lt, Finite.signed_of_positive rfl, Finite.signed_of_positive rfl, Int.ofNat_le]
  rfl

/-- Every number of a type is within the range of the type. -/
theorem FloatType.exceeds_widen {t : FloatType} (number : Finite t.format) :
    t.exceeds (number.widen t.includes) = false :=
  exceeds_eq_false_iff.mpr (Nat.mul_le_mul_right _ number.bounded)

theorem floatNumber_of_staged (t : FloatType) (json : Json) {value : Double}
    (hjson : ∀ text, json ≠ .string text) (h : stagedDouble json = some value) :
    floatNumber t json = castInRange t value := by
  rw [floatNumber, h, Option.bind_some]
  exact hjson

/-- A floating-point number is read back from what it is written as. -/
theorem floatNumber_floatJson (t : FloatType) (value : Binary t.format) :
    floatNumber t (floatJson t value) = some value := by
  cases value with
  | finite number =>
      rw [floatJson_finite, floatNumber_of_staged t (.double _) nofun rfl, castInRange, FloatType.exceeds_widen,
        if_neg Bool.false_ne_true, ← Binary.cast_finite_of_includes t.includes,
        Binary.cast_cast t.includes]
  | infinite negative => cases negative <;> rfl
  | nan => rfl

/-- What is encoded is decoded to the same value. -/
theorem decoded_of_encoded {code : Code} {value : code.Value} {json : Json}
    (h : encoded code value = some json) :
    decoded code json = some value ∧ decodeNesting code json = encodeNesting code value := by
  induction code generalizing json with
  | bool =>
      cases h
      exact ⟨rfl, rfl⟩
  | int t =>
      cases h
      exact ⟨cast_intNumber value (.refl _), rfl⟩
  | float t =>
      cases h
      exact ⟨floatNumber_floatJson t value, rfl⟩
  | string =>
      obtain ⟨hvalid, hstring⟩ := Option.ite_none_right_eq_some.mp h
      cases hstring
      exact ⟨if_pos hvalid, rfl⟩
  | enum wire =>
      cases h
      exact ⟨cast_intNumber value (.refl _), rfl⟩
  | vector element ih =>
      obtain ⟨items, hitems, rfl⟩ := Option.map_eq_some_iff.mp h
      obtain ⟨hdecoded, hnesting⟩ := decodedAll_of_spelled
        (fun value json other hvalue (hsame : json = other) => ih (hsame ▸ hvalue)) hitems
        (List.forall₂_same.mpr fun _ _ => rfl)
      exact ⟨hdecoded, by rw [decodeNesting, hnesting]; rfl⟩
  | array element size ih =>
      obtain ⟨items, hitems, rfl⟩ := Option.map_eq_some_iff.mp h
      obtain ⟨hdecoded, hnesting⟩ := decodedAll_of_spelled
        (fun value json other hvalue (hsame : json = other) => ih (hsame ▸ hvalue)) hitems
        (List.forall₂_same.mpr fun _ _ => rfl)
      have hsize : items.length = size :=
        (mapM_eq_some_iff.mp hdecoded).length_eq.trans value.2
      simp only [decoded, decodeNesting, if_pos hsize, hdecoded, hnesting]
      exact ⟨congrArg some (fixed_val _ value), rfl⟩

/-- The types without floating-point numbers, which are rounded when they are read. -/
def Code.Exact : Code → Prop
  | .float _ => False
  | .vector element | .array element _ => element.Exact
  | _ => True

/-- What is encoded is decoded to the same value in every spelling. -/
theorem decoded_of_respelled {code : Code} (hexact : code.Exact) {value : code.Value}
    {json other : Json} (hjson : encoded code value = some json) (hother : Respelled json other) :
    decoded code other = some value ∧ decodeNesting code other = encodeNesting code value := by
  induction code generalizing json other with
  | bool =>
      cases hjson
      cases hother with
      | refl => exact ⟨rfl, rfl⟩
      | number hfirst => cases hfirst
  | int t =>
      cases hjson
      exact ⟨cast_intNumber value hother, by cases other <;> rfl⟩
  | float t => exact hexact.elim
  | string =>
      obtain ⟨hvalid, hstring⟩ := Option.ite_none_right_eq_some.mp hjson
      cases hstring
      cases hother with
      | refl => exact ⟨if_pos hvalid, rfl⟩
      | number hfirst => cases hfirst
  | enum wire =>
      cases hjson
      exact ⟨cast_intNumber value hother, by cases other <;> rfl⟩
  | vector element ih =>
      obtain ⟨items, hitems, rfl⟩ := Option.map_eq_some_iff.mp hjson
      obtain ⟨others, rfl, hothers⟩ := hother.array_cases
      obtain ⟨hdecoded, hnesting⟩ :=
        decodedAll_of_spelled (fun value json other => ih hexact) hitems hothers
      exact ⟨hdecoded, by rw [decodeNesting, hnesting]; rfl⟩
  | array element size ih =>
      obtain ⟨items, hitems, rfl⟩ := Option.map_eq_some_iff.mp hjson
      obtain ⟨others, rfl, hothers⟩ := hother.array_cases
      obtain ⟨hdecoded, hnesting⟩ :=
        decodedAll_of_spelled (fun value json other => ih hexact) hitems hothers
      have hsize : others.length = size :=
        (mapM_eq_some_iff.mp hdecoded).length_eq.trans value.2
      simp only [decoded, decodeNesting, if_pos hsize, hdecoded, hnesting]
      exact ⟨congrArg some (fixed_val _ value), rfl⟩

theorem decoded_bool_eq_some {json : Json} {value : Bool}
    (h : decoded .bool json = some value) : json = .bool value := by
  cases json <;> cases h
  rfl

theorem decoded_string_eq_some {json : Json} {text : Bytes}
    (h : decoded .string json = some text) : json = .string text ∧ validUtf8 text = true := by
  cases json with
  | string found =>
      obtain ⟨hvalid, hfound⟩ := Option.ite_none_right_eq_some.mp h
      cases hfound
      exact ⟨rfl, hvalid⟩
  | _ => cases h

theorem decoded_vector_eq_some {element : Code} {json : Json} {values : List element.Value}
    (h : decoded (.vector element) json = some values) :
    ∃ items, json = .array items ∧ items.mapM (decoded element) = some values := by
  cases json with
  | array items => exact ⟨items, rfl, h⟩
  | _ => cases h

theorem decoded_array_eq_some {element : Code} {size : Nat} {json : Json}
    {values : StdArray element.Value size} (h : decoded (.array element size) json = some values) :
    ∃ items, json = .array items ∧ items.mapM (decoded element) = some values.1 := by
  cases json with
  | array items =>
      obtain ⟨hsize, hmap⟩ := Option.ite_none_right_eq_some.mp h
      obtain ⟨found, hfound, hfixed⟩ := Option.map_eq_some_iff.mp hmap
      have hlength := (mapM_eq_some_iff.mp hfound).length_eq.symm.trans hsize
      have hvalue : found = values.1 := by rw [← hfixed, val_fixed _ hlength]
      exact ⟨items, rfl, hvalue ▸ hfound⟩
  | _ => cases h

/-- The elements of two arrays with the same values, given that each pair differs
only in the kind of their numbers. -/
theorem respelledAll_of_decoded {element : Code}
    (helement : ∀ (value : element.Value) (first second : Json),
      decoded element first = some value → decoded element second = some value →
      Respelled first second)
    {values : List element.Value} {first second : List Json}
    (hfirst : first.mapM (decoded element) = some values)
    (hsecond : second.mapM (decoded element) = some values) :
    Respelled (.array first) (.array second) := by
  rw [mapM_eq_some_iff] at hfirst hsecond
  refine .array ?_
  induction hfirst generalizing second with
  | nil =>
      cases hsecond
      exact .nil
  | cons hone _ ih =>
      cases hsecond with
      | cons htwo hrest => exact .cons (helement _ _ _ hone htwo) (ih hrest)

/-- Two inputs with the same value differ only in the kind of their numbers. -/
theorem respelled_of_decoded {code : Code} (hexact : code.Exact) {value : code.Value}
    {first second : Json} (hfirst : decoded code first = some value) (hsecond : decoded code second = some value) :
    Respelled first second := by
  induction code generalizing first second with
  | bool =>
      rw [decoded_bool_eq_some hfirst, decoded_bool_eq_some hsecond]
      exact .refl _
  | int t => exact respelled_of_intNumber (intNumber_of_cast hfirst) (intNumber_of_cast hsecond)
  | float t => exact hexact.elim
  | string =>
      rw [(decoded_string_eq_some hfirst).1, (decoded_string_eq_some hsecond).1]
      exact .refl _
  | enum wire => exact respelled_of_intNumber (intNumber_of_cast hfirst) (intNumber_of_cast hsecond)
  | vector element ih =>
      obtain ⟨_, rfl, hone⟩ := decoded_vector_eq_some hfirst
      obtain ⟨_, rfl, htwo⟩ := decoded_vector_eq_some hsecond
      exact respelledAll_of_decoded (fun value first second => ih hexact) hone htwo
  | array element size ih =>
      obtain ⟨_, rfl, hone⟩ := decoded_array_eq_some hfirst
      obtain ⟨_, rfl, htwo⟩ := decoded_array_eq_some hsecond
      exact respelledAll_of_decoded (fun value first second => ih hexact) hone htwo

theorem encodedAll_of_decoded {element : Code}
    (helement : ∀ (value : element.Value) (json : Json), decoded element json = some value →
      ∃ written, encoded element value = some written)
    {values : List element.Value} {items : List Json}
    (hitems : items.mapM (decoded element) = some values) :
    ∃ written, values.mapM (encoded element) = some written := by
  rw [mapM_eq_some_iff] at hitems
  refine mapM_total ?_
  induction hitems with
  | nil => simp
  | cons hfirst _ ih => exact List.forall_mem_cons.mpr ⟨helement _ _ hfirst, ih⟩

/-- What was decoded can be encoded. -/
theorem encoded_of_decoded {code : Code} {value : code.Value} {json : Json}
    (h : decoded code json = some value) : ∃ written, encoded code value = some written := by
  induction code generalizing json with
  | bool => exact ⟨_, rfl⟩
  | int t => exact ⟨_, rfl⟩
  | float t => exact ⟨_, rfl⟩
  | string => exact ⟨_, if_pos (decoded_string_eq_some h).2⟩
  | enum wire => exact ⟨_, rfl⟩
  | vector element ih =>
      obtain ⟨_, rfl, hitems⟩ := decoded_vector_eq_some h
      obtain ⟨written, hwritten⟩ := encodedAll_of_decoded (fun value json => ih) hitems
      exact ⟨.array written, by simp only [encoded, hwritten]; rfl⟩
  | array element size ih =>
      obtain ⟨_, rfl, hitems⟩ := decoded_array_eq_some h
      obtain ⟨written, hwritten⟩ := encodedAll_of_decoded (fun value json => ih) hitems
      exact ⟨.array written, by simp only [encoded, hwritten]; rfl⟩

/-! ## Round trips -/

/-- The levels a context still allows. -/
def CodecContext.room (context : CodecContext) : Nat := context.limits.maxDepth - context.depth

/-- What holds of the two conversions of a type, in every context and whatever
the outputs held before. -/
structure RoundTrips (code : Code) : Prop where
  /-- An encoded value is decoded to itself from every spelling. Only the bytes
  can run out, or the levels where there are fewer than at the encoding. -/
  decode_encode : ∀ value output context, (encode code value output context).status = .converted →
    ∀ json, Respelled (encode code value output context).output json →
    ∀ other after, (decode code json other after).status = .converted ∧
        (decode code json other after).output = value ∨
      (decode code json other after).status = .failure .documentLimit ∨
      (decode code json other after).status = .failure .depthLimit ∧ after.room < context.room
  /-- A decoded value is encoded to what it was read from, up to the kind of its
  numbers, unless a limit of the encoding does not suffice. -/
  encode_decode : ∀ json output context, (decode code json output context).status = .converted →
    ∀ other after, (encode code (decode code json output context).output other after).status =
          .converted ∧
        Respelled json (encode code (decode code json output context).output other after).output ∨
      (encode code (decode code json output context).output other after).status =
        .failure .documentLimit ∨
      (encode code (decode code json output context).output other after).status =
        .failure .depthLimit
  /-- Inputs that differ in more than the kind of a number have different values. -/
  decode_injective : ∀ first second output other context after,
    (decode code first output context).status = .converted →
    (decode code second other after).status = .converted →
    (decode code first output context).output = (decode code second other after).output →
    Respelled first second
  /-- A failed decoding leaves its output alone. -/
  decode_output : ∀ json output context, (decode code json output context).status ≠ .converted →
    (decode code json output context).output = output
  /-- A failed encoding leaves its output alone. -/
  encode_output : ∀ value output context, (encode code value output context).status ≠ .converted →
    (encode code value output context).output = output

example : (decode (.int ⟨true, .w64⟩) (.string (bytes "-9223372036854775808"))
    ⟨0, by decide⟩ (.fresh {})).output.1 = -2 ^ 63 := by
  decide +kernel

end Codec

end RttHttp
