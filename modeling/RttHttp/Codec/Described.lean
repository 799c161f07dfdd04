import RttHttp.Codec.Storage
import RttHttp.Schema.Conforms

/-! # Codecs and the schemas of their types

A codec whose type has the right schema reads exactly the JSON values that conform to
the type, and writes no others.
-/

namespace RttHttp.Codec

open Server (intMax)

variable {Name : Type} {schemas : Name → Schema Name → Prop} {name : Name} {json : Json}

/-- The schema of an integer type. -/
def IntType.schema (t : IntType) : Schema Name := .integer t.low t.high (t.width = .w64)

/-- The name of a type has the schema that its typed conversion goes by. -/
def Code.Described (schemas : Name → Schema Name → Prop) : Code → Name → Prop
  | .bool, name => schemas name .boolean
  | .int t, name => schemas name t.schema
  | .float t, name => schemas name (.float t)
  | .string, name => schemas name .string
  | .enum wire, name => ∃ underlying, schemas name (.enum underlying) ∧ schemas underlying wire.schema
  | .vector element, name => ∃ item, schemas name (.array item none) ∧ element.Described schemas item
  | .array element size, name =>
      ∃ item, schemas name (.array item (some size)) ∧ element.Described schemas item

mutual

/-- The name of a type has the schema that its codec goes by. -/
def TypeCodec.Described (schemas : Name → Schema Name → Prop) : TypeCodec → Name → Prop
  | .typed code, name => code.Described schemas name
  | .record _ members, name =>
      ∃ fields, schemas name (.object fields) ∧ (fields.map Prod.fst).Nodup ∧
        DescribedMembers schemas members fields
  | .sequence _ length element, name =>
      ∃ item, schemas name (.array item length) ∧ element.Described schemas item

def DescribedMembers (schemas : Name → Schema Name → Prop) :
    List (Bytes × TypeCodec) → List (Bytes × Name) → Prop
  | [], [] => True
  | (key, codec) :: rest, (field, type) :: fields =>
      key = field ∧ codec.Described schemas type ∧ DescribedMembers schemas rest fields
  | _, _ => False

end

/-- The check that a table describes a typed conversion. -/
def Code.describedIn [DecidableEq Name] (read : Name → Option (Schema Name)) : Code → Name → Bool
  | .bool, name => read name = some .boolean
  | .int t, name => read name = some t.schema
  | .float t, name => read name = some (.float t)
  | .string, name => read name = some .string
  | .enum wire, name =>
      match read name with
      | some (.enum underlying) => read underlying = some wire.schema
      | _ => false
  | .vector element, name =>
      match read name with
      | some (.array item none) => element.describedIn read item
      | _ => false
  | .array element size, name =>
      match read name with
      | some (.array item (some length)) => length = size && element.describedIn read item
      | _ => false

theorem Code.described_of_describedIn [DecidableEq Name] {read : Name → Option (Schema Name)}
    (hread : ∀ name schema, read name = some schema → schemas name schema) {code : Code} {name : Name}
    (h : code.describedIn read name = true) : code.Described schemas name := by
  induction code generalizing name with
  | bool | int | float | string => exact hread _ _ (of_decide_eq_true h)
  | enum wire =>
      unfold describedIn at h
      split at h
      next underlying hname => exact ⟨underlying, hread _ _ hname, hread _ _ (of_decide_eq_true h)⟩
      next => cases h
  | vector element ih =>
      unfold describedIn at h
      split at h
      next item hname => exact ⟨item, hread _ _ hname, ih h⟩
      next => cases h
  | array element size ih =>
      unfold describedIn at h
      split at h
      next item length hname =>
        obtain ⟨hlength, hitem⟩ := Bool.and_eq_true_iff.mp h
        obtain rfl : length = size := of_decide_eq_true hlength
        exact ⟨item, hread _ _ hname, ih hitem⟩
      next => cases h

/-! ## More schemas -/

section Mono

variable {more : Name → Schema Name → Prop}

theorem Code.Described.mono (hmore : ∀ name schema, schemas name schema → more name schema)
    {code : Code} {name : Name} (h : code.Described schemas name) : code.Described more name := by
  induction code generalizing name with
  | bool | int | float | string => exact hmore _ _ h
  | enum wire =>
      obtain ⟨underlying, hname, hwire⟩ := h
      exact ⟨underlying, hmore _ _ hname, hmore _ _ hwire⟩
  | vector element ih | array element size ih =>
      obtain ⟨item, hname, hitem⟩ := h
      exact ⟨item, hmore _ _ hname, ih hitem⟩

mutual

theorem TypeCodec.Described.mono (hmore : ∀ name schema, schemas name schema → more name schema)
    {codec : TypeCodec} {name : Name} (h : codec.Described schemas name) :
    codec.Described more name := by
  cases codec with
  | typed code => exact Code.Described.mono hmore h
  | record type members =>
      obtain ⟨fields, hname, hdistinct, hmembers⟩ := h
      exact ⟨fields, hmore _ _ hname, hdistinct, DescribedMembers.mono hmore hmembers⟩
  | sequence type length element =>
      obtain ⟨item, hname, hitem⟩ := h
      exact ⟨item, hmore _ _ hname, TypeCodec.Described.mono hmore hitem⟩

theorem DescribedMembers.mono (hmore : ∀ name schema, schemas name schema → more name schema)
    {members : List (Bytes × TypeCodec)} {fields : List (Bytes × Name)}
    (h : DescribedMembers schemas members fields) : DescribedMembers more members fields := by
  match members, fields with
  | [], [] => trivial
  | (key, codec) :: rest, (field, type) :: fields =>
      obtain ⟨hkey, hcodec, hrest⟩ := h
      exact ⟨hkey, TypeCodec.Described.mono hmore hcodec, DescribedMembers.mono hmore hrest⟩
  | [], _ :: _ => cases h
  | _ :: _, [] => cases h

end

end Mono

/-! ## Scalars -/

theorem admits_intNumber_iff {t : IntType} :
    (t.schema : Schema Name).Admits schemas json ↔ (intNumber t json).isSome := by
  rw [Option.isSome_iff_exists]
  unfold IntType.schema intNumber
  by_cases hwide : t.width = .w64
  · simp only [hwide, decide_true, if_true, wideNumber_eq_some]
    exact Iff.rfl
  · simp only [hwide, decide_false, if_false, narrowNumber_eq_some]
    exact Iff.rfl

/-- Numbers of 64-bit integers are far within the range of both floating-point types. -/
theorem FloatType.le_largest (t : FloatType) : 2 ^ (64 + Format.binary64.places) ≤
    (Finite.widen t.includes (.largest t.format)).units := by
  cases t <;> decide +kernel

theorem isSome_castInRange_ofInt {t : FloatType} {value : Int} (hvalue : value.natAbs ≤ 2 ^ 64) :
    (castInRange t (Format.binary64.ofInt value)).isSome := by
  obtain ⟨number, hnumber, hunits⟩ :=
    Format.ofInt_of_le hvalue (t.le_largest.trans (Finite.bounded _))
  rw [hnumber, castInRange, FloatType.exceeds_eq_false_iff.mpr (hunits.trans t.le_largest)]
  rfl

theorem isSome_floatNumber_string {t : FloatType} {text : Bytes} :
    (floatNumber t (.string text)).isSome ↔ text ∈ nonFiniteTexts := by
  rw [floatNumber, nonFiniteTexts, List.mem_cons, List.mem_cons, List.mem_singleton]
  split
  next htext => exact iff_of_true rfl (.inl htext)
  next hnan =>
    split
    next htext => exact iff_of_true rfl (.inr (.inl htext))
    next hinfinite =>
      split
      next htext => exact iff_of_true rfl (.inr (.inr htext))
      next hnegative => simp [hnan, hinfinite, hnegative]

theorem admits_float_iff {t : FloatType} :
    (Schema.float t : Schema Name).Admits schemas json ↔ (floatNumber t json).isSome := by
  cases json with
  | string text =>
      simp [Schema.Admits, Json.Fits, isSome_floatNumber_string]
  | int64 value =>
      have hlow := value.le_toInt
      have hhigh := value.toInt_lt
      rw [floatNumber_of_staged t (.int64 value) nofun rfl]
      exact iff_of_true (.inl trivial) (isSome_castInRange_ofInt (by omega))
  | uint64 value =>
      have hhigh := value.toNat_lt
      rw [floatNumber_of_staged t (.uint64 value) nofun rfl]
      exact iff_of_true (.inl trivial) (isSome_castInRange_ofInt (by omega))
  | double value =>
      cases value with
      | finite number =>
          cases hexceeds : t.exceeds number <;>
            simp [Schema.Admits, Json.Fits, floatNumber, stagedDouble, castInRange, hexceeds]
      | _ => simp [Schema.Admits, Json.Fits, floatNumber, stagedDouble, castInRange]
  | _ => simp [Schema.Admits, Json.Fits, floatNumber, stagedDouble]

theorem isSome_mapM_iff {α β : Type} {convert : α → Option β} {items : List α} :
    (items.mapM convert).isSome ↔ ∀ item ∈ items, (convert item).isSome := by
  induction items with
  | nil => simp
  | cons item rest ih =>
      rw [List.mapM_cons, List.forall_mem_cons, ← ih]
      cases convert item <;> cases rest.mapM convert <;> simp

/-! ## Reading -/

theorem short_memberValue {limit : Nat} {object : JsonObject}
    (h : Json.Short limit (.object object)) (key : Bytes) :
    Json.Short limit (memberValue object key) := by
  unfold memberValue
  cases hfound : JsonObject.find? object key with
  | some value => exact h.member hfound
  | none =>
      intro items hinside
      cases hinside

theorem DescribedMembers.names {members : List (Bytes × TypeCodec)} {fields : List (Bytes × Name)}
    (h : DescribedMembers schemas members fields) : members.map Prod.fst = fields.map Prod.fst := by
  induction members generalizing fields with
  | nil =>
      cases fields with
      | nil => rfl
      | cons => cases h
  | cons member rest ih =>
      cases fields with
      | nil => cases h
      | cons field others => rw [List.map_cons, List.map_cons, h.1, ih h.2.2]

theorem hasMembers_described_iff {members : List (Bytes × TypeCodec)} {fields : List (Bytes × Name)}
    {object : JsonObject} (h : DescribedMembers schemas members fields) :
    HasMembers members object ↔ object.length = fields.length ∧
      ∀ field ∈ fields, JsonObject.contains object field.1 = true := by
  have hcontains : (∀ member ∈ members, JsonObject.contains object member.1 = true) ↔
      ∀ field ∈ fields, JsonObject.contains object field.1 = true := by
    rw [← List.forall_mem_map (f := Prod.fst)
        (P := fun key => JsonObject.contains object key = true),
      h.names, List.forall_mem_map]
  have hlength : members.length = fields.length := by
    simpa using congrArg List.length h.names
  rw [HasMembers, hcontains, hlength]

theorem conforms_iff (hunique : Unambiguous schemas) {schema : Schema Name} (hname : schemas name schema) :
    Conforms schemas name json ↔ schema.Admits schemas json :=
  ⟨fun h => h.admits hunique hname, fun h => .of_admits hname h⟩

/-- The typed conversions read exactly what conforms. -/
theorem decoded_described_iff (hunique : Unambiguous schemas) {code : Code} (h : code.Described schemas name) :
    (decoded code json).isSome ↔ Conforms schemas name json := by
  induction code generalizing name json with
  | bool =>
      rw [conforms_iff hunique h]
      cases json with
      | bool value => exact ⟨fun _ => ⟨value, rfl⟩, fun _ => rfl⟩
      | _ => simp [decoded, Schema.Admits]
  | int t =>
      rw [conforms_iff hunique h, admits_intNumber_iff]
      change ((intNumber t json).map t.cast).isSome ↔ _
      rw [Option.isSome_map]
  | float t =>
      rw [conforms_iff hunique h, admits_float_iff]
      exact Iff.rfl
  | string =>
      rw [conforms_iff hunique h]
      cases json with
      | string text =>
          change (if validUtf8 text then some text else none).isSome ↔ _
          simp [Schema.Admits]
      | _ => simp [decoded, Schema.Admits]
  | enum wire =>
      obtain ⟨underlying, hname, hwire⟩ := h
      rw [conforms_iff hunique hname, Schema.Admits, conforms_iff hunique hwire,
        admits_intNumber_iff]
      change ((intNumber wire json).map wire.cast).isSome ↔ _
      rw [Option.isSome_map]
  | vector element ih =>
      obtain ⟨item, hname, hitem⟩ := h
      rw [conforms_iff hunique hname]
      cases json with
      | array items =>
          have hitems : (items.mapM (decoded element)).isSome ↔
              ∀ json ∈ items, Conforms schemas item json := by
            rw [isSome_mapM_iff]
            exact forall₂_congr fun json _ => ih hitem
          change (items.mapM (decoded element)).isSome ↔ _
          rw [hitems]
          simp [Schema.Admits]
      | _ => simp [decoded, Schema.Admits]
  | array element size ih =>
      obtain ⟨item, hname, hitem⟩ := h
      rw [conforms_iff hunique hname]
      cases json with
      | array items =>
          have hitems : (items.mapM (decoded element)).isSome ↔
              ∀ json ∈ items, Conforms schemas item json := by
            rw [isSome_mapM_iff]
            exact forall₂_congr fun json _ => ih hitem
          by_cases hsize : items.length = size
          · change (if items.length = size then
                (items.mapM (decoded element)).map (fixed size element.initial) else none).isSome ↔ _
            rw [if_pos hsize, Option.isSome_map, hitems]
            simp [Schema.Admits, hsize]
          · simp [decoded, Schema.Admits, hsize]
      | _ => simp [decoded, Schema.Admits]

theorem find?_of_contains {object : JsonObject} {key : Bytes}
    (h : JsonObject.contains object key = true) :
    JsonObject.find? object key = some (memberValue object key) := by
  unfold JsonObject.contains at h
  obtain ⟨value, hvalue⟩ := Option.isSome_iff_exists.mp h
  simp [memberValue, hvalue]

mutual

/-- What a codec reads conforms. -/
theorem conforms_of_accepted (hunique : Unambiguous schemas) {codec : TypeCodec} {name : Name}
    {json : Json} (h : codec.Described schemas name) (haccepted : (accepted codec json).isSome) :
    Conforms schemas name json := by
  cases codec with
  | typed code =>
      rw [accepted, Option.isSome_map] at haccepted
      exact (decoded_described_iff hunique h).mp haccepted
  | record type members =>
      obtain ⟨fields, hname, -, hmembers⟩ := h
      cases json with
      | object object =>
          rw [accepted] at haccepted
          split at haccepted
          next hhas =>
            rw [Option.isSome_map] at haccepted
            obtain ⟨hlength, hcontains⟩ := (hasMembers_described_iff hmembers).mp hhas
            exact .object (memberValue object) hname hlength
              (fun field hfield => find?_of_contains (hcontains field hfield))
              (conforms_of_acceptedMembers hunique hmembers haccepted)
          next => cases haccepted
      | _ => simp [accepted] at haccepted
  | sequence type length element =>
      obtain ⟨item, hname, hitem⟩ := h
      cases json with
      | array items =>
          rw [accepted] at haccepted
          split at haccepted
          next hfits =>
            rw [Option.isSome_map, isSome_mapM_iff] at haccepted
            exact .array hname hfits.2 fun json hjson =>
              conforms_of_accepted hunique hitem (haccepted json hjson)
          next => cases haccepted
      | _ => simp [accepted] at haccepted

theorem conforms_of_acceptedMembers (hunique : Unambiguous schemas)
    {members : List (Bytes × TypeCodec)} {fields : List (Bytes × Name)} {object : JsonObject}
    (h : DescribedMembers schemas members fields)
    (haccepted : (acceptedMembers members object).isSome) :
    ∀ field ∈ fields, Conforms schemas field.2 (memberValue object field.1) := by
  match members, fields with
  | [], [] => simp
  | (key, codec) :: rest, (field, type) :: fields =>
      obtain ⟨rfl, hcodec, hrest⟩ := h
      obtain ⟨parts, hparts⟩ := Option.isSome_iff_exists.mp haccepted
      rw [acceptedMembers] at hparts
      obtain ⟨value, hvalue, hmore⟩ := Option.bind_eq_some_iff.mp hparts
      obtain ⟨others, hothers, -⟩ := Option.map_eq_some_iff.mp hmore
      refine List.forall_mem_cons.mpr ⟨?_, ?_⟩
      · exact conforms_of_accepted hunique hcodec (by rw [hvalue]; rfl)
      · exact conforms_of_acceptedMembers hunique hrest (by rw [hothers]; rfl)
  | [], _ :: _ => cases h
  | _ :: _, [] => cases h

end

mutual

/-- What conforms is read, as long as no array is beyond `int`. -/
theorem accepted_of_conforms (hunique : Unambiguous schemas) {codec : TypeCodec} {name : Name}
    {json : Json} (h : codec.Described schemas name) (hshort : Json.Short intMax json)
    (hconforms : Conforms schemas name json) : (accepted codec json).isSome := by
  cases codec with
  | typed code =>
      rw [accepted, Option.isSome_map]
      exact (decoded_described_iff hunique h).mpr hconforms
  | record type members =>
      obtain ⟨fields, hname, -, hmembers⟩ := h
      obtain ⟨object, rfl, hlength, hfields⟩ := hconforms.admits hunique hname
      have hfound : ∀ field ∈ fields, JsonObject.contains object field.1 = true ∧
          Conforms schemas field.2 (memberValue object field.1) := by
        intro field hfield
        obtain ⟨value, hvalue, hvalueConforms⟩ := hfields field hfield
        simp [JsonObject.contains, memberValue, hvalue, hvalueConforms]
      have hhas : HasMembers members object := (hasMembers_described_iff hmembers).mpr
        ⟨hlength, fun field hfield => (hfound field hfield).1⟩
      rw [accepted, if_pos hhas, Option.isSome_map]
      exact acceptedMembers_of_conforms hunique hmembers hshort
        fun field hfield => (hfound field hfield).2
  | sequence type length element =>
      obtain ⟨item, hname, hitem⟩ := h
      obtain ⟨items, rfl, hlength, hitems⟩ := hconforms.admits hunique hname
      have hfits : FitsLength length items.length := ⟨hshort.length, hlength⟩
      rw [accepted, if_pos hfits, Option.isSome_map, isSome_mapM_iff]
      intro json hjson
      exact accepted_of_conforms hunique hitem (hshort.item hjson) (hitems json hjson)

theorem acceptedMembers_of_conforms (hunique : Unambiguous schemas)
    {members : List (Bytes × TypeCodec)} {fields : List (Bytes × Name)} {object : JsonObject}
    (h : DescribedMembers schemas members fields) (hshort : Json.Short intMax (.object object))
    (hconforms : ∀ field ∈ fields, Conforms schemas field.2 (memberValue object field.1)) :
    (acceptedMembers members object).isSome := by
  match members, fields with
  | [], [] => rfl
  | (key, codec) :: rest, (field, type) :: fields =>
      obtain ⟨rfl, hcodec, hrest⟩ := h
      obtain ⟨hfirst, hothers⟩ := List.forall_mem_cons.mp hconforms
      have hvalue := accepted_of_conforms hunique hcodec (short_memberValue hshort key) hfirst
      have hmore := acceptedMembers_of_conforms hunique hrest hshort hothers
      obtain ⟨value, hvalue⟩ := Option.isSome_iff_exists.mp hvalue
      obtain ⟨more, hmore⟩ := Option.isSome_iff_exists.mp hmore
      simp [acceptedMembers, hvalue, hmore]
  | [], _ :: _ => cases h
  | _ :: _, [] => cases h

end

/-! ## Writing -/

theorem admits_intJson {t : IntType} (value : t.Value) :
    (t.schema : Schema Name).Admits schemas (intJson t value) := by
  rw [admits_intNumber_iff, intNumber_of_respelled value (.refl _)]
  rfl

theorem admits_floatJson {t : FloatType} (value : Binary t.format) :
    (Schema.float t : Schema Name).Admits schemas (floatJson t value) := by
  rw [admits_float_iff, floatNumber_floatJson]
  rfl

/-- The typed conversions write what conforms. -/
theorem conforms_of_encoded {code : Code} (h : code.Described schemas name) {value : code.Value}
    (hjson : encoded code value = some json) :
    Conforms schemas name json := by
  induction code generalizing name json with
  | bool =>
      cases hjson
      exact .boolean h value
  | int t =>
      cases hjson
      exact .of_admits h (admits_intJson value)
  | float t =>
      cases hjson
      exact .of_admits h (admits_floatJson value)
  | string =>
      obtain ⟨hvalid, hstring⟩ := Option.ite_none_right_eq_some.mp hjson
      cases hstring
      exact .string h hvalid
  | enum wire =>
      obtain ⟨underlying, hname, hwire⟩ := h
      cases hjson
      exact .enum hname (.of_admits hwire (admits_intJson value))
  | vector element ih =>
      obtain ⟨item, hname, hitem⟩ := h
      obtain ⟨items, hitems, rfl⟩ := Option.map_eq_some_iff.mp hjson
      refine .array hname nofun fun json hmem => ?_
      obtain ⟨element, helement, hencoded⟩ := exists_of_forall₂ (mapM_eq_some_iff.mp hitems).flip hmem
      exact ih hitem hencoded
  | array element size ih =>
      obtain ⟨item, hname, hitem⟩ := h
      obtain ⟨items, hitems, rfl⟩ := Option.map_eq_some_iff.mp hjson
      refine .array hname ?_ fun json hmem => ?_
      · rintro fixed ⟨⟩
        exact (mapM_eq_some_iff.mp hitems).length_eq.symm.trans value.2
      · obtain ⟨element, helement, hencoded⟩ :=
          exists_of_forall₂ (mapM_eq_some_iff.mp hitems).flip hmem
        exact ih hitem hencoded

mutual

/-- A codec writes what conforms. -/
theorem conforms_of_written {codec : TypeCodec} {name : Name} (h : codec.Described schemas name)
    {value : Value} {json : Json} (hjson : written codec value = some json) :
    Conforms schemas name json := by
  match codec, value with
  | .typed code, .typed found value =>
      rw [written] at hjson
      split at hjson
      · next hsame =>
        subst hsame
        exact conforms_of_encoded h hjson
      · cases hjson
  | .record type members, .record found parts =>
      obtain ⟨fields, hname, hdistinct, hmembers⟩ := h
      obtain ⟨-, hobject⟩ := Option.ite_none_right_eq_some.mp hjson
      obtain ⟨object, hwritten, rfl⟩ := Option.map_eq_some_iff.mp hobject
      obtain ⟨_, rfl, hentries⟩ :=
        writtenMembers_entries (hmembers.names ▸ hdistinct) (by simp) hwritten
      have hfields := conforms_of_wrote hmembers hentries
      have hkeys : (object.map Prod.fst).Nodup := by
        rw [names_of_wrote hentries, hmembers.names]
        exact hdistinct
      refine .of_admits hname ⟨object, rfl, hfields.length_eq, fun field hfield => ?_⟩
      obtain ⟨entry, hentry, hsame, hconforms⟩ := exists_of_forall₂ hfields.flip hfield
      refine ⟨entry.2, ?_, hconforms⟩
      rw [← hsame]
      exact (OrderedMap.lookup_eq_some_iff hkeys).mpr hentry
  | .sequence type length element, .sequence found items =>
      obtain ⟨item, hname, hitem⟩ := h
      obtain ⟨-, hlong⟩ := Option.ite_none_right_eq_some.mp hjson
      obtain ⟨hlength, hall⟩ := Option.ite_none_right_eq_some.mp hlong
      obtain ⟨array, harray, rfl⟩ := Option.map_eq_some_iff.mp hall
      rw [mapM_eq_some_iff] at harray
      refine .array hname (fun fixed hfixed => ?_) fun json hmem => ?_
      · rw [← harray.length_eq]
        exact hlength.2 fixed hfixed
      · obtain ⟨part, hpart, hwritten⟩ := exists_of_forall₂ harray.flip hmem
        obtain ⟨same, hsame, hwritten⟩ := Option.bind_eq_some_iff.mp hwritten
        obtain rfl : part = same := Option.some.inj (typedPart_eq_some hsame)
        exact conforms_of_written hitem hwritten
  | .typed _, .record _ _ | .typed _, .sequence _ _ | .record _ _, .typed _ _
  | .record _ _, .sequence _ _ | .sequence _ _ _, .typed _ _ | .sequence _ _ _, .record _ _ =>
      simp [written] at hjson

theorem conforms_of_wrote {members : List (Bytes × TypeCodec)} {fields : List (Bytes × Name)}
    (h : DescribedMembers schemas members fields) {parts : List (Bytes × Value)}
    {entries : JsonObject} (hentries : List.Forall₂ (Wrote parts) members entries) :
    List.Forall₂ (fun entry field => entry.1 = field.1 ∧ Conforms schemas field.2 entry.2)
      entries fields := by
  match members, fields, entries with
  | [], [], [] => exact .nil
  | (key, codec) :: rest, (field, type) :: fields, entry :: entries =>
      obtain ⟨rfl, hcodec, hrest⟩ := h
      obtain ⟨⟨hkey, part, hpart, hwritten⟩, hothers⟩ := List.forall₂_cons.mp hentries
      exact .cons ⟨hkey, conforms_of_written hcodec hwritten⟩ (conforms_of_wrote hrest hothers)
  | [], _ :: _, _ => cases h
  | _ :: _, [], _ => cases h
  | [], [], _ :: _ => cases hentries
  | _ :: _, _ :: _, [] => cases hentries

end

end RttHttp.Codec
