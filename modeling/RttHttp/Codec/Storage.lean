import RttHttp.Codec.ResponseBudget
import RttHttp.Machine.OrderedMap

/-! # Decoding into storage

`makeDataSource` of a `ReflectedCodec` builds a fresh value of the type, resizes a
sequence of no fixed length, and assigns every decoded part through the reference
that `getMember` gives out. RTT supplies the storage; its values are trees, in
which a reference is the place of a part. With lawful storage this decodes what
`makeDataSource` of the codec model decodes.
-/

namespace RttHttp.Codec

open Server (intMax)

/-! ## Storage -/

namespace Value

/-- `getMember(source, name)` of a structure. -/
def getMember : Value → Bytes → Option Value
  | .record _ parts, name => parts.lookup name
  | _, _ => none

/-- A part of a structure is assigned through its reference. -/
def setMember : Value → Bytes → Value → Value
  | .record type parts, name, part =>
      .record type (parts.map fun found => if found.1 = name then (name, part) else found)
  | value, _, _ => value

/-- `getMember(source, std::to_string(index))` of a sequence. -/
def getItem : Value → Nat → Option Value
  | .sequence _ items, index => items[index]?
  | _, _ => none

def setItem : Value → Nat → Value → Value
  | .sequence type items, index, part => .sequence type (items.set index part)
  | value, _, _ => value

end Value

mutual

/-- A value of the type of a codec. -/
def TypeCodec.Shapes : TypeCodec → Value → Prop
  | .typed code, .typed found _ => found = code
  | .record type members, .record found parts => found = type ∧ ShapesMembers members parts
  | .sequence type length element, .sequence found items =>
      found = type ∧ (∀ fixed, length = some fixed → items.length = fixed) ∧
        ∀ item ∈ items, element.Shapes item
  | _, _ => False

def ShapesMembers : List (Bytes × TypeCodec) → List (Bytes × Value) → Prop
  | [], [] => True
  | (name, codec) :: rest, (found, part) :: parts =>
      found = name ∧ codec.Shapes part ∧ ShapesMembers rest parts
  | _, _ => False

end

/-- A conversion that decodes what it encoded. -/
def Code.Faithful (code : Code) : Prop :=
  ∀ value json, encoded code value = some json → decoded code json = some value

theorem Code.faithful (code : Code) : code.Faithful := fun _ _ h => (decoded_of_encoded h).1

mutual

/-- The names of a structure are distinct, and the leaf codecs are faithful. -/
def TypeCodec.Lawful : TypeCodec → Prop
  | .typed code => code.Faithful
  | .record _ members => (members.map Prod.fst).Nodup ∧ LawfulMembers members
  | .sequence _ _ element => element.Lawful

def LawfulMembers : List (Bytes × TypeCodec) → Prop
  | [] => True
  | (_, codec) :: rest => codec.Lawful ∧ LawfulMembers rest

end

mutual

/-- What registration requires makes a codec lawful. -/
theorem TypeCodec.Registered.lawful {codec : TypeCodec} (h : codec.Registered) : codec.Lawful := by
  match codec with
  | .typed code => exact code.faithful
  | .record type members => exact ⟨h.2.1, RegisteredMembers.lawful h.2.2⟩
  | .sequence type length element =>
      have helement : element.Registered := h
      exact helement.lawful

theorem RegisteredMembers.lawful {members : List (Bytes × TypeCodec)} (h : RegisteredMembers members) :
    LawfulMembers members := by
  match members with
  | [] => trivial
  | (name, codec) :: rest =>
      exact ⟨TypeCodec.Registered.lawful h.2.2.1, RegisteredMembers.lawful h.2.2.2⟩

end

/-- How RTT makes values; null and `false` are `none`. -/
structure Storage where
  buildValue : TypeCodec → Option Value
  resize : TypeCodec → Value → Nat → Option Value

/-- Fresh values are of their type, and `resize` sets the length. -/
structure Storage.Lawful (storage : Storage) : Prop where
  build : ∀ codec, ∃ value, storage.buildValue codec = some value ∧ codec.Shapes value
  resize : ∀ type element value count, (TypeCodec.sequence type none element).Shapes value →
    ∃ items, storage.resize (.sequence type none element) value count =
      some (.sequence type items) ∧ items.length = count ∧ ∀ item ∈ items, element.Shapes item

/-- `assign(decoded, destination)`: both are there and have the type. -/
def assignable (type : TypeIdentity) (decoded : Value) (destination : Option Value) : Bool :=
  decoded.identity = type && destination.any fun value => value.identity = type

/-- The loop over the elements of a sequence. -/
def storeItems (make : Json → CodecContext → Result (Option Value)) (type : TypeIdentity) :
    (items : List Json) → (index : Nat) → (staged : Value) → CodecContext → Result (Option Value)
  | [], _, staged, context => ⟨.converted, some staged, context⟩
  | item :: rest, index, staged, context =>
      andThen (make item context) none fun decoded context =>
        match decoded with
        | none => silent none context
        | some decoded =>
            if assignable type decoded (staged.getItem index) then
              storeItems make type rest (index + 1) (staged.setItem index decoded) context
            else fail .invalidDataSource none context

mutual

/-- `makeDataSource` over the storage that RTT supplies. -/
def makeStored (storage : Storage) : TypeCodec → Json → CodecContext → Result (Option Value)
  | .typed code, value, context =>
      staged (decode code value code.initial context) none fun value => some (.typed code value)
  | .record type members, value, context =>
      withScope none context fun context =>
        match value with
        | .object object =>
            if object.length ≠ members.length then fail .typeMismatch none context
            else match members.find? fun member => !JsonObject.contains object member.1 with
              | some missing => ⟨.failure .typeMismatch missing.1, none, context⟩
              | none =>
                  match storage.buildValue (.record type members) with
                  | none => fail .invalidDataSource none context
                  | some staged => storeMembers storage members object staged context
        | _ => fail .typeMismatch none context
  | .sequence type length element, value, context =>
      withScope none context fun context =>
        match value with
        | .array items =>
            if length.any (· ≠ items.length) ∨ intMax < items.length then
              fail .typeMismatch none context
            else
              charged items.length none context fun context =>
                match storage.buildValue (.sequence type length element) with
                | none => fail .invalidDataSource none context
                | some fresh =>
                    match
                      if length.isSome then some fresh
                      else storage.resize (.sequence type length element) fresh items.length with
                    | none => fail .invalidDataSource none context
                    | some staged =>
                        storeItems (fun item context => makeStored storage element item context)
                          element.identity items 0 staged context
        | _ => fail .typeMismatch none context

/-- The loop over the members of a structure. -/
def storeMembers (storage : Storage) : List (Bytes × TypeCodec) → JsonObject → (staged : Value) →
    CodecContext → Result (Option Value)
  | [], _, staged, context => ⟨.converted, some staged, context⟩
  | (name, codec) :: rest, object, staged, context =>
      andThen (makeStored storage codec ((JsonObject.find? object name).getD .null) context) none
        fun decoded context =>
          match decoded with
          | none => silent none context
          | some decoded =>
              if assignable codec.identity decoded (staged.getMember name) then
                storeMembers storage rest object (staged.setMember name decoded) context
              else fail .invalidDataSource none context

end

/-! ## The storage holds what was decoded -/

section Storage

variable {storage : Storage}

theorem TypeCodec.Shapes.identity {codec : TypeCodec} {value : Value} (h : codec.Shapes value) :
    value.identity = codec.identity := by
  cases codec <;> cases value <;> simp_all [TypeCodec.Shapes, Value.identity, TypeCodec.identity]

theorem identity_of_accepted {codec : TypeCodec} {json : Json} {value : Value}
    (h : accepted codec json = some value) : value.identity = codec.identity := by
  cases codec with
  | typed code =>
      obtain ⟨_, -, rfl⟩ := Option.map_eq_some_iff.mp h
      rfl
  | record type members =>
      cases json <;> simp only [accepted, reduceCtorEq] at h
      split at h
      next =>
        obtain ⟨_, -, rfl⟩ := Option.map_eq_some_iff.mp h
        rfl
      next => cases h
  | sequence type length element =>
      cases json <;> simp only [accepted, reduceCtorEq] at h
      split at h
      next =>
        obtain ⟨_, -, rfl⟩ := Option.map_eq_some_iff.mp h
        rfl
      next => cases h

/-- A decoding that succeeds returns a value of the type. -/
theorem makeDataSource_output {codec : TypeCodec} {json : Json} {context : CodecContext}
    (h : (makeDataSource codec json context).status = .converted) :
    ∃ value, (makeDataSource codec json context).output = some value ∧
      accepted codec json = some value := by
  obtain ⟨hvalue, -, -⟩ := (makeDataSource_ends codec json context).of_converted h
  obtain ⟨value, hvalue, houtput⟩ := Option.map_eq_some_iff.mp hvalue
  exact ⟨value, houtput.symm, hvalue⟩

/-- One decoded part is either passed on or ends the loop. -/
theorem andThen_makeDataSource {α : Type} {codec : TypeCodec} {json : Json}
    {context : CodecContext} {output : α} {first second : Option Value → CodecContext → Result α}
    (h : ∀ value after, accepted codec json = some value →
      first (some value) after = second (some value) after) :
    andThen (makeDataSource codec json context) output first =
      andThen (makeDataSource codec json context) output second := by
  have houtput : (makeDataSource codec json context).status = .converted → _ :=
    makeDataSource_output
  generalize makeDataSource codec json context = result at houtput
  obtain ⟨status, part, after⟩ := result
  cases status with
  | failed error => rfl
  | converted =>
      obtain ⟨value, hpart, haccepted⟩ := houtput rfl
      simp only at hpart
      subst hpart
      exact h value after haccepted

/-- The part after those that are done is found and replaced. -/
theorem lookup_member {done fresh : List (Bytes × Value)} {name : Bytes} {part : Value}
    (hdone : name ∉ done.map Prod.fst) :
    (done ++ (name, part) :: fresh).lookup name = some part := by
  have hnone : done.lookup name = none := by
    rw [List.lookup_eq_none_iff]
    intro found hfound
    have hne : name ≠ found.1 := by
      rintro rfl
      exact hdone (List.mem_map_of_mem hfound)
    simpa using hne
  rw [List.lookup_append, hnone, Option.none_or, List.lookup_cons_self]

theorem setMember_member {type : Nat} {done fresh : List (Bytes × Value)} {name : Bytes}
    {part decoded : Value} (hdone : name ∉ done.map Prod.fst) (hfresh : name ∉ fresh.map Prod.fst) :
    (Value.record type (done ++ (name, part) :: fresh)).setMember name decoded =
      .record type (done ++ [(name, decoded)] ++ fresh) := by
  have hkeep : ∀ parts : List (Bytes × Value), name ∉ parts.map Prod.fst →
      (parts.map fun found => if found.1 = name then (name, decoded) else found) = parts := by
    intro parts hparts
    have hsame : ∀ found ∈ parts, (if found.1 = name then (name, decoded) else found) = found := by
      intro found hfound
      rw [if_neg]
      rintro rfl
      exact hparts (List.mem_map_of_mem hfound)
    rw [List.map_congr_left hsame, List.map_id']
  simp [Value.setMember, hkeep done hdone, hkeep fresh hfresh]

theorem ShapesMembers.names {members : List (Bytes × TypeCodec)} {parts : List (Bytes × Value)}
    (h : ShapesMembers members parts) : parts.map Prod.fst = members.map Prod.fst := by
  induction members generalizing parts with
  | nil =>
      cases parts with
      | nil => rfl
      | cons => exact h.elim
  | cons member rest ih =>
      cases parts with
      | nil => exact h.elim
      | cons part parts =>
          obtain ⟨hname, -, hrest⟩ := h
          rw [List.map_cons, List.map_cons, ih hrest]
          exact congrArg (· :: _) hname

theorem assignable_of_identity {type : TypeIdentity} {decoded destination : Value}
    (hdecoded : decoded.identity = type) (hdestination : destination.identity = type) :
    assignable type decoded (some destination) = true := by
  simp [assignable, hdecoded, hdestination]

/-- The elements are stored in place of the fresh ones. -/
theorem storeItems_eq {type : Nat} {element : TypeCodec} {items : List Json}
    {make : Json → CodecContext → Result (Option Value)}
    (hmake : ∀ item context, make item context = makeDataSource element item context)
    (done : List (Option Value)) {fresh : List Value} (hlength : fresh.length = items.length)
    (hfresh : ∀ item ∈ fresh, element.Shapes item) (hdone : ∀ part ∈ done, part.isSome)
    (context : CodecContext) :
    storeItems make element.identity items done.length
        (.sequence type (done.reduceOption ++ fresh)) context =
      staged (convertAll (fun item _ context => makeDataSource element item context) none items
        done context) none fun parts => some (.sequence type parts.reduceOption) := by
  induction items generalizing done fresh context with
  | nil =>
      obtain rfl := List.length_eq_zero_iff.mp hlength
      rw [List.append_nil]
      rfl
  | cons item rest ih =>
      cases fresh with
      | nil => cases hlength
      | cons part others =>
          obtain ⟨hpart, hothers⟩ := List.forall_mem_cons.mp hfresh
          have hindex : done.reduceOption.length = done.length :=
            List.reduceOption_length_eq_iff.mpr hdone
          rw [storeItems, convertAll, hmake, staged, andThen_andThen]
          refine andThen_makeDataSource fun value after haccepted => ?_
          have hget : (Value.sequence type (done.reduceOption ++ part :: others)).getItem
              done.length = some part := by
            rw [Value.getItem, ← hindex, List.getElem?_append_right (Nat.le_refl _)]
            simp
          have hset : (Value.sequence type (done.reduceOption ++ part :: others)).setItem
              done.length value = .sequence type ((done ++ [some value]).reduceOption ++ others) := by
            rw [Value.setItem, ← hindex, List.set_append_right _ _ (Nat.le_refl _),
              List.reduceOption_append]
            simp
          simp only [hget, hset,
            assignable_of_identity (identity_of_accepted haccepted) hpart.identity, if_true]
          have hmore : ∀ found ∈ done ++ [some value], found.isSome := by
            intro found hfound
            rcases List.mem_append.mp hfound with hold | hnew
            · exact hdone found hold
            · rw [List.mem_singleton.mp hnew]
              rfl
          have hrest := ih (done ++ [some value]) (Nat.succ.inj hlength) hothers hmore after
          rw [List.length_append, List.length_singleton] at hrest
          exact hrest

mutual

/-- Decoding into lawful storage is decoding. -/
theorem makeStored_eq (hstorage : storage.Lawful) {codec : TypeCodec} (hlawful : codec.Lawful)
    (json : Json) (context : CodecContext) :
    makeStored storage codec json context = makeDataSource codec json context := by
  match codec with
  | .typed code => rw [makeStored, makeDataSource]
  | .record type members =>
      rw [makeStored, makeDataSource]
      congr 1
      funext inner
      cases json with
      | object object =>
          obtain ⟨value, hbuild, hshapes⟩ := hstorage.build (.record type members)
          cases value with
          | record found parts =>
              obtain ⟨rfl, hparts⟩ := hshapes
              simp only [hbuild]
              have hstore : storeMembers storage members object (.record found parts) inner = _ :=
                storeMembers_eq hstorage hlawful.2 hlawful.1 [] hparts (by simp) object inner
              split
              · rfl
              · cases members.find? fun member => !JsonObject.contains object member.1 with
                | none => exact hstore
                | some missing => rfl
          | _ => exact hshapes.elim
      | _ => rfl
  | .sequence type length element =>
      rw [makeStored, makeDataSource]
      congr 1
      funext inner
      cases json with
      | array items =>
          simp only
          by_cases hguard : length.any (· ≠ items.length) ∨ intMax < items.length
          · rw [if_pos hguard, if_pos hguard]
          rw [if_neg hguard, if_neg hguard]
          congr 1
          funext after
          obtain ⟨value, hbuild, hshapes⟩ := hstorage.build (.sequence type length element)
          cases value with
          | sequence found fresh =>
              obtain ⟨rfl, hfixed, hfresh⟩ := hshapes
              have hmake : ∀ item context, makeStored storage element item context =
                  makeDataSource element item context := makeStored_eq hstorage hlawful
              cases length with
              | some fixed =>
                  have hlength : fresh.length = items.length := by
                    have hcount := hfixed fixed rfl
                    simp only [Option.any_some, decide_eq_true_eq, not_or, not_not] at hguard
                    omega
                  simp only [hbuild, Option.isSome_some, if_true]
                  exact storeItems_eq hmake [] hlength hfresh (by simp) after
              | none =>
                  have hshapes : (TypeCodec.sequence found none element).Shapes
                      (.sequence found fresh) := ⟨rfl, hfixed, hfresh⟩
                  obtain ⟨sized, hresize, hlength, hsized⟩ :=
                    hstorage.resize found element _ items.length hshapes
                  simp only [hbuild, Option.isSome_none, Bool.false_eq_true, if_false, hresize]
                  exact storeItems_eq hmake [] hlength hsized (by simp) after
          | _ => exact hshapes.elim
      | _ => rfl

theorem storeMembers_eq (hstorage : storage.Lawful) {type : Nat}
    {members : List (Bytes × TypeCodec)} (hlawful : LawfulMembers members)
    (hdistinct : (members.map Prod.fst).Nodup) (done : List (Bytes × Value))
    {fresh : List (Bytes × Value)} (hfresh : ShapesMembers members fresh)
    (hdone : ∀ member ∈ members, member.1 ∉ done.map Prod.fst) (object : JsonObject)
    (context : CodecContext) :
    storeMembers storage members object (.record type (done ++ fresh)) context =
      staged (makeMembers members object done context) none fun parts =>
        some (.record type parts) := by
  match members, fresh with
  | [], [] =>
      rw [List.append_nil]
      rfl
  | (name, codec) :: rest, (found, part) :: others =>
      obtain ⟨rfl, hpart, hothers⟩ := hfresh
      obtain ⟨hcodec, hrest⟩ := hlawful
      obtain ⟨hname, hnames⟩ := List.nodup_cons.mp hdistinct
      obtain ⟨hnew, hnews⟩ := List.forall_mem_cons.mp hdone
      rw [storeMembers, makeMembers, makeStored_eq hstorage hcodec, staged, andThen_andThen]
      refine andThen_makeDataSource fun value after haccepted => ?_
      have hfar : found ∉ others.map Prod.fst := by
        rw [hothers.names]
        exact hname
      have hget : (Value.record type (done ++ (found, part) :: others)).getMember found = some part :=
        lookup_member hnew
      simp only [hget, setMember_member hnew hfar,
        assignable_of_identity (identity_of_accepted haccepted) hpart.identity, if_true]
      refine storeMembers_eq hstorage hrest hnames _ hothers ?_ object after
      intro member hmember
      rw [List.map_append, List.mem_append, not_or]
      refine ⟨hnews member hmember, ?_⟩
      intro hsame
      have hequal : member.1 = found := by simpa using hsame
      have hmem : member.1 ∈ rest.map Prod.fst := List.mem_map_of_mem hmember
      rw [hequal] at hmem
      exact hname hmem

end

end Storage

/-! ## The published schema -/

mutual

/-- The JSON values that the descriptor of a type admits. -/
def TypeCodec.Matches : TypeCodec → Json → Prop
  | .typed code, json => (decoded code json).isSome
  | .record _ members, .object object =>
      (object.map Prod.fst).Perm (members.map Prod.fst) ∧ MatchesMembers members object
  | .sequence _ length element, .array items =>
      FitsLength length items.length ∧ ∀ item ∈ items, element.Matches item
  | _, _ => False

def MatchesMembers : List (Bytes × TypeCodec) → JsonObject → Prop
  | [], _ => True
  | (name, codec) :: rest, object =>
      (∃ value, (name, value) ∈ object ∧ codec.Matches value) ∧ MatchesMembers rest object

end

theorem contains_iff {object : JsonObject} {name : Bytes} :
    JsonObject.contains object name = true ↔ name ∈ object.map Prod.fst :=
  OrderedMap.isSome_lookup_iff

/-- As many members and all the names leave no room for another one. -/
theorem hasMembers_iff_perm {members : List (Bytes × TypeCodec)} {object : JsonObject}
    (hdistinct : (members.map Prod.fst).Nodup) :
    HasMembers members object ↔ (object.map Prod.fst).Perm (members.map Prod.fst) := by
  constructor
  · rintro ⟨hlength, hnames⟩
    have hsubset : members.map Prod.fst ⊆ object.map Prod.fst := by
      intro name hname
      obtain ⟨member, hmember, rfl⟩ := List.mem_map.mp hname
      exact contains_iff.mp (hnames member hmember)
    have hsubperm := List.subperm_of_subset hdistinct hsubset
    refine (hsubperm.perm_of_length_le ?_).symm
    rw [List.length_map, List.length_map, hlength]
  · intro hperm
    refine ⟨?_, fun member hmember => ?_⟩
    · simpa using hperm.length_eq
    · exact contains_iff.mpr (hperm.mem_iff.mpr (List.mem_map_of_mem hmember))

theorem memberValue_of_mem {object : JsonObject} {name : Bytes} {value : Json}
    (hkeys : (object.map Prod.fst).Nodup) (hmem : (name, value) ∈ object) :
    memberValue object name = value := by
  have hfind : JsonObject.find? object name = some value :=
    (OrderedMap.lookup_eq_some_iff hkeys).mpr hmem
  rw [memberValue, hfind, Option.getD_some]

mutual

/-- What is decoded is what the descriptor admits. -/
theorem isSome_accepted_iff {codec : TypeCodec} (hlawful : codec.Lawful) (json : Json) :
    (accepted codec json).isSome ↔ codec.Matches json := by
  match codec with
  | .typed code =>
      rw [accepted, TypeCodec.Matches, Option.isSome_map]
  | .record type members =>
      cases json with
      | object object =>
          obtain ⟨hdistinct, hmembers⟩ := hlawful
          rw [accepted, TypeCodec.Matches]
          split
          next hall =>
            have hperm := (hasMembers_iff_perm hdistinct).mp hall
            have hkeys : (object.map Prod.fst).Nodup := hperm.nodup_iff.mpr hdistinct
            rw [Option.isSome_map, isSome_acceptedMembers_iff hmembers hkeys]
            · exact ⟨fun h => ⟨hperm, h⟩, fun h => h.2⟩
            · intro member hmember
              exact hperm.mem_iff.mpr (List.mem_map_of_mem hmember)
          next hall =>
            rw [hasMembers_iff_perm hdistinct] at hall
            simp [hall]
      | _ => simp [accepted, TypeCodec.Matches]
  | .sequence type length element =>
      cases json with
      | array items =>
          have helement : element.Lawful := hlawful
          rw [accepted, TypeCodec.Matches]
          split
          next hlength =>
            rw [Option.isSome_map]
            constructor
            · intro h
              refine ⟨hlength, fun item hitem => ?_⟩
              obtain ⟨parts, hparts⟩ := Option.isSome_iff_exists.mp h
              obtain ⟨part, -, hpart⟩ := exists_of_forall₂ (mapM_eq_some_iff.mp hparts) hitem
              exact (isSome_accepted_iff helement item).mp (Option.isSome_iff_exists.mpr ⟨part, hpart⟩)
            · rintro ⟨-, hitems⟩
              refine Option.isSome_iff_exists.mpr (mapM_total fun item hitem => ?_)
              exact Option.isSome_iff_exists.mp
                ((isSome_accepted_iff helement item).mpr (hitems item hitem))
          next hlength => simp [hlength]
      | _ => simp [accepted, TypeCodec.Matches]

theorem isSome_acceptedMembers_iff {members : List (Bytes × TypeCodec)}
    (hlawful : LawfulMembers members) {object : JsonObject} (hkeys : (object.map Prod.fst).Nodup)
    (hnames : ∀ member ∈ members, member.1 ∈ object.map Prod.fst) :
    (acceptedMembers members object).isSome ↔ MatchesMembers members object := by
  match members with
  | [] => simp [acceptedMembers, MatchesMembers]
  | (name, codec) :: rest =>
      obtain ⟨hcodec, hrest⟩ := hlawful
      obtain ⟨hname, hothers⟩ := List.forall_mem_cons.mp hnames
      obtain ⟨member, hmember, rfl⟩ := List.mem_map.mp hname
      have hvalue : memberValue object member.1 = member.2 := memberValue_of_mem hkeys hmember
      have hfirst : (∃ value, (member.1, value) ∈ object ∧ codec.Matches value) ↔
          codec.Matches member.2 := by
        constructor
        · rintro ⟨value, hmem, hmatches⟩
          have hsame : value = member.2 := (memberValue_of_mem hkeys hmem).symm.trans hvalue
          rwa [hsame] at hmatches
        · intro hmatches
          exact ⟨member.2, hmember, hmatches⟩
      rw [acceptedMembers, MatchesMembers, hfirst, hvalue, Option.isSome_bind,
        ← isSome_accepted_iff hcodec, ← isSome_acceptedMembers_iff hrest hkeys hothers]
      cases accepted codec member.2 <;> simp

end

/-! ## Round trips -/

theorem typedPart_eq_some {part : Option Value} {type : TypeIdentity} {value : Value}
    (h : typedPart part type = some value) : part = some value := by
  cases part with
  | none => cases h
  | some found =>
      rw [typedPart, Option.filter_some] at h
      split at h
      next => exact h
      next => cases h

/-- A member of the object is what a member of the structure was written to. -/
def Wrote (parts : List (Bytes × Value)) (member : Bytes × TypeCodec) (entry : Bytes × Json) :
    Prop :=
  entry.1 = member.1 ∧
    ∃ part, parts.lookup member.1 = some part ∧ written member.2 part = some entry.2

/-- The members of an object are those of the structure, in their order. -/
theorem writtenMembers_entries {members : List (Bytes × TypeCodec)} {parts : List (Bytes × Value)}
    {object result : JsonObject} (hdistinct : (members.map Prod.fst).Nodup)
    (hfresh : ∀ name ∈ members.map Prod.fst, name ∉ object.map Prod.fst)
    (h : writtenMembers members parts object = some result) :
    ∃ entries, result = object ++ entries ∧ List.Forall₂ (Wrote parts) members entries := by
  induction members generalizing object with
  | nil =>
      obtain rfl := Option.some.inj h
      exact ⟨[], (List.append_nil object).symm, .nil⟩
  | cons member rest ih =>
      obtain ⟨name, codec⟩ := member
      obtain ⟨hname, hrest⟩ := List.nodup_cons.mp hdistinct
      obtain ⟨hnew, hnews⟩ := List.forall_mem_cons.mp hfresh
      rw [writtenMembers] at h
      split at h
      next =>
        obtain ⟨part, hpart, h⟩ := Option.bind_eq_some_iff.mp h
        obtain ⟨value, hvalue, h⟩ := Option.bind_eq_some_iff.mp h
        rw [emplace_fresh hnew] at h
        obtain ⟨entries, rfl, hentries⟩ := ih hrest (fresh_of_append hname hnews) h
        refine ⟨(name, value) :: entries, by rw [List.append_assoc]; rfl, .cons ?_ hentries⟩
        exact ⟨rfl, part, typedPart_eq_some hpart, hvalue⟩
      next => cases h

theorem ShapesMembers.lookup {members : List (Bytes × TypeCodec)} {parts : List (Bytes × Value)}
    (h : ShapesMembers members parts) (hdistinct : (members.map Prod.fst).Nodup)
    {part : Bytes × Value} (hpart : part ∈ parts) : parts.lookup part.1 = some part.2 := by
  rw [← h.names] at hdistinct
  exact (OrderedMap.lookup_eq_some_iff hdistinct).mpr hpart

mutual

/-- What is decoded is of the type. -/
theorem shapes_of_accepted {codec : TypeCodec} {json : Json} {value : Value}
    (h : accepted codec json = some value) : codec.Shapes value := by
  match codec, json with
  | .typed code, json =>
      rw [accepted] at h
      obtain ⟨found, -, rfl⟩ := Option.map_eq_some_iff.mp h
      rfl
  | .record type members, .object object =>
      rw [accepted] at h
      split at h
      next =>
        obtain ⟨parts, hparts, rfl⟩ := Option.map_eq_some_iff.mp h
        exact ⟨rfl, shapesMembers_of_accepted hparts⟩
      next => cases h
  | .sequence type length element, .array items =>
      rw [accepted] at h
      split at h
      next hfits =>
        obtain ⟨parts, hparts, rfl⟩ := Option.map_eq_some_iff.mp h
        rw [mapM_eq_some_iff] at hparts
        refine ⟨rfl, ?_, ?_⟩
        · intro fixed hfixed
          rw [← hparts.length_eq]
          exact hfits.2 fixed hfixed
        · intro part hpart
          obtain ⟨item, hitem, haccepted⟩ := exists_of_forall₂ hparts.flip hpart
          exact shapes_of_accepted haccepted
      next => cases h
  | .record _ _, .null | .record _ _, .bool _ | .record _ _, .int64 _ | .record _ _, .uint64 _
  | .record _ _, .double _ | .record _ _, .string _ | .record _ _, .array _
  | .sequence _ _ _, .null | .sequence _ _ _, .bool _ | .sequence _ _ _, .int64 _
  | .sequence _ _ _, .uint64 _ | .sequence _ _ _, .double _ | .sequence _ _ _, .string _
  | .sequence _ _ _, .object _ => simp [accepted] at h

theorem shapesMembers_of_accepted {members : List (Bytes × TypeCodec)} {object : JsonObject}
    {parts : List (Bytes × Value)} (h : acceptedMembers members object = some parts) :
    ShapesMembers members parts := by
  match members with
  | [] =>
      cases h
      trivial
  | (name, codec) :: rest =>
      rw [acceptedMembers] at h
      obtain ⟨part, hpart, hmore⟩ := Option.bind_eq_some_iff.mp h
      obtain ⟨others, hothers, rfl⟩ := Option.map_eq_some_iff.mp hmore
      exact ⟨rfl, shapes_of_accepted hpart, shapesMembers_of_accepted hothers⟩

end

theorem names_of_wrote {members : List (Bytes × TypeCodec)} {parts : List (Bytes × Value)}
    {entries : JsonObject} (h : List.Forall₂ (Wrote parts) members entries) :
    entries.map Prod.fst = members.map Prod.fst := by
  induction h with
  | nil => rfl
  | cons hfirst _ ih => rw [List.map_cons, List.map_cons, ih, hfirst.1]

mutual

/-- What is written is read back. -/
theorem accepted_of_written {codec : TypeCodec} {value : Value} {json : Json}
    (hlawful : codec.Lawful) (hshapes : codec.Shapes value) (h : written codec value = some json) :
    accepted codec json = some value := by
  match codec, value with
  | .typed code, .typed found value =>
      obtain rfl : found = code := hshapes
      rw [written, dif_pos rfl] at h
      rw [accepted, hlawful value json h, Option.map_some]
  | .record type members, .record found parts =>
      obtain ⟨rfl, hparts⟩ := hshapes
      obtain ⟨hdistinct, hmembers⟩ := hlawful
      rw [written, if_pos rfl] at h
      obtain ⟨object, hobject, rfl⟩ := Option.map_eq_some_iff.mp h
      obtain ⟨_, rfl, hentries⟩ := writtenMembers_entries hdistinct (by simp) hobject
      have hnames : object.map Prod.fst = members.map Prod.fst := names_of_wrote hentries
      have hkeys : (object.map Prod.fst).Nodup := hnames ▸ hdistinct
      have hall : ∀ part ∈ parts, parts.lookup part.1 = some part.2 :=
        fun part => hparts.lookup hdistinct
      have hvalues : ∀ member ∈ members, ∃ part, parts.lookup member.1 = some part ∧
          written member.2 part = some (memberValue object member.1) := by
        intro member hmember
        obtain ⟨entry, hentry, hname, part, hpart, hwritten⟩ := exists_of_forall₂ hentries hmember
        refine ⟨part, hpart, ?_⟩
        rw [← hname, memberValue_of_mem hkeys hentry, hwritten]
      rw [accepted, if_pos ((hasMembers_iff_perm hdistinct).mpr (hnames ▸ .refl _)),
        acceptedMembers_of_written hmembers hparts hall hvalues, Option.map_some]
  | .sequence type length element, .sequence found items =>
      obtain ⟨rfl, -, hitems⟩ := hshapes
      have helement : element.Lawful := hlawful
      rw [written, if_pos rfl] at h
      split at h
      next hlength =>
        obtain ⟨array, harray, rfl⟩ := Option.map_eq_some_iff.mp h
        rw [mapM_eq_some_iff] at harray
        have hback : List.Forall₂ (fun json item => accepted element json = some item)
            array items := by
          refine (List.Forall₂.imp ?_ ((List.forall₂_and_left _ _).mpr ⟨hitems, harray⟩)).flip
          rintro item json ⟨hitem, hjson⟩
          obtain ⟨part, hpart, hwritten⟩ := Option.bind_eq_some_iff.mp hjson
          obtain rfl : item = part := Option.some.inj (typedPart_eq_some hpart)
          exact accepted_of_written helement hitem hwritten
        rw [accepted, if_pos (harray.length_eq ▸ hlength), mapM_eq_some_iff.mpr hback,
          Option.map_some]
      next => cases h

theorem acceptedMembers_of_written {members : List (Bytes × TypeCodec)}
    {parts all : List (Bytes × Value)} {entries : JsonObject} (hlawful : LawfulMembers members)
    (hshapes : ShapesMembers members parts)
    (hall : ∀ part ∈ parts, all.lookup part.1 = some part.2)
    (hentries : ∀ member ∈ members, ∃ part, all.lookup member.1 = some part ∧
      written member.2 part = some (memberValue entries member.1)) :
    acceptedMembers members entries = some parts := by
  match members, parts with
  | [], [] => rfl
  | (name, codec) :: rest, (found, part) :: others =>
      obtain ⟨rfl, hpart, hothers⟩ := hshapes
      obtain ⟨hcodec, hrest⟩ := hlawful
      obtain ⟨hlookup, hlookups⟩ := List.forall_mem_cons.mp hall
      obtain ⟨⟨same, hsame, hwritten⟩, hmore⟩ := List.forall_mem_cons.mp hentries
      obtain rfl : part = same := Option.some.inj (hlookup.symm.trans hsame)
      rw [acceptedMembers, accepted_of_written hcodec hpart hwritten,
        acceptedMembers_of_written hrest hothers hlookups hmore]
      rfl

end

/-- A conversion that ended because the context had too few bytes or levels. -/
def RanOut {α : Type} (context : CodecContext) (cost nesting : Nat) (result : Result α) : Prop :=
  result.status = .failure .documentLimit ∧ context.remaining < cost ∨
    result.status = .failure .depthLimit ∧ context.limits.maxDepth < context.depth + nesting

/-- What holds of the two conversions of a reflected type, in every context. -/
structure Reflects (storage : Storage) (codec : TypeCodec) : Prop where
  /-- A value that was encoded is decoded to itself, budgets permitting. -/
  round_trip : ∀ value result context, codec.Shapes value →
    (toJson codec value result context).status = .converted →
    ∀ json, json = (toJson codec value result context).output →
    ∀ after, (makeStored storage codec json after).status = .converted ∧
        (makeStored storage codec json after).output = some value ∨
      RanOut after (readCost codec json) (readNesting codec json)
        (makeStored storage codec json after)
  /-- Only what the descriptor admits is decoded. -/
  sound : ∀ json context, (makeStored storage codec json context).status = .converted →
    codec.Matches json
  /-- All that the descriptor admits is decoded, budgets permitting. -/
  complete : ∀ json, codec.Matches json → ∀ context,
    (makeStored storage codec json context).status = .converted ∨
      RanOut context (readCost codec json) (readNesting codec json)
        (makeStored storage codec json context)
  /-- A pointer is returned exactly on success. -/
  returned : ∀ json context, (makeStored storage codec json context).output.isSome ↔
    (makeStored storage codec json context).status = .converted
  /-- A failed encoding leaves its result alone. -/
  unchanged : ∀ value result context, (toJson codec value result context).status ≠ .converted →
    (toJson codec value result context).output = result

theorem reflected_round_trip {storage : Storage} (hstorage : storage.Lawful) {codec : TypeCodec}
    (hlawful : codec.Lawful) : Reflects storage codec where
  round_trip value result context hshapes hstatus json hjson after := by
    obtain ⟨hwritten, -, -⟩ := (toJson_ends codec value result context).of_converted hstatus
    rw [← hjson] at hwritten
    have hends := makeDataSource_ends codec json after
    rw [accepted_of_written hlawful hshapes hwritten, Option.map_some] at hends
    rw [makeStored_eq hstorage hlawful]
    exact hends.of_some
  sound json context hstatus := by
    rw [makeStored_eq hstorage hlawful] at hstatus
    obtain ⟨value, -, haccepted⟩ := makeDataSource_output hstatus
    exact (isSome_accepted_iff hlawful json).mp (Option.isSome_iff_exists.mpr ⟨value, haccepted⟩)
  complete json hmatches context := by
    obtain ⟨value, haccepted⟩ :=
      Option.isSome_iff_exists.mp ((isSome_accepted_iff hlawful json).mpr hmatches)
    have hends := makeDataSource_ends codec json context
    rw [haccepted, Option.map_some] at hends
    rw [makeStored_eq hstorage hlawful]
    rcases hends.of_some with ⟨hconverted, -⟩ | hlimit
    · exact .inl hconverted
    · exact .inr hlimit
  returned json context := by
    rw [makeStored_eq hstorage hlawful]
    constructor
    · intro houtput
      by_contra hstatus
      rw [(makeDataSource_ends codec json context).output_of_failed hstatus] at houtput
      cases houtput
    · intro hstatus
      obtain ⟨value, houtput, -⟩ := makeDataSource_output hstatus
      rw [houtput]
      rfl
  unchanged value result context := (toJson_ends codec value result context).output_of_failed

/-! ### Storage of trees -/

mutual

/-- A default-constructed value. -/
def TypeCodec.initial : TypeCodec → Value
  | .typed code => .typed code code.initial
  | .record type members => .record type (initialMembers members)
  | .sequence type length element =>
      .sequence type (List.replicate (length.getD 0) element.initial)

def initialMembers : List (Bytes × TypeCodec) → List (Bytes × Value)
  | [] => []
  | (name, codec) :: rest => (name, codec.initial) :: initialMembers rest

end

def resizeTree : TypeCodec → Value → Nat → Option Value
  | .sequence type none element, .sequence _ items, count =>
      some (.sequence type (items.take count ++
        List.replicate (count - items.length) element.initial))
  | _, _, _ => none

/-- Storage in which new elements are default-constructed. -/
def treeStorage : Storage where
  buildValue codec := some codec.initial
  resize := resizeTree

mutual

theorem shapes_initial (codec : TypeCodec) : codec.Shapes codec.initial := by
  match codec with
  | .typed code => rfl
  | .record type members => exact ⟨rfl, shapesMembers_initial members⟩
  | .sequence type length element =>
      refine ⟨rfl, ?_, ?_⟩
      · rintro fixed rfl
        exact List.length_replicate
      · intro item hitem
        rw [List.eq_of_mem_replicate hitem]
        exact shapes_initial element

theorem shapesMembers_initial (members : List (Bytes × TypeCodec)) :
    ShapesMembers members (initialMembers members) := by
  match members with
  | [] => trivial
  | (name, codec) :: rest => exact ⟨rfl, shapes_initial codec, shapesMembers_initial rest⟩

end

theorem treeStorage_lawful : treeStorage.Lawful where
  build codec := ⟨codec.initial, rfl, shapes_initial codec⟩
  resize type element value count hshapes := by
    cases value with
    | sequence found items =>
        obtain ⟨-, -, hitems⟩ := hshapes
        refine ⟨_, rfl, ?_, ?_⟩
        · simp only [List.length_append, List.length_take, List.length_replicate]
          omega
        · intro item hitem
          rcases List.mem_append.mp hitem with hold | hnew
          · exact hitems item (List.mem_of_mem_take hold)
          · rw [List.eq_of_mem_replicate hnew]
            exact shapes_initial element
    | _ => exact hshapes.elim

/-- A structure with a name and a list of flags. -/
def flagsCodec : TypeCodec :=
  .record 1 [(bytes "n", .typed .string), (bytes "f", .sequence 2 none (.typed .bool))]

def flagsValue : Value :=
  .record 1 [(bytes "n", .typed .string (bytes "x")),
    (bytes "f", .sequence 2 [.typed .bool true, .typed .bool false])]

theorem reflected_round_trip_flags :
    Reflects treeStorage flagsCodec ∧ flagsCodec.Shapes flagsValue ∧
      (toJson flagsCodec flagsValue .null (.fresh {})).status = .converted := by
  have hlawful : flagsCodec.Lawful :=
    ⟨by decide, Code.faithful .string, Code.faithful .bool, trivial⟩
  have hshapes : flagsCodec.Shapes flagsValue :=
    ⟨rfl, rfl, rfl, rfl, ⟨rfl, by simp, by simp [TypeCodec.Shapes]⟩, trivial⟩
  exact ⟨reflected_round_trip treeStorage_lawful hlawful, hshapes, by decide +kernel⟩

end RttHttp.Codec
