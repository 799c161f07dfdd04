import RttHttp.Json.Equality
import RttHttp.Model.Resolve
import RttHttp.Registry.Attempt

/-! # What a fingerprint identifies

A fingerprint is the text of the identity of a registration, whose descriptor has
its members sorted at every depth. Two registrations have one fingerprint exactly
when nothing but the order of members and the order and repetition of dependencies
tells them apart.
-/

namespace RttHttp.Registry

open JsonObject (find?_erase find?_set mem_set)
open Model (Ascending TypeRegistration ascending_emplace bytesLt)

/-! ## Sorted members -/

section Sorted

variable {entries : List (Bytes × Json)}

theorem ascending_emplaceAll (items : List (Bytes × Json)) (hsorted : Ascending entries) :
    Ascending (OrderedMap.emplaceAll bytesLt entries items) := by
  induction items generalizing entries with
  | nil => exact hsorted
  | cons item rest ih => exact ih (ascending_emplace item.2 hsorted)

/-- Items with new and distinct names are all taken. -/
theorem emplaceAll_perm {items : List (Bytes × Json)}
    (hnames : ((entries ++ items).map Prod.fst).Nodup) :
    (OrderedMap.emplaceAll bytesLt entries items).Perm (entries ++ items) := by
  induction items generalizing entries with
  | nil =>
      rw [List.append_nil]
      exact .refl _
  | cons item rest ih =>
      obtain ⟨name, value⟩ := item
      have hmiddle : (entries ++ (name, value) :: rest).Perm
          ((name, value) :: (entries ++ rest)) := List.perm_middle
      have hkeys := ((hmiddle.map Prod.fst).nodup_iff).mp hnames
      have hfresh : name ∉ entries.map Prod.fst := by
        intro hmem
        rw [List.map_cons, List.nodup_cons, List.map_append] at hkeys
        exact hkeys.1 (List.mem_append_left _ hmem)
      have hnone : entries.lookup name = none :=
        Option.not_isSome_iff_eq_none.mp fun h => hfresh (OrderedMap.isSome_lookup_iff.mp h)
      have hstep : (OrderedMap.emplace bytesLt entries name value).Perm
          ((name, value) :: entries) := OrderedMap.emplace_perm hnone
      have hall : (OrderedMap.emplace bytesLt entries name value ++ rest).Perm
          ((name, value) :: (entries ++ rest)) := hstep.append_right rest
      exact (ih ((hall.map Prod.fst).nodup_iff.mpr hkeys)).trans (hall.trans hmiddle.symm)

theorem nodup_keys_of_ascending (hsorted : Ascending entries) : (entries.map Prod.fst).Nodup := by
  rw [List.Nodup, List.pairwise_map]
  exact hsorted.imp fun hlt heq => absurd (heq ▸ hlt) (Std.lt_irrefl)

/-- The same entries are sorted into the same list. -/
theorem emplaceAll_eq_of_perm {first second : List (Bytes × Json)}
    (hnames : (first.map Prod.fst).Nodup) (hperm : first.Perm second) :
    OrderedMap.emplaceAll bytesLt [] first = OrderedMap.emplaceAll bytesLt [] second := by
  have hothers : (second.map Prod.fst).Nodup := (hperm.map Prod.fst).nodup_iff.mp hnames
  have hone : (OrderedMap.emplaceAll bytesLt [] first).Perm first := emplaceAll_perm hnames
  have htwo : (OrderedMap.emplaceAll bytesLt [] second).Perm second := emplaceAll_perm hothers
  exact (ascending_emplaceAll first .nil).eq_of_perm (ascending_emplaceAll second .nil)
    (hone.trans (hperm.trans htwo.symm))

theorem emplaceAll_ascending (hsorted : Ascending entries) :
    OrderedMap.emplaceAll bytesLt [] entries = entries := by
  have hperm : (OrderedMap.emplaceAll bytesLt [] entries).Perm entries :=
    emplaceAll_perm (nodup_keys_of_ascending hsorted)
  exact (ascending_emplaceAll entries .nil).eq_of_perm hsorted hperm

end Sorted

/-! ## Canonical values -/

/-- A member with its value in canonical form. -/
def canonicalEntry (member : Bytes × Json) : Bytes × Json := (member.1, canonicalJson member.2)

theorem canonicalMembers_eq (members : List (Bytes × Json)) (sorted : JsonObject) :
    canonicalMembers members sorted =
      OrderedMap.emplaceAll bytesLt sorted (members.map canonicalEntry) := by
  induction members generalizing sorted with
  | nil => rfl
  | cons member rest ih =>
      obtain ⟨name, item⟩ := member
      rw [canonicalMembers, ih]
      rfl

theorem canonicalItems_eq (items : List Json) : canonicalItems items = items.map canonicalJson := by
  induction items with
  | nil => rfl
  | cons item rest ih => rw [canonicalItems, ih, List.map_cons]

/-- The members of a canonical object. -/
def canonicalObject (members : List (Bytes × Json)) : JsonObject :=
  OrderedMap.emplaceAll bytesLt [] (members.map canonicalEntry)

theorem canonicalJson_object (members : List (Bytes × Json)) :
    canonicalJson (.object members) = .object (canonicalObject members) := by
  rw [canonicalJson, canonicalMembers_eq, canonicalObject]

theorem ascending_canonicalObject (members : List (Bytes × Json)) :
    Ascending (canonicalObject members) := ascending_emplaceAll _ .nil

theorem keys_map_canonicalEntry (members : List (Bytes × Json)) :
    (members.map canonicalEntry).map Prod.fst = members.map Prod.fst := by
  rw [List.map_map]
  rfl

theorem canonicalObject_perm {members : List (Bytes × Json)}
    (hnames : (members.map Prod.fst).Nodup) :
    (canonicalObject members).Perm (members.map canonicalEntry) := by
  rw [← keys_map_canonicalEntry] at hnames
  exact emplaceAll_perm hnames

theorem mem_emplaceAll {entry : Bytes × Json} {entries items : List (Bytes × Json)}
    (h : entry ∈ OrderedMap.emplaceAll bytesLt entries items) : entry ∈ entries ∨ entry ∈ items := by
  induction items generalizing entries with
  | nil => exact .inl h
  | cons item rest ih =>
      rcases ih h with hmem | hmem
      · rcases OrderedMap.mem_emplace hmem with rfl | hold
        · exact .inr List.mem_cons_self
        · exact .inl hold
      · exact .inr (List.mem_cons_of_mem _ hmem)

theorem mem_canonicalObject {entry : Bytes × Json} {members : List (Bytes × Json)}
    (h : entry ∈ canonicalObject members) : ∃ member ∈ members, entry = canonicalEntry member := by
  rcases mem_emplaceAll h with hnone | hmem
  · cases hnone
  · obtain ⟨member, hmember, rfl⟩ := List.mem_map.mp hmem
    exact ⟨member, hmember, rfl⟩

mutual

/-- A canonical value is in canonical form. -/
theorem canonicalJson_idempotent (json : Json) :
    canonicalJson (canonicalJson json) = canonicalJson json := by
  match json with
  | .object members =>
      rw [canonicalJson_object, canonicalJson_object]
      have hsame : (canonicalObject members).map canonicalEntry = canonicalObject members := by
        have hentries : ∀ entry ∈ canonicalObject members, canonicalEntry entry = entry := by
          intro entry hentry
          obtain ⟨member, hmember, rfl⟩ := mem_canonicalObject hentry
          rw [canonicalEntry, canonicalEntry, canonicalMembers_idempotent members member hmember]
        rw [List.map_congr_left hentries, List.map_id']
      have hsorted := emplaceAll_ascending (ascending_canonicalObject members)
      have hagain : canonicalObject (canonicalObject members) = canonicalObject members := by
        rw [canonicalObject, hsame, hsorted]
      rw [hagain]
  | .array items =>
      rw [canonicalJson, canonicalJson, canonicalItems_idempotent items]
  | .null | .bool _ | .int64 _ | .uint64 _ | .double _ | .string _ => rfl

theorem canonicalItems_idempotent (items : List Json) :
    canonicalItems (canonicalItems items) = canonicalItems items := by
  match items with
  | [] => rfl
  | item :: rest =>
      rw [canonicalItems, canonicalItems, canonicalJson_idempotent item,
        canonicalItems_idempotent rest]

theorem canonicalMembers_idempotent (members : List (Bytes × Json)) :
    ∀ member ∈ members, canonicalJson (canonicalJson member.2) = canonicalJson member.2 := by
  match members with
  | [] => simp
  | (name, item) :: rest =>
      exact List.forall_mem_cons.mpr
        ⟨canonicalJson_idempotent item, canonicalMembers_idempotent rest⟩

end

/-- One value is another with the members of objects in another order. -/
inductive Reorders : Json → Json → Prop
  | refl (json : Json) : Reorders json json
  | trans {first second third : Json} (hfirst : Reorders first second)
      (hsecond : Reorders second third) : Reorders first third
  | members {members others : List (Bytes × Json)} (hnames : (members.map Prod.fst).Nodup)
      (hperm : members.Perm others) : Reorders (.object members) (.object others)
  | item {before after : List Json} {first second : Json} (hitem : Reorders first second) :
      Reorders (.array (before ++ first :: after)) (.array (before ++ second :: after))
  | member {before after : List (Bytes × Json)} {name : Bytes} {first second : Json}
      (hmember : Reorders first second) :
      Reorders (.object (before ++ (name, first) :: after))
        (.object (before ++ (name, second) :: after))

/-- The order of members does not show in the canonical form. -/
theorem canonicalJson_of_reorders {first second : Json} (h : Reorders first second) :
    canonicalJson first = canonicalJson second := by
  induction h with
  | refl => rfl
  | trans _ _ ihfirst ihsecond => exact ihfirst.trans ihsecond
  | members hnames hperm =>
      rw [← keys_map_canonicalEntry] at hnames
      rw [canonicalJson_object, canonicalJson_object, canonicalObject, canonicalObject,
        emplaceAll_eq_of_perm hnames (hperm.map canonicalEntry)]
  | item _ ih =>
      rw [canonicalJson, canonicalJson, canonicalItems_eq, canonicalItems_eq]
      simp [ih]
  | member _ ih =>
      rw [canonicalJson_object, canonicalJson_object, canonicalObject, canonicalObject]
      simp [canonicalEntry, ih]

/-! ## Equal values have one canonical form -/

variable {same : Double → Double → Prop}

theorem mem_distinctMembers {members : List (Bytes × Json)} :
    DistinctMembers members ↔ ∀ member ∈ members, member.2.Distinct := by
  induction members with
  | nil => simp [DistinctMembers]
  | cons member rest ih =>
      obtain ⟨name, item⟩ := member
      rw [DistinctMembers, List.forall_mem_cons, ih]

theorem mem_equalMembers {members : List (Bytes × Json)} {others : JsonObject} :
    Json.EqualMembers same members others ↔ ∀ member ∈ members, ∃ other,
      JsonObject.find? others member.1 = some other ∧ member.2.EqualBy same other := by
  induction members with
  | nil => simp [Json.EqualMembers]
  | cons member rest ih =>
      obtain ⟨name, item⟩ := member
      rw [Json.EqualMembers, List.forall_mem_cons, ih]

/-- Members of one name that are alike. -/
def AlikeEntry (same : Double → Double → Prop) (first second : Bytes × Json) : Prop :=
  first.1 = second.1 ∧ first.2.AlikeBy same second.2

theorem alikeMembers_iff {members others : List (Bytes × Json)} :
    Json.AlikeMembers same members others ↔ List.Forall₂ (AlikeEntry same) members others := by
  induction members generalizing others with
  | nil => cases others <;> simp [Json.AlikeMembers]
  | cons member rest ih =>
      cases others with
      | nil => simp [Json.AlikeMembers]
      | cons other more =>
          rw [Json.AlikeMembers, ih, List.forall₂_cons, AlikeEntry, and_assoc]

/-- Lists with one order of names correspond when every entry has a partner. -/
theorem forall₂_of_keys {members others : List (Bytes × Json)}
    (hkeys : members.map Prod.fst = others.map Prod.fst) (hnames : (members.map Prod.fst).Nodup)
    (h : ∀ member ∈ members, ∃ other, (member.1, other) ∈ others ∧ member.2.AlikeBy same other) :
    List.Forall₂ (AlikeEntry same) members others := by
  induction members generalizing others with
  | nil =>
      obtain rfl := List.map_eq_nil_iff.mp hkeys.symm
      exact .nil
  | cons member rest ih =>
      cases others with
      | nil => cases hkeys
      | cons other more =>
          obtain ⟨hname, hmore⟩ := List.cons.inj hkeys
          obtain ⟨hfresh, hrest⟩ := List.nodup_cons.mp hnames
          obtain ⟨hfirst, hothers⟩ := List.forall_mem_cons.mp h
          have hnext : ∀ {name : Bytes} {value : Json}, (name, value) ∈ other :: more →
              name ≠ member.1 → (name, value) ∈ more := by
            intro name value hmem hne
            rcases List.mem_cons.mp hmem with rfl | hmem
            · exact absurd hname.symm hne
            · exact hmem
          refine .cons ?_ (ih hmore hrest fun entry hentry => ?_)
          · obtain ⟨value, hvalue, halike⟩ := hfirst
            rcases List.mem_cons.mp hvalue with rfl | hmem
            · exact ⟨hname, halike⟩
            · have hkey : member.1 ∈ more.map Prod.fst := List.mem_map.mpr ⟨_, hmem, rfl⟩
              rw [← hmore] at hkey
              exact absurd hkey hfresh
          · obtain ⟨value, hvalue, halike⟩ := hothers entry hentry
            refine ⟨value, hnext hvalue ?_, halike⟩
            rintro hsame
            exact hfresh (hsame ▸ List.mem_map_of_mem hentry)

/-- Sorted members are alike when there are as many and every one has a partner. -/
theorem alikeMembers_ascending_iff {members others : List (Bytes × Json)}
    (hmembers : Ascending members) (hothers : Ascending others) :
    Json.AlikeMembers same members others ↔ members.length = others.length ∧
      ∀ member ∈ members, ∃ other, (member.1, other) ∈ others ∧ member.2.AlikeBy same other := by
  rw [alikeMembers_iff]
  constructor
  · intro h
    refine ⟨h.length_eq, fun member hmember => ?_⟩
    obtain ⟨⟨name, other⟩, hother, hname, halike⟩ := exists_of_forall₂ h hmember
    exact ⟨other, hname ▸ hother, halike⟩
  · rintro ⟨hlength, h⟩
    have hnames := nodup_keys_of_ascending hmembers
    have hsubset : members.map Prod.fst ⊆ others.map Prod.fst := by
      intro name hname
      obtain ⟨member, hmember, rfl⟩ := List.mem_map.mp hname
      obtain ⟨other, hother, -⟩ := h member hmember
      exact List.mem_map.mpr ⟨_, hother, rfl⟩
    have hperm : (members.map Prod.fst).Perm (others.map Prod.fst) := by
      refine (List.subperm_of_subset hnames hsubset).perm_of_length_le ?_
      rw [List.length_map, List.length_map, hlength]
    have hsorted : ∀ {entries : List (Bytes × Json)}, Ascending entries →
        (entries.map Prod.fst).Pairwise (· < ·) := fun h => List.pairwise_map.mpr h
    have hkeys := hperm.eq_of_pairwise
      (fun _ _ _ _ hab hba => absurd hba (Std.not_gt_of_lt hab)) (hsorted hmembers) (hsorted hothers)
    exact forall₂_of_keys hkeys hnames h

/-- The members of two objects, given how their values compare. -/
theorem alike_canonicalObject_iff {members others : List (Bytes × Json)}
    (hmembers : (members.map Prod.fst).Nodup) (hothers : (others.map Prod.fst).Nodup)
    (hvalues : ∀ member ∈ members, ∀ other ∈ others,
      ((canonicalJson member.2).AlikeBy same (canonicalJson other.2) ↔ member.2.EqualBy same other.2)) :
    Json.AlikeMembers same (canonicalObject members) (canonicalObject others) ↔
      members.length = others.length ∧ Json.EqualMembers same members others := by
  rw [alikeMembers_ascending_iff (ascending_canonicalObject members)
    (ascending_canonicalObject others), mem_equalMembers]
  have hone := canonicalObject_perm hmembers
  have htwo := canonicalObject_perm hothers
  rw [hone.length_eq, htwo.length_eq, List.length_map, List.length_map]
  refine and_congr_right fun _ => ?_
  constructor
  · intro h member hmember
    have hentry : canonicalEntry member ∈ canonicalObject members :=
      hone.mem_iff.mpr (List.mem_map_of_mem hmember)
    obtain ⟨value, hvalue, halike⟩ := h _ hentry
    obtain ⟨other, hother, hsame⟩ := mem_canonicalObject hvalue
    obtain ⟨hname, rfl⟩ := Prod.mk.inj hsame
    have hname : member.1 = other.1 := hname
    refine ⟨other.2, ?_, (hvalues member hmember other hother).mp halike⟩
    rw [hname]
    exact (OrderedMap.lookup_eq_some_iff hothers).mpr hother
  · intro h entry hentry
    obtain ⟨member, hmember, rfl⟩ := mem_canonicalObject hentry
    obtain ⟨other, hfound, hequal⟩ := h member hmember
    have hother : (member.1, other) ∈ others := (OrderedMap.lookup_eq_some_iff hothers).mp hfound
    refine ⟨canonicalJson other, ?_, (hvalues member hmember _ hother).mpr hequal⟩
    exact htwo.mem_iff.mpr (List.mem_map.mpr ⟨_, hother, rfl⟩)

mutual

/-- Values are equal exactly when their canonical forms are alike. -/
theorem alike_canonicalJson_iff {first second : Json} (hfirst : first.Distinct)
    (hsecond : second.Distinct) :
    (canonicalJson first).AlikeBy same (canonicalJson second) ↔ first.EqualBy same second := by
  match first, second with
  | .object members, .object others =>
      rw [canonicalJson_object, canonicalJson_object, Json.AlikeBy, Json.EqualBy]
      exact alike_canonicalObject_iff hfirst.1 hsecond.1 fun member hmember other hother =>
        alike_canonicalMembers_iff hfirst.2 member hmember
          (mem_distinctMembers.mp hsecond.2 other hother)
  | .array items, .array others =>
      rw [canonicalJson, canonicalJson, Json.AlikeBy, Json.EqualBy]
      exact alike_canonicalItems_iff hfirst hsecond
  | .object _, .null | .object _, .bool _ | .object _, .int64 _ | .object _, .uint64 _
  | .object _, .double _ | .object _, .string _ | .object _, .array _ =>
      simp [canonicalJson, Json.AlikeBy, Json.EqualBy, Json.SameScalar, Json.integer?]
  | .array _, .null | .array _, .bool _ | .array _, .int64 _ | .array _, .uint64 _
  | .array _, .double _ | .array _, .string _ | .array _, .object _ =>
      simp [canonicalJson, Json.AlikeBy, Json.EqualBy, Json.SameScalar, Json.integer?]
  | .null, other | .bool _, other | .int64 _, other | .uint64 _, other | .double _, other
  | .string _, other =>
      cases other <;> simp [canonicalJson, Json.AlikeBy, Json.EqualBy, Json.SameScalar, Json.integer?]

theorem alike_canonicalItems_iff {items others : List Json} (hitems : DistinctItems items)
    (hothers : DistinctItems others) :
    Json.AlikeItems same (canonicalItems items) (canonicalItems others) ↔
      Json.EqualItems same items others := by
  match items, others with
  | [], [] => simp [canonicalItems, Json.AlikeItems, Json.EqualItems]
  | [], _ :: _ => simp [canonicalItems, Json.AlikeItems, Json.EqualItems]
  | _ :: _, [] => simp [canonicalItems, Json.AlikeItems, Json.EqualItems]
  | item :: rest, other :: more =>
      rw [canonicalItems, canonicalItems, Json.AlikeItems, Json.EqualItems,
        alike_canonicalJson_iff hitems.1 hothers.1, alike_canonicalItems_iff hitems.2 hothers.2]

theorem alike_canonicalMembers_iff {members : List (Bytes × Json)}
    (hmembers : DistinctMembers members) : ∀ member ∈ members, ∀ {other : Json}, other.Distinct →
      ((canonicalJson member.2).AlikeBy same (canonicalJson other) ↔ member.2.EqualBy same other) := by
  match members with
  | [] => simp
  | (name, item) :: rest =>
      exact List.forall_mem_cons.mpr ⟨fun hother => alike_canonicalJson_iff hmembers.1 hother,
        alike_canonicalMembers_iff hmembers.2⟩

end

mutual

theorem alike_refl (json : Json) : json.AlikeBy Eq json := by
  match json with
  | .array items => exact alikeItems_refl items
  | .object members => exact alikeMembers_refl members
  | .int64 value => exact ⟨_, rfl, rfl⟩
  | .uint64 value => exact ⟨_, rfl, rfl⟩
  | .null | .bool _ | .double _ | .string _ => simp [Json.AlikeBy, Json.SameScalar]

theorem alikeItems_refl (items : List Json) : Json.AlikeItems Eq items items := by
  match items with
  | [] => trivial
  | item :: rest => exact ⟨alike_refl item, alikeItems_refl rest⟩

theorem alikeMembers_refl (members : List (Bytes × Json)) : Json.AlikeMembers Eq members members := by
  match members with
  | [] => trivial
  | (name, item) :: rest => exact ⟨rfl, alike_refl item, alikeMembers_refl rest⟩

end

mutual

theorem distinct_canonicalJson (json : Json) : (canonicalJson json).Distinct := by
  match json with
  | .object members =>
      rw [canonicalJson_object]
      refine ⟨nodup_keys_of_ascending (ascending_canonicalObject members),
        mem_distinctMembers.mpr fun entry hentry => ?_⟩
      obtain ⟨member, hmember, rfl⟩ := mem_canonicalObject hentry
      exact distinct_canonicalMembers members member hmember
  | .array items =>
      rw [canonicalJson]
      exact distinct_canonicalItems items
  | .null | .bool _ | .int64 _ | .uint64 _ | .double _ | .string _ => trivial

theorem distinct_canonicalItems (items : List Json) : DistinctItems (canonicalItems items) := by
  match items with
  | [] => trivial
  | item :: rest => exact ⟨distinct_canonicalJson item, distinct_canonicalItems rest⟩

theorem distinct_canonicalMembers (members : List (Bytes × Json)) :
    ∀ member ∈ members, (canonicalJson member.2).Distinct := by
  match members with
  | [] => simp
  | (name, item) :: rest =>
      exact List.forall_mem_cons.mpr
        ⟨distinct_canonicalJson item, distinct_canonicalMembers rest⟩

end

/-- The canonical form of a value is equal to it. -/
theorem equal_canonicalJson {json : Json} (hdistinct : json.Distinct) :
    json.Same (canonicalJson json) := by
  rw [Json.Same, ← alike_canonicalJson_iff hdistinct (distinct_canonicalJson json), canonicalJson_idempotent]
  exact alike_refl _

theorem equal_canonicalJson_iff {first second : Json} (hfirst : first.Distinct)
    (hsecond : second.Distinct) :
    (canonicalJson first).EqualBy same (canonicalJson second) ↔ first.EqualBy same second := by
  rw [← alike_canonicalJson_iff (distinct_canonicalJson first) (distinct_canonicalJson second),
    canonicalJson_idempotent, canonicalJson_idempotent, alike_canonicalJson_iff hfirst hsecond]

/-! ## The two members that every descriptor has -/

/-- A descriptor without `jsonSupported` and `reason`. -/
def bareDescriptor (descriptor : JsonObject) : JsonObject :=
  JsonObject.erase (JsonObject.erase descriptor (bytes "jsonSupported")) (bytes "reason")

/-- Objects are equal when every name leads to nothing or to equal values. -/
theorem equal_object_iff {members others : JsonObject} (hmembers : (members.map Prod.fst).Nodup)
    (hothers : (others.map Prod.fst).Nodup) :
    (Json.object members).EqualBy same (.object others) ↔ ∀ name, Option.Rel (Json.EqualBy same)
      (JsonObject.find? members name) (JsonObject.find? others name) := by
  have hfind : ∀ {object : JsonObject} {name : Bytes} {value : Json},
      (object.map Prod.fst).Nodup →
      (JsonObject.find? object name = some value ↔ (name, value) ∈ object) :=
    fun h => OrderedMap.lookup_eq_some_iff h
  have hkey : ∀ {object : JsonObject} {name : Bytes},
      (JsonObject.find? object name).isSome ↔ name ∈ object.map Prod.fst :=
    OrderedMap.isSome_lookup_iff
  rw [Json.EqualBy, mem_equalMembers]
  constructor
  · rintro ⟨hlength, hall⟩ name
    cases hfound : JsonObject.find? members name with
    | some value =>
        obtain ⟨other, hother, hequal⟩ := hall _ ((hfind hmembers).mp hfound)
        rw [hother]
        exact .some hequal
    | none =>
        have hsubset : members.map Prod.fst ⊆ others.map Prod.fst := by
          intro key hmem
          obtain ⟨member, hmember, rfl⟩ := List.mem_map.mp hmem
          obtain ⟨other, hother, -⟩ := hall member hmember
          exact hkey.mp (Option.isSome_iff_exists.mpr ⟨other, hother⟩)
        have hperm := (List.subperm_of_subset hmembers hsubset).perm_of_length_le
          (by rw [List.length_map, List.length_map, hlength])
        cases hother : JsonObject.find? others name with
        | none => exact .none
        | some other =>
            have hmem := hperm.mem_iff.mpr (hkey.mp (Option.isSome_iff_exists.mpr ⟨other, hother⟩))
            rw [← hkey, hfound] at hmem
            cases hmem
  · intro hall
    have hsome : ∀ {first second : Option Json}, Option.Rel (Json.EqualBy same) first second →
        (first.isSome ↔ second.isSome) := by
      intro first second hrelated
      cases hrelated <;> simp
    refine ⟨?_, fun member hmember => ?_⟩
    · have hperm : (members.map Prod.fst).Perm (others.map Prod.fst) := by
        refine (List.perm_ext_iff_of_nodup hmembers hothers).mpr fun name => ?_
        rw [← hkey, ← hkey]
        exact hsome (hall name)
      simpa using hperm.length_eq
    · have hrelated := hall member.1
      rw [(hfind hmembers).mpr hmember] at hrelated
      cases hfound : JsonObject.find? others member.1 with
      | none =>
          rw [hfound] at hrelated
          cases hrelated
      | some other =>
          rw [hfound] at hrelated
          cases hrelated with
          | some hequal => exact ⟨other, rfl, hequal⟩

theorem nodup_keys_set {object : JsonObject} (key : Bytes) (value : Json)
    (hnames : (object.map Prod.fst).Nodup) :
    ((JsonObject.set object key value).map Prod.fst).Nodup := by
  unfold JsonObject.set
  split
  next =>
    have hsame : (object.map fun member =>
        if member.1 = key then (key, value) else member).map Prod.fst = object.map Prod.fst := by
      rw [List.map_map]
      refine List.map_congr_left fun member _ => ?_
      simp only [Function.comp_apply]
      split
      next hkey => exact hkey.symm
      next => rfl
    rwa [hsame]
  next hmissing =>
    rw [List.map_append, List.map_singleton, List.nodup_append]
    refine ⟨hnames, List.nodup_singleton _, ?_⟩
    intro name hname other hother
    rw [List.mem_singleton.mp hother]
    rintro rfl
    exact hmissing (OrderedMap.isSome_lookup_iff.mpr hname)

theorem nodup_keys_erase {object : JsonObject} (key : Bytes) (hnames : (object.map Prod.fst).Nodup) :
    ((JsonObject.erase object key).map Prod.fst).Nodup :=
  hnames.sublist (List.filter_sublist.map Prod.fst)

/-- The two members that are set do not tell descriptors apart. -/
theorem equal_normalize_iff {first second : TypeRegistration}
    (hfirst : (first.descriptor.map Prod.fst).Nodup)
    (hsecond : (second.descriptor.map Prod.fst).Nodup) :
    (Json.object (normalize first).descriptor).EqualBy same
        (.object (normalize second).descriptor) ↔
      (Json.object (bareDescriptor first.descriptor)).EqualBy same
        (.object (bareDescriptor second.descriptor)) := by
  have hset : ∀ {registration : TypeRegistration}, (registration.descriptor.map Prod.fst).Nodup →
      ((normalize registration).descriptor.map Prod.fst).Nodup :=
    fun h => nodup_keys_set _ _ (nodup_keys_set _ _ h)
  have herase : ∀ {object : JsonObject}, (object.map Prod.fst).Nodup →
      ((bareDescriptor object).map Prod.fst).Nodup :=
    fun h => nodup_keys_erase _ (nodup_keys_erase _ h)
  rw [equal_object_iff (hset hfirst) (hset hsecond), equal_object_iff (herase hfirst) (herase hsecond)]
  refine forall_congr' fun name => ?_
  simp only [normalize, bareDescriptor, find?_set, find?_erase]
  by_cases hreason : name = bytes "reason"
  · rw [if_pos hreason, if_pos hreason, if_pos hreason, if_pos hreason]
    exact ⟨fun _ => .none, fun _ => .some trivial⟩
  · rw [if_neg hreason, if_neg hreason, if_neg hreason, if_neg hreason]
    by_cases hsupported : name = bytes "jsonSupported"
    · rw [if_pos hsupported, if_pos hsupported, if_pos hsupported, if_pos hsupported]
      exact ⟨fun _ => .none, fun _ => .some rfl⟩
    · rw [if_neg hsupported, if_neg hsupported, if_neg hsupported, if_neg hsupported]

theorem distinct_normalize {registration : TypeRegistration}
    (h : (Json.object registration.descriptor).Distinct) :
    (Json.object (normalize registration).descriptor).Distinct := by
  refine ⟨nodup_keys_set _ _ (nodup_keys_set _ _ h.1), mem_distinctMembers.mpr ?_⟩
  intro member hmember
  rcases mem_set hmember with rfl | hmember
  · trivial
  · rcases mem_set hmember with rfl | hmember
    · trivial
    · exact mem_distinctMembers.mp h.2 member hmember

/-! ## Dependencies -/

/-- Sorted dependencies are the set of them. -/
theorem normalize_dependencies_eq_iff {first second : TypeRegistration} :
    (normalize first).dependencies = (normalize second).dependencies ↔
      ∀ name, name ∈ first.dependencies ↔ name ∈ second.dependencies := by
  have hsorted : ∀ registration : TypeRegistration,
      (normalize registration).dependencies.Pairwise fun a b => bytesLt b a = false := fun _ =>
    (Model.pairwise_sort_bytes _).sublist (List.dedup_sublist _)
  constructor
  · intro h name
    rw [← mem_normalize_dependencies, h, mem_normalize_dependencies]
  · intro h
    have hperm : (normalize first).dependencies.Perm (normalize second).dependencies := by
      refine (List.perm_ext_iff_of_nodup (List.nodup_dedup _) (List.nodup_dedup _)).mpr ?_
      intro name
      exact mem_normalize_dependencies.trans ((h name).trans mem_normalize_dependencies.symm)
    refine hperm.eq_of_pairwise (fun a b _ _ hab hba => ?_) (hsorted first) (hsorted second)
    rw [Model.bytesLt_eq_false_iff] at hab hba
    exact Std.le_antisymm hab hba

theorem alikeItems_strings {names others : List Bytes} :
    Json.AlikeItems same (names.map .string) (others.map .string) ↔ names = others := by
  induction names generalizing others with
  | nil => cases others <;> simp [Json.AlikeItems]
  | cons name rest ih =>
      cases others with
      | nil => simp [Json.AlikeItems]
      | cons other more =>
          rw [List.map_cons, List.map_cons, Json.AlikeItems, ih, List.cons.injEq]
          rfl

/-! ## Fingerprints -/

theorem alike_identity_iff {first second : TypeRegistration} :
    (identity first).AlikeBy same (identity second) ↔ identityParts first = identityParts second ∧
      (canonicalJson (.object first.descriptor)).AlikeBy same
        (canonicalJson (.object second.descriptor)) ∧
      first.dependencies = second.dependencies := by
  simp only [identity, Json.AlikeBy, Json.AlikeItems, Json.SameScalar, alikeItems_strings,
    identityParts, List.cons.injEq, and_assoc, and_true]

theorem clean_identity {formatter : Formatter} {registration : TypeRegistration} {text : Bytes}
    (h : fingerprint formatter registration = .ok text) : (identity registration).Clean := by
  unfold fingerprint at h
  split at h
  next => cases h
  next =>
    split at h
    next => cases h
    next =>
      split at h
      next => cases h
      next found hfound => exact clean_of_serializeJson hfound

theorem fingerprint_eq_iff {formatter : Formatter} (hdouble : WritesDoubles formatter.double)
    {first second : TypeRegistration} {one two : Bytes}
    (hone : fingerprint formatter first = .ok one) (htwo : fingerprint formatter second = .ok two) :
    one = two ↔ (identity first).AlikeBy Eq (identity second) := by
  rw [(fingerprint_ok hone).1, (fingerprint_ok htwo).1]
  exact serialize_eq_iff hdouble (clean_identity hone) (clean_identity htwo)

/-- Fingerprints identify registrations: by their five names, their set of
dependencies and their descriptor up to the order of members. -/
theorem fingerprints_identify {Pointer : Type} {formatter : Formatter}
    (hdouble : WritesDoubles formatter.double) {first second : TypeRegistration}
    (hfirst : (Json.object first.descriptor).Distinct)
    (hsecond : (Json.object second.descriptor).Distinct) {address other : Nat}
    {codec pointer : Pointer} {one two : TypeProtocol formatter Pointer}
    (hone : TypeProtocol.make formatter address first codec = .ok one)
    (htwo : TypeProtocol.make formatter other second pointer = .ok two) :
    (one.fingerprint = two.fingerprint ↔ identityParts first = identityParts second ∧
      (∀ name, name ∈ first.dependencies ↔ name ∈ second.dependencies) ∧
      (Json.object (bareDescriptor first.descriptor)).Same
        (.object (bareDescriptor second.descriptor))) ∧
    (∀ json, canonicalJson (canonicalJson json) = canonicalJson json) ∧
    (∀ json : Json, json.Distinct → json.Same (canonicalJson json)) ∧
    (∀ a b : Json, a.Distinct → b.Distinct →
      ((canonicalJson a).Equal (canonicalJson b) ↔ a.Equal b) ∧
      ((canonicalJson a).Same (canonicalJson b) ↔ a.Same b)) ∧
    ∀ a b, Reorders a b → canonicalJson a = canonicalJson b := by
  refine ⟨?_, canonicalJson_idempotent, fun _ => equal_canonicalJson, ?_,
    fun _ _ => canonicalJson_of_reorders⟩
  · rw [fingerprint_eq_iff hdouble (make_eq_ok hone).2.2 (make_eq_ok htwo).2.2,
      alike_identity_iff, normalize_dependencies_eq_iff,
      alike_canonicalJson_iff (distinct_normalize hfirst) (distinct_normalize hsecond),
      equal_normalize_iff hfirst.1 hsecond.1]
    exact and_congr_right fun _ => and_comm
  · intro a b ha hb
    exact ⟨equal_canonicalJson_iff ha hb, equal_canonicalJson_iff ha hb⟩

/-! ### An enumeration, also with a zero in its descriptor -/

/-- A formatter that writes a number in units of the last place. -/
def unitFormatter : Formatter where
  double
    | .finite number =>
        (if number.negative then [minus] else []) ++ decimal number.units ++ bytes "E0"
    | _ => []
  exhausted _ := none

theorem unitFormatter_number {number : Finite .binary64} {c : UInt8}
    (hc : c ∈ unitFormatter.double (.finite number)) : isNumberByte c = true := by
  simp only [unitFormatter, List.mem_append] at hc
  rcases hc with (hsign | hunits) | hpower
  · split at hsign
    · obtain rfl := List.mem_singleton.mp hsign
      rfl
    · cases hsign
  · rw [decimal_eq_toChars] at hunits
    exact isNumberByte_toChars c hunits
  · have hall : (bytes "E0").all isNumberByte = true := by decide
    exact List.all_eq_true.mp hall c hpower

theorem unitFormatter_injective {first second : Finite .binary64}
    (h : unitFormatter.double (.finite first) = unitFormatter.double (.finite second)) :
    first = second := by
  have htext := List.append_cancel_right h
  have hhead : ∀ {units : Nat} {rest : Bytes}, decimal units ≠ minus :: rest := by
    intro units rest hsame
    have hmem : minus ∈ decimal units := hsame ▸ List.mem_cons_self
    cases decimal_isDigit units minus hmem
  have hunits : ∀ {m n : Nat}, decimal m = decimal n → m = n := by
    intro m n hsame
    rw [← digitsValue_decimal m, hsame, digitsValue_decimal]
  obtain ⟨negative, units, hexact, hbounded⟩ := first
  obtain ⟨other, others, _, _⟩ := second
  -- The text of a number begins with a digit or with its sign.
  cases negative <;> cases other
  · obtain rfl := hunits htext
    rfl
  · exact absurd htext hhead
  · exact absurd htext.symm hhead
  · obtain rfl := hunits (List.cons.inj htext).2
    rfl

theorem unitFormatter_writesDoubles : WritesDoubles unitFormatter.double where
  number value hfinite c hc := by
    cases value with
    | finite number => exact unitFormatter_number hc
    | _ => cases hfinite
  mark value hfinite := by
    cases value with
    | finite number =>
        exact ⟨0x45, List.mem_append_right _ List.mem_cons_self, by decide, by decide⟩
    | _ => cases hfinite
  injective first second hfirst hsecond h := by
    cases first with
    | finite number =>
        cases second with
        | finite other => exact congrArg Binary.finite (unitFormatter_injective h)
        | _ => cases hsecond
    | _ => cases hfirst

/-- An enumeration over one integer type, with the members of its descriptor in
the given order. -/
def enumRegistration (descriptor : JsonObject) (dependencies : List Bytes) : TypeRegistration where
  providerId := bytes "p"
  providerVersion := bytes "1"
  codecId := bytes "c"
  codecVersion := bytes "1"
  rttType := bytes "Mode"
  descriptor := descriptor
  dependencies := dependencies

theorem fingerprints_identify_enum :
    ∃ one two : TypeProtocol unitFormatter Unit,
      TypeProtocol.make unitFormatter 0 (enumRegistration
        [(bytes "kind", .string (bytes "enum")), (bytes "underlyingType", .string (bytes "int"))]
        [bytes "int"]) () = .ok one ∧
      TypeProtocol.make unitFormatter 1 (enumRegistration
        [(bytes "underlyingType", .string (bytes "int")), (bytes "kind", .string (bytes "enum"))]
        [bytes "int", bytes "int"]) () = .ok two ∧
      one.fingerprint = two.fingerprint := by
  have hone : fingerprint unitFormatter (normalize (enumRegistration
      [(bytes "kind", .string (bytes "enum")), (bytes "underlyingType", .string (bytes "int"))]
      [bytes "int"])) = .ok _ := rfl
  have htwo : fingerprint unitFormatter (normalize (enumRegistration
      [(bytes "underlyingType", .string (bytes "int")), (bytes "kind", .string (bytes "enum"))]
      [bytes "int", bytes "int"])) = .ok _ := rfl
  obtain ⟨one, hmake⟩ := make_of_fingerprint 0 () hone
  obtain ⟨two, hother⟩ := make_of_fingerprint 1 () htwo
  refine ⟨one, two, hmake, hother, ?_⟩
  refine (fingerprints_identify unitFormatter_writesDoubles ?_ ?_ hmake hother).1.mpr
    ⟨rfl, ?_, ?_⟩
  · exact ⟨by decide, trivial, trivial, trivial⟩
  · exact ⟨by decide, trivial, trivial, trivial⟩
  · simp [enumRegistration]
  · exact ⟨rfl, ⟨_, rfl, rfl⟩, ⟨_, rfl, rfl⟩, trivial⟩

/-- An enumeration that says which value is the default, as a floating-point zero. -/
def zeroRegistration (negative : Bool) : TypeRegistration :=
  enumRegistration [(bytes "kind", .string (bytes "enum")),
    (bytes "underlyingType", .string (bytes "int")),
    (bytes "default", .double (.finite (.zero _ negative)))] [bytes "int"]

/-- Boost takes the two zeros to be equal, and so the two descriptors; it writes them as
`0E0` and `-0E0`. -/
theorem zeros_told_apart :
    WritesDoubles unitFormatter.double ∧
    (Json.object (zeroRegistration false).descriptor).Distinct ∧
    (Json.object (zeroRegistration true).descriptor).Distinct ∧
    identityParts (zeroRegistration false) = identityParts (zeroRegistration true) ∧
    (zeroRegistration false).dependencies = (zeroRegistration true).dependencies ∧
    (Json.object (bareDescriptor (zeroRegistration false).descriptor)).Equal
      (.object (bareDescriptor (zeroRegistration true).descriptor)) ∧
    ∃ one two : TypeProtocol unitFormatter Unit,
      TypeProtocol.make unitFormatter 0 (zeroRegistration false) () = .ok one ∧
      TypeProtocol.make unitFormatter 1 (zeroRegistration true) () = .ok two ∧
      one.fingerprint ≠ two.fingerprint := by
  have hmake : ∀ negative address, ∃ protocol : TypeProtocol unitFormatter Unit,
      TypeProtocol.make unitFormatter address (zeroRegistration negative) () = .ok protocol := by
    intro negative address
    have hok : (fingerprint unitFormatter (normalize (zeroRegistration negative))).isOk = true := by
      cases negative <;> decide +kernel
    cases htext : fingerprint unitFormatter (normalize (zeroRegistration negative)) with
    | ok text =>
        obtain ⟨protocol, hprotocol⟩ := make_of_fingerprint address () htext
        exact ⟨protocol, hprotocol⟩
    | error message =>
        rw [htext] at hok
        cases hok
  obtain ⟨one, hone⟩ := hmake false 0
  obtain ⟨two, htwo⟩ := hmake true 1
  refine ⟨unitFormatter_writesDoubles, ?_, ?_, rfl, rfl, ?_, one, two, hone, htwo, ?_⟩
  · exact ⟨by decide, trivial, trivial, trivial, trivial⟩
  · exact ⟨by decide, trivial, trivial, trivial, trivial⟩
  · exact ⟨rfl, ⟨_, rfl, rfl⟩, ⟨_, rfl, rfl⟩, ⟨_, rfl, rfl⟩, trivial⟩
  · intro hsame
    have hfirst := (make_eq_ok hone).2.2
    rw [hsame, ← (make_eq_ok htwo).2.2] at hfirst
    revert hfirst
    decide +kernel

end RttHttp.Registry
