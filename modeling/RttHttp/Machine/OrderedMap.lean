import Mathlib.Data.List.Lookmap
import Mathlib.Data.List.Perm.Basic

/-! # Maps in the order of iteration

An ordered map as the list of its entries, ascending in their keys. Emplacing an
entry leaves an entry that is there alone. What a lookup finds does not depend on
the order.
-/

namespace RttHttp.OrderedMap

variable {Key Value : Type*} [BEq Key] (before : Key → Key → Bool)

def emplace (entries : List (Key × Value)) (key : Key) (value : Value) : List (Key × Value) :=
  if (entries.lookup key).isSome then entries
  else entries.takeWhile (fun entry => before entry.1 key) ++
    (key, value) :: entries.dropWhile fun entry => before entry.1 key

/-- Emplace a list of entries one after the other. -/
def emplaceAll (entries : List (Key × Value)) (items : List (Key × Value)) : List (Key × Value) :=
  items.foldl (fun entries item => emplace before entries item.1 item.2) entries

variable {before} {entries : List (Key × Value)} {key other : Key} {value : Value}

theorem emplace_perm (hfresh : entries.lookup key = none) :
    (emplace before entries key value).Perm ((key, value) :: entries) := by
  simp only [emplace, hfresh, Option.isSome_none, Bool.false_eq_true, if_false]
  refine List.perm_middle.trans ?_
  rw [List.takeWhile_append_dropWhile]

theorem mem_emplace {entry : Key × Value} (hentry : entry ∈ emplace before entries key value) :
    entry = (key, value) ∨ entry ∈ entries := by
  unfold emplace at hentry
  split at hentry
  next => exact .inr hentry
  next hfresh =>
    have hperm : (emplace before entries key value).Perm ((key, value) :: entries) :=
      emplace_perm (Option.not_isSome_iff_eq_none.mp hfresh)
    rw [emplace, if_neg hfresh] at hperm
    exact List.mem_cons.mp (hperm.mem_iff.mp hentry)

variable [LawfulBEq Key]

theorem lookup_emplace_self :
    (emplace before entries key value).lookup key = some ((entries.lookup key).getD value) := by
  unfold emplace
  cases hfound : entries.lookup key with
  | some found => simp [hfound]
  | none =>
      have hsplit : (entries.takeWhile (fun entry => before entry.1 key)).lookup key = none := by
        rw [← List.takeWhile_append_dropWhile (p := fun entry => before entry.1 key) (l := entries),
          List.lookup_append] at hfound
        exact (Option.or_eq_none_iff.mp hfound).1
      simp [List.lookup_append, hsplit]

theorem lookup_emplace_ne (hne : other ≠ key) :
    (emplace before entries key value).lookup other = entries.lookup other := by
  unfold emplace
  split
  next => rfl
  next =>
    have hbeq : (other == key) = false := by simpa using hne
    rw [List.lookup_append, List.lookup_cons, hbeq, ← List.lookup_append,
      List.takeWhile_append_dropWhile]

/-- Of several items with one key the first one counts. -/
theorem lookup_emplaceAll {items : List (Key × Value)} :
    (emplaceAll before entries items).lookup key = (entries.lookup key).or (items.lookup key) := by
  induction items generalizing entries with
  | nil => simp [emplaceAll]
  | cons item rest ih =>
      obtain ⟨name, value⟩ := item
      rw [emplaceAll, List.foldl_cons, ← emplaceAll, ih]
      by_cases heq : key = name
      · subst heq
        rw [lookup_emplace_self]
        cases entries.lookup key <;> simp
      · have hbeq : (key == name) = false := by simpa using heq
        rw [lookup_emplace_ne heq, List.lookup_cons, hbeq]

/-- Emplacing keeps the keys distinct. -/
theorem nodup_keys_emplace (hkeys : (entries.map Prod.fst).Nodup) :
    ((emplace before entries key value).map Prod.fst).Nodup := by
  cases hfound : entries.lookup key with
  | some found => simpa [emplace, hfound] using hkeys
  | none =>
      refine ((emplace_perm hfound).map Prod.fst).nodup_iff.mpr (List.nodup_cons.mpr ⟨?_, hkeys⟩)
      intro hmem
      obtain ⟨entry, hentry, rfl⟩ := List.mem_map.mp hmem
      have hne := List.lookup_eq_none_iff.mp hfound entry hentry
      simp at hne

theorem nodup_keys_emplaceAll (items : List (Key × Value))
    (hkeys : (entries.map Prod.fst).Nodup) :
    ((emplaceAll before entries items).map Prod.fst).Nodup := by
  induction items generalizing entries with
  | nil => exact hkeys
  | cons item rest ih => exact ih (nodup_keys_emplace hkeys)

theorem isSome_lookup_iff : (entries.lookup key).isSome ↔ key ∈ entries.map Prod.fst := by
  rw [Option.isSome_iff_ne_none, Ne, List.lookup_eq_none_iff, not_forall]
  simp only [List.mem_map, not_forall, bne_iff_ne, ne_eq, not_not]
  constructor
  · rintro ⟨entry, hentry, heq⟩
    exact ⟨entry, hentry, heq.symm⟩
  · rintro ⟨entry, hentry, heq⟩
    exact ⟨entry, hentry, heq.symm⟩

/-- With distinct keys a lookup finds every entry. -/
theorem lookup_eq_some_iff (hkeys : (entries.map Prod.fst).Nodup) :
    entries.lookup key = some value ↔ (key, value) ∈ entries := by
  induction entries with
  | nil => simp
  | cons entry rest ih =>
      obtain ⟨name, first⟩ := entry
      obtain ⟨hfresh, hrest⟩ := List.nodup_cons.mp hkeys
      by_cases heq : key = name
      · subst heq
        have habsent : (key, value) ∉ rest := fun hmem =>
          hfresh (List.mem_map.mpr ⟨_, hmem, rfl⟩)
        simp [habsent, eq_comm]
      · have hbeq : (key == name) = false := by simpa using heq
        simp [List.lookup_cons, hbeq, ih hrest, heq]

/-- What a lookup finds does not depend on the order of the entries. -/
theorem lookup_perm {others : List (Key × Value)} (hperm : others.Perm entries)
    (hkeys : (entries.map Prod.fst).Nodup) (key : Key) : others.lookup key = entries.lookup key := by
  apply Option.ext
  intro value
  rw [lookup_eq_some_iff ((hperm.map Prod.fst).nodup_iff.mpr hkeys), lookup_eq_some_iff hkeys]
  exact hperm.mem_iff

end RttHttp.OrderedMap
