import RttHttp.Machine.OrderedMap
import RttHttp.Model.Describe
import Mathlib.Logic.Relation

/-! # The closure of type names

`types` starts from the type names that a document mentions and takes one pending
name after the other. It ends with an entry for every name that can be reached over
registered dependencies, in whatever order the names are taken.
-/

namespace RttHttp.Model

open Relation (ReflTransGen)

variable {Codec : Type}

/-- A registered dependency. -/
def TypeCatalog.Depends (catalog : TypeCatalog Codec) (name dependency : Bytes) : Prop :=
  ∃ binding, catalog.findName name = some binding ∧ dependency ∈ binding.registration.dependencies

namespace ObjectModel

variable (model : ObjectModel Codec)

/-- The entry of one name: its descriptor, or why it has none. -/
def typeEntry (name : Bytes) : Json :=
  match model.catalog.findName name with
  | some binding => .object binding.registration.descriptor
  | none => .object
      [(bytes "kind", .null), (bytes "jsonSupported", .bool false),
        (bytes "reason", .string ((model.diagnostics.lookup name).getD
          (bytes "no registered HTTP JSON codec")))]

/-- The dependencies that a name adds to the pending ones. -/
def typeDependencies (name : Bytes) : List Bytes :=
  match model.catalog.findName name with
  | some binding => binding.registration.dependencies
  | none => []

theorem mem_typeDependencies {name dependency : Bytes} :
    dependency ∈ model.typeDependencies name ↔ model.catalog.Depends name dependency := by
  unfold typeDependencies TypeCatalog.Depends
  cases model.catalog.findName name with
  | none => simp
  | some binding => simp

end ObjectModel

/-- What the loop of `types` works on. -/
structure Gathering where
  pending : List Bytes
  result : JsonObject

namespace Gathering

/-- One round, in which `name` is taken and `rest` is still pending. -/
def take (model : ObjectModel Codec) (name : Bytes) (rest : List Bytes) (result : JsonObject) :
    Gathering :=
  if JsonObject.contains result name then ⟨rest, result⟩
  else ⟨(model.typeDependencies name).reverse ++ rest, result ++ [(name, model.typeEntry name)]⟩

/-- A round in which any pending name is taken. -/
inductive Takes (model : ObjectModel Codec) : Gathering → Gathering → Prop
  | take {gathering : Gathering} (name : Bytes) (rest : List Bytes)
      (hpending : gathering.pending.Perm (name :: rest)) :
      Takes model gathering (Gathering.take model name rest gathering.result)

/-- The names with an entry. -/
def keys (gathering : Gathering) : List Bytes := gathering.result.map Prod.fst

/-- The dependencies of names without an entry, which may still become pending. -/
def ahead (model : ObjectModel Codec) (gathering : Gathering) : Nat :=
  ((model.catalog.types.filter fun entry => entry.1 ∉ gathering.keys).map fun entry =>
    entry.2.registration.dependencies.length).sum

/-- What is left to do. -/
def left (model : ObjectModel Codec) (gathering : Gathering) : Nat :=
  gathering.pending.length + gathering.ahead model

/-- The invariant of the loop. -/
structure Gathers (model : ObjectModel Codec) (references : List Bytes) (gathering : Gathering) :
    Prop where
  distinct : gathering.keys.Nodup
  entries : ∀ entry ∈ gathering.result, entry.2 = model.typeEntry entry.1
  started : ∀ name ∈ references, name ∈ gathering.keys ∨ name ∈ gathering.pending
  followed : ∀ name ∈ gathering.keys, ∀ dependency, model.catalog.Depends name dependency →
    dependency ∈ gathering.keys ∨ dependency ∈ gathering.pending
  reached : ∀ name, name ∈ gathering.keys ∨ name ∈ gathering.pending →
    ∃ reference ∈ references, ReflTransGen model.catalog.Depends reference name

variable {model : ObjectModel Codec} {references : List Bytes} {gathering next : Gathering}

theorem contains_iff {name : Bytes} :
    JsonObject.contains gathering.result name = true ↔ name ∈ gathering.keys :=
  OrderedMap.isSome_lookup_iff

theorem Gathers.initial (hpending : ∀ name, name ∈ gathering.pending ↔ name ∈ references)
    (hresult : gathering.result = []) : Gathers model references gathering := by
  obtain ⟨pending, result⟩ := gathering
  subst hresult
  refine ⟨List.nodup_nil, by simp, fun name hname => .inr ((hpending name).mpr hname),
    by simp [keys], ?_⟩
  rintro name (hkey | hname)
  · cases hkey
  · exact ⟨name, (hpending name).mp hname, .refl⟩

/-- A round keeps the invariant. -/
theorem Gathers.step (h : Gathers model references gathering) (hstep : Takes model gathering next) :
    Gathers model references next := by
  obtain ⟨name, rest, hpending⟩ := hstep
  have hmem : ∀ other, other ∈ gathering.pending ↔ other = name ∨ other ∈ rest := fun other => by
    rw [hpending.mem_iff, List.mem_cons]
  obtain ⟨pending, result⟩ := gathering
  unfold Gathering.take
  by_cases hcontains : JsonObject.contains result name
  · rw [if_pos hcontains]
    have hname : name ∈ keys ⟨pending, result⟩ := contains_iff.mp hcontains
    -- The name that is dropped has an entry.
    have hkeep : ∀ other, other ∈ keys ⟨pending, result⟩ ∨ other ∈ pending →
        other ∈ keys ⟨rest, result⟩ ∨ other ∈ rest := by
      rintro other (hkey | hother)
      · exact .inl hkey
      · rcases (hmem other).mp hother with rfl | hrest
        · exact .inl hname
        · exact .inr hrest
    refine ⟨h.distinct, h.entries, fun other hother => hkeep other (h.started other hother),
      fun other hother dependency hdepends =>
        hkeep dependency (h.followed other hother dependency hdepends), ?_⟩
    rintro other (hkey | hrest)
    · exact h.reached other (.inl hkey)
    · exact h.reached other (.inr ((hmem other).mpr (.inr hrest)))
  · rw [if_neg hcontains]
    have hfresh : name ∉ keys ⟨pending, result⟩ := fun hmem => hcontains (contains_iff.mpr hmem)
    have hkeys : keys ⟨(model.typeDependencies name).reverse ++ rest,
        result ++ [(name, model.typeEntry name)]⟩ = keys ⟨pending, result⟩ ++ [name] := by
      simp [keys]
    have hkeep : ∀ other, other ∈ keys ⟨pending, result⟩ ∨ other ∈ pending →
        other ∈ keys ⟨pending, result⟩ ++ [name] ∨
          other ∈ (model.typeDependencies name).reverse ++ rest := by
      rintro other (hkey | hother)
      · exact .inl (List.mem_append_left _ hkey)
      · rcases (hmem other).mp hother with rfl | hrest
        · exact .inl (List.mem_append_right _ List.mem_cons_self)
        · exact .inr (List.mem_append_right _ hrest)
    refine ⟨?_, ?_, ?_, ?_, ?_⟩
    · rw [hkeys, List.nodup_append]
      refine ⟨h.distinct, List.nodup_singleton _, ?_⟩
      intro other hother same hsame
      rw [List.mem_singleton.mp hsame]
      rintro rfl
      exact hfresh hother
    · intro entry hentry
      rcases List.mem_append.mp hentry with hold | hnew
      · exact h.entries entry hold
      · rw [List.mem_singleton.mp hnew]
    · intro other hother
      rw [hkeys]
      exact hkeep other (h.started other hother)
    · intro other hother dependency hdepends
      rw [hkeys] at hother ⊢
      rcases List.mem_append.mp hother with hold | hnew
      · exact hkeep dependency (h.followed other hold dependency hdepends)
      · rw [List.mem_singleton.mp hnew] at hdepends
        refine .inr (List.mem_append_left _ (List.mem_reverse.mpr ?_))
        exact model.mem_typeDependencies.mpr hdepends
    · have hreached : ∃ reference ∈ references, ReflTransGen model.catalog.Depends reference name :=
        h.reached name (.inr ((hmem name).mpr (.inl rfl)))
      intro other hother
      rw [hkeys] at hother
      rcases hother with hkey | hother
      · rcases List.mem_append.mp hkey with hold | hnew
        · exact h.reached other (.inl hold)
        · rw [List.mem_singleton.mp hnew]
          exact hreached
      · rcases List.mem_append.mp hother with hdependency | hrest
        · obtain ⟨reference, hreference, hpath⟩ := hreached
          have hdepends := model.mem_typeDependencies.mp (List.mem_reverse.mp hdependency)
          exact ⟨reference, hreference, hpath.tail hdepends⟩
        · exact h.reached other (.inr ((hmem other).mpr (.inr hrest)))

/-- The name that gets an entry takes its dependencies out of those ahead. -/
theorem ahead_append {name : Bytes} {value : Json} {pending rest : List Bytes} {result : JsonObject}
    (hfresh : name ∉ keys ⟨pending, result⟩) :
    ahead model ⟨rest, result ++ [(name, value)]⟩ + (model.typeDependencies name).length ≤
      ahead model ⟨pending, result⟩ := by
  have hkeys : ∀ other, other ∈ keys ⟨rest, result ++ [(name, value)]⟩ ↔
      other ∈ keys ⟨pending, result⟩ ∨ other = name := by simp [keys]
  unfold ahead ObjectModel.typeDependencies TypeCatalog.findName
  induction model.catalog.types with
  | nil => simp
  | cons entry others ih =>
      obtain ⟨key, binding⟩ := entry
      by_cases hkey : key = name
      · subst hkey
        have hdrop : key ∈ keys ⟨rest, result ++ [(key, value)]⟩ := (hkeys key).mpr (.inr rfl)
        simp only [List.filter_cons, hdrop, hfresh, not_true_eq_false, not_false_eq_true,
          decide_false, decide_true, if_true, Bool.false_eq_true, if_false, List.map_cons,
          List.sum_cons, List.lookup_cons_self]
        omega
      · have hbeq : (name == key) = false := by simpa using Ne.symm hkey
        have hsame : key ∈ keys ⟨rest, result ++ [(name, value)]⟩ ↔
            key ∈ keys ⟨pending, result⟩ := by simp [hkeys, hkey]
        rw [List.lookup_cons, hbeq]
        by_cases hdone : key ∈ keys ⟨pending, result⟩
        · simpa [List.filter_cons, hsame, hdone] using ih
        · simp only [List.filter_cons, hsame, hdone, not_false_eq_true, decide_true, if_true,
            List.map_cons, List.sum_cons]
          omega

/-- Every round leaves less to do. -/
theorem left_lt (hstep : Takes model gathering next) : next.left model < gathering.left model := by
  obtain ⟨name, rest, hpending⟩ := hstep
  have hlength : gathering.pending.length = rest.length + 1 := by
    rw [hpending.length_eq, List.length_cons]
  obtain ⟨pending, result⟩ := gathering
  unfold Gathering.take
  by_cases hcontains : JsonObject.contains result name
  · rw [if_pos hcontains]
    have hsame : ahead model ⟨rest, result⟩ = ahead model ⟨pending, result⟩ := rfl
    simp only [left, hsame] at hlength ⊢
    omega
  · rw [if_neg hcontains]
    have hfresh : name ∉ keys ⟨pending, result⟩ := fun hmem => hcontains (contains_iff.mpr hmem)
    have hless : ahead model ⟨(model.typeDependencies name).reverse ++ rest,
        result ++ [(name, model.typeEntry name)]⟩ + (model.typeDependencies name).length ≤
        ahead model ⟨pending, result⟩ := ahead_append hfresh
    simp only [left, List.length_append, List.length_reverse] at hlength ⊢
    omega

end Gathering

/-- An entry for every name that the given ones lead to, and for no other. -/
structure Closes (model : ObjectModel Codec) (references : List Bytes) (result : JsonObject) :
    Prop where
  distinct : (result.map Prod.fst).Nodup
  keys : ∀ name, name ∈ result.map Prod.fst ↔
    ∃ reference ∈ references, ReflTransGen model.catalog.Depends reference name
  entries : ∀ entry ∈ result, entry.2 = model.typeEntry entry.1

section Closure

variable {model : ObjectModel Codec} {references : List Bytes} {result : JsonObject}

theorem Gathering.Gathers.closes (h : Gathers model references ⟨[], result⟩) :
    Closes model references result := by
  refine ⟨h.distinct, fun name => ⟨fun hname => h.reached name (.inl hname), ?_⟩, h.entries⟩
  rintro ⟨reference, hreference, hpath⟩
  induction hpath with
  | refl => exact (h.started reference hreference).resolve_right List.not_mem_nil
  | tail _ hdepends ih => exact (h.followed _ ih _ hdepends).resolve_right List.not_mem_nil

theorem Closes.find? (h : Closes model references result) {name : Bytes}
    (hname : ∃ reference ∈ references, ReflTransGen model.catalog.Depends reference name) :
    JsonObject.find? result name = some (model.typeEntry name) := by
  obtain ⟨entry, hentry, rfl⟩ := List.mem_map.mp ((h.keys name).mpr hname)
  rw [← h.entries entry hentry]
  exact (OrderedMap.lookup_eq_some_iff h.distinct).mpr hentry

/-- What is found under a name does not depend on the order of the rounds, nor on
the order of the given names. -/
theorem Closes.find?_eq {others : List Bytes} {other : JsonObject}
    (h : Closes model references result) (hother : Closes model others other)
    (hsame : ∀ name, name ∈ references ↔ name ∈ others) (name : Bytes) :
    JsonObject.find? result name = JsonObject.find? other name := by
  by_cases hname : ∃ reference ∈ references, ReflTransGen model.catalog.Depends reference name
  · have hagain : ∃ reference ∈ others, ReflTransGen model.catalog.Depends reference name := by
      obtain ⟨reference, hreference, hpath⟩ := hname
      exact ⟨reference, (hsame reference).mp hreference, hpath⟩
    rw [h.find? hname, hother.find? hagain]
  · have hnone : ∀ {references : List Bytes} {result : JsonObject},
        Closes model references result →
        (¬ ∃ reference ∈ references, ReflTransGen model.catalog.Depends reference name) →
        JsonObject.find? result name = none := by
      intro references result hcloses habsent
      rw [← hcloses.keys] at habsent
      exact Option.not_isSome_iff_eq_none.mp (mt OrderedMap.isSome_lookup_iff.mp habsent)
    have hagain : ¬ ∃ reference ∈ others, ReflTransGen model.catalog.Depends reference name := by
      rintro ⟨reference, hreference, hpath⟩
      exact hname ⟨reference, (hsame reference).mpr hreference, hpath⟩
    rw [hnone h hname, hnone hother hagain]

/-- Every run of rounds to its end gathers the closure. -/
theorem closes_of_takes {pending : List Bytes}
    (hpending : ∀ name, name ∈ pending ↔ name ∈ references)
    (hrun : ReflTransGen (Gathering.Takes model) ⟨pending, []⟩ ⟨[], result⟩) :
    Closes model references result := by
  have hgathers : ∀ {gathering : Gathering},
      ReflTransGen (Gathering.Takes model) ⟨pending, []⟩ gathering →
      gathering.Gathers model references := by
    intro gathering hreached
    induction hreached with
    | refl => exact .initial hpending rfl
    | tail _ hstep ih => exact ih.step hstep
  exact (hgathers hrun).closes

end Closure

namespace ObjectModel

variable (model : ObjectModel Codec)

theorem typesLoop_cons (fuel : Nat) (name : Bytes) (pending : List Bytes) (result : JsonObject) :
    model.typesLoop (fuel + 1) (name :: pending) result =
      model.typesLoop fuel (Gathering.take model name pending result).pending
        (Gathering.take model name pending result).result := by
  rw [typesLoop, Gathering.take, typeDependencies, typeEntry]
  split
  next => rfl
  next =>
    cases model.catalog.findName name with
    | none => rfl
    | some binding => rfl

/-- With enough fuel the loop takes names until none is pending. -/
theorem typesLoop_takes {fuel : Nat} {pending : List Bytes} {result : JsonObject}
    (hfuel : Gathering.left model ⟨pending, result⟩ ≤ fuel) :
    ReflTransGen (Gathering.Takes model) ⟨pending, result⟩
      ⟨[], model.typesLoop fuel pending result⟩ := by
  induction fuel generalizing pending result with
  | zero =>
      have hempty : pending = [] := by
        rw [← List.length_eq_zero_iff]
        simp only [Gathering.left] at hfuel
        omega
      subst hempty
      exact .refl
  | succ fuel ih =>
      cases pending with
      | nil => exact .refl
      | cons name rest =>
          have hstep : Gathering.Takes model ⟨name :: rest, result⟩
              (Gathering.take model name rest result) := .take name rest (.refl _)
          have hless := Gathering.left_lt hstep
          rw [typesLoop_cons]
          generalize Gathering.take model name rest result = after at hstep hless ⊢
          obtain ⟨next, more⟩ := after
          have hleft : Gathering.left model ⟨next, more⟩ ≤ fuel := by omega
          exact .head hstep (ih hleft)

theorem takes_types (references : List Bytes) :
    ReflTransGen (Gathering.Takes model) ⟨references.reverse, []⟩ ⟨[], model.types references⟩ := by
  refine model.typesLoop_takes ?_
  have hall : Gathering.ahead model ⟨references.reverse, []⟩ =
      (model.catalog.types.map fun entry => entry.2.registration.dependencies.length).sum := by
    simp [Gathering.ahead, Gathering.keys]
  rw [Gathering.left, hall, List.length_reverse]
  omega

theorem closes_types (references : List Bytes) :
    Closes model references (model.types references) :=
  closes_of_takes (fun _ => List.mem_reverse) (model.takes_types references)

/-- A name that was noted is a key. -/
theorem contains_types {references : List Bytes} {name : Bytes} (hname : name ∈ references) :
    JsonObject.contains (model.types references) name = true :=
  OrderedMap.isSome_lookup_iff.mpr (((model.closes_types references).keys name).mpr
    ⟨name, hname, .refl⟩)

/-- A registered dependency of a key is a key. -/
theorem contains_types_of_depends {references : List Bytes} {name dependency : Bytes}
    (hname : JsonObject.contains (model.types references) name = true)
    (hdepends : model.catalog.Depends name dependency) :
    JsonObject.contains (model.types references) dependency = true := by
  have hcloses := model.closes_types references
  obtain ⟨reference, hreference, hpath⟩ :=
    (hcloses.keys name).mp (OrderedMap.isSome_lookup_iff.mp hname)
  exact OrderedMap.isSome_lookup_iff.mpr
    ((hcloses.keys dependency).mpr ⟨reference, hreference, hpath.tail hdepends⟩)

end ObjectModel

end RttHttp.Model
