import RttHttp.Number.Binary
import RttHttp.Text.Bytes

/-! # JSON values

The value type of Boost.JSON. Numbers keep the kind they are held in; objects
keep their members in insertion order.
-/

namespace RttHttp

abbrev Double := Binary .binary64

inductive Json where
  | null
  | bool (value : Bool)
  | int64 (value : Int64)
  | uint64 (value : UInt64)
  | double (value : Double)
  | string (text : Bytes)
  | array (items : List Json)
  | object (members : List (Bytes × Json))
  deriving Repr

abbrev JsonObject := List (Bytes × Json)

namespace JsonObject

def find? (object : JsonObject) (key : Bytes) : Option Json := object.lookup key

def contains (object : JsonObject) (key : Bytes) : Bool := (find? object key).isSome

/-- `object[key] = value`. -/
def set (object : JsonObject) (key : Bytes) (value : Json) : JsonObject :=
  if contains object key then
    object.map fun member => if member.1 = key then (key, value) else member
  else object ++ [(key, value)]

/-- `object.emplace(key, value)`, which keeps a member that is there. -/
def emplace (object : JsonObject) (key : Bytes) (value : Json) : JsonObject :=
  if contains object key then object else object ++ [(key, value)]

def erase (object : JsonObject) (key : Bytes) : JsonObject :=
  object.filter fun member => member.1 ≠ key

theorem find?_nil (name : Bytes) : find? [] name = none := rfl

theorem find?_cons (key : Bytes) (value : Json) (rest : JsonObject) (name : Bytes) :
    find? ((key, value) :: rest) name = if name = key then some value else find? rest name := by
  unfold find?
  rw [List.lookup_cons]
  by_cases hname : name = key
  · simp [hname]
  · have hbeq : (name == key) = false := by simpa using hname
    rw [if_neg hname, hbeq]

theorem find?_set_ne {object : JsonObject} {key other : Bytes} (value : Json) (hne : key ≠ other) :
    find? (set object other value) key = find? object key := by
  have hbeq : (key == other) = false := by simpa using hne
  have hmap : ∀ members : JsonObject,
      (members.map fun member => if member.1 = other then (other, value) else member).lookup key =
        members.lookup key := by
    intro members
    induction members with
    | nil => rfl
    | cons member rest ih =>
        obtain ⟨name, item⟩ := member
        by_cases hname : name = other
        · simp [List.lookup_cons, hname, hbeq, ih]
        · simp [List.lookup_cons, hname, ih]
  unfold set
  split
  · exact hmap object
  · simp [find?, List.lookup_append, List.lookup_cons, hbeq]

theorem find?_set {object : JsonObject} (key : Bytes) (value : Json) (name : Bytes) :
    find? (set object key value) name =
      if name = key then some value else find? object name := by
  by_cases hname : name = key
  · subst hname
    rw [if_pos rfl]
    unfold set
    split
    next hcontains =>
      have hfound : ∀ members : JsonObject, (members.lookup name).isSome →
          (members.map fun member => if member.1 = name then (name, value) else member).lookup name =
            some value := by
        intro members hsome
        induction members with
        | nil => cases hsome
        | cons member rest ih =>
            obtain ⟨other, item⟩ := member
            by_cases hother : other = name
            · simp [hother]
            · have hbeq : (name == other) = false := by simpa using Ne.symm hother
              rw [List.lookup_cons, hbeq] at hsome
              simp [hother, List.lookup_cons, hbeq, ih hsome]
      exact hfound object hcontains
    next hmissing =>
      have hnone : object.lookup name = none := Option.not_isSome_iff_eq_none.mp hmissing
      simp [find?, List.lookup_append, hnone]
  · rw [if_neg hname]
    exact find?_set_ne value hname

theorem find?_erase {object : JsonObject} (key name : Bytes) :
    find? (erase object key) name =
      if name = key then none else find? object name := by
  unfold find? erase
  induction object with
  | nil => simp
  | cons member rest ih =>
      obtain ⟨other, item⟩ := member
      by_cases hother : other = key
      · have hdrop : ((other, item) :: rest).filter (fun member => decide (member.1 ≠ key)) =
            rest.filter fun member => decide (member.1 ≠ key) := List.filter_cons_of_neg (by simpa)
        rw [hdrop, ih]
        split
        next => rfl
        next hname =>
          have hbeq : (name == other) = false := by simpa [hother] using hname
          rw [List.lookup_cons, hbeq]
      · have hkeep : ((other, item) :: rest).filter (fun member => decide (member.1 ≠ key)) =
            (other, item) :: rest.filter fun member => decide (member.1 ≠ key) :=
          List.filter_cons_of_pos (by simpa)
        rw [hkeep, List.lookup_cons, List.lookup_cons]
        by_cases hname : name = other
        · subst hname
          simp [hother]
        · have hbeq : (name == other) = false := by simpa using hname
          rw [hbeq]
          exact ih

theorem mem_set {object : JsonObject} {key : Bytes} {value : Json} {member : Bytes × Json}
    (h : member ∈ set object key value) : member = (key, value) ∨ member ∈ object := by
  unfold set at h
  split at h
  next =>
    obtain ⟨found, hfound, rfl⟩ := List.mem_map.mp h
    split
    next => exact .inl rfl
    next => exact .inr hfound
  next =>
    rcases List.mem_append.mp h with hold | hnew
    · exact .inr hold
    · exact .inl (List.mem_singleton.mp hnew)

end JsonObject

end RttHttp
