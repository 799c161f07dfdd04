import Mathlib.Data.Set.Insert
import Mathlib.Order.Bounds.Basic

/-! # Saturation

A set grows by elements that are ready in it. If readiness is monotone and nothing
outside the set is ready any more, the set is the least one that contains the
elements it started from and is closed.
-/

namespace RttHttp.Saturation

variable {Element : Type*} (ready : Set Element → Element → Prop)

/-- A larger set never takes readiness away. -/
def Persistent : Prop :=
  ∀ small large element, small ⊆ large → ready small element → ready large element

structure Closed (base set : Set Element) : Prop where
  base : base ⊆ set
  closed : ∀ element, ready set element → element ∈ set

/-- The sets that grow out of `base` one ready element at a time. -/
inductive Grows (base : Set Element) : Set Element → Prop
  | refl : Grows base base
  | insert {set : Set Element} {element : Element} (hset : Grows base set)
      (hready : ready set element) : Grows base (insert element set)

variable {ready} {base set : Set Element}

theorem Grows.base_subset (h : Grows ready base set) : base ⊆ set := by
  induction h with
  | refl => exact subset_rfl
  | insert _ _ ih => exact ih.trans (Set.subset_insert _ _)

/-- Whatever was added was ready when it was added. -/
theorem Grows.ready_of_mem (h : Grows ready base set) {element : Element} (helement : element ∈ set) : element ∈ base ∨ ∃ known, ready known element := by
  induction h with
  | refl => exact .inl helement
  | insert _ hready ih =>
      rcases helement with rfl | hmem
      · exact .inr ⟨_, hready⟩
      · exact ih hmem

/-- What has grown is contained in every closed set. -/
theorem Grows.subset_of_closed (hready : Persistent ready) (h : Grows ready base set)
    {other : Set Element} (hother : Closed ready base other) :
    set ⊆ other := by
  induction h with
  | refl => exact hother.base
  | insert _ helement ih =>
      exact Set.insert_subset (hother.closed _ (hready _ _ _ ih helement)) ih

/-- A set that has grown as far as it can is the least closed one. -/
theorem Grows.isLeast (hready : Persistent ready) (h : Grows ready base set)
    (hclosed : ∀ element, ready set element → element ∈ set) :
    IsLeast {other | Closed ready base other} set :=
  ⟨⟨h.base_subset, hclosed⟩, fun _ hother => h.subset_of_closed hready hother⟩

end RttHttp.Saturation
