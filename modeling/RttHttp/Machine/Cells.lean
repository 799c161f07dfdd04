import Mathlib.Data.List.Nodup
import Mathlib.Logic.Function.Basic

/-! # Writing several cells

Values are written to cells one after the other. Where the cells are distinct, each
of them ends with its own value, and a cell that is not written keeps what it has.
-/

namespace RttHttp.Machine

variable {Cell Content : Type*} [DecidableEq Cell]

/-- Write the values to the cells in turn, as far as there are values. -/
def writeAll (store : Cell → Content) (cells : List Cell) (values : List Content) : Cell → Content :=
  (cells.zip values).foldl (fun store entry => Function.update store entry.1 entry.2) store

variable {store : Cell → Content} {cells : List Cell} {values : List Content}

@[simp] theorem writeAll_nil : writeAll store [] values = store := rfl

@[simp] theorem writeAll_cons (cell : Cell) (value : Content) :
    writeAll store (cell :: cells) (value :: values) =
      writeAll (Function.update store cell value) cells values := rfl

/-- A cell that is not written keeps its value. -/
theorem writeAll_of_notMem {cell : Cell} (hcell : cell ∉ cells) :
    writeAll store cells values cell = store cell := by
  induction cells generalizing store values with
  | nil => rfl
  | cons first rest ih =>
      obtain ⟨hfirst, hrest⟩ : cell ≠ first ∧ cell ∉ rest := by simpa using hcell
      cases values with
      | nil => rfl
      | cons value others =>
          rw [writeAll_cons, ih hrest, Function.update_of_ne hfirst]

/-- Among distinct cells, the cell at a position ends with the value at that position. -/
theorem writeAll_getElem? (hdistinct : cells.Nodup) {k : Nat} {cell : Cell} {value : Content}
    (hcell : cells[k]? = some cell) (hvalue : values[k]? = some value) :
    writeAll store cells values cell = value := by
  induction cells generalizing store values k with
  | nil => cases hcell
  | cons first rest ih =>
      obtain ⟨hfirst, hrest⟩ := List.nodup_cons.mp hdistinct
      cases values with
      | nil => cases hvalue
      | cons other others =>
          rw [writeAll_cons]
          cases k with
          | zero =>
              rw [List.getElem?_cons_zero, Option.some.injEq] at hcell hvalue
              subst hcell
              rw [writeAll_of_notMem hfirst, Function.update_self, hvalue]
          | succ k =>
              rw [List.getElem?_cons_succ] at hcell hvalue
              exact ih hrest hcell hvalue

end RttHttp.Machine
