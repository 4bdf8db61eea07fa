/-!
# SerialAta.Storage.Cells

**Runs of cells**, laid over others and cut into pieces.

* `overlay`: values replace the first of the existing cells. Values without a cell are
  dropped and cells without a value stay (`getElem?_overlay`).
* `Cells.modifyAt`: one cell of a vector changed (`Cells.getElem_modifyAt`).
* `chunks`: a run cut into pieces of one size, of which the last may be shorter. Nothing
  is lost (`flatten_chunks`), and a place in a piece is a place in the run
  (`getElem?_chunks`). In pieces of one size put together, an element is found by division
  (`getElem?_flatMap_of_length`).
-/

namespace SerialAta

/-- The list `cells` with its first cells replaced by `values`. -/
def overlay (values cells : List α) : List α :=
  values.take cells.length ++ cells.drop values.length

@[simp] theorem length_overlay (values cells : List α) :
    (overlay values cells).length = cells.length := by
  simp only [overlay, List.length_append, List.length_take, List.length_drop]
  omega

theorem getElem?_overlay (values cells : List α) (i : Nat) :
    (overlay values cells)[i]? =
      if i < cells.length then values[i]? <|> cells[i]? else none := by
  simp only [overlay, List.getElem?_append, List.length_take, List.getElem?_take,
    List.getElem?_drop]
  by_cases hc : i < cells.length <;> by_cases hv : i < values.length
  · rw [if_pos (by omega), if_pos hc, if_pos hc]
    simp [List.getElem?_eq_getElem hv]
  · rw [if_neg (by omega), if_pos hc, List.getElem?_eq_none (by omega : values.length ≤ i)]
    rw [show values.length + (i - min cells.length values.length) = i by omega]
    rfl
  · rw [if_neg (by omega), if_neg hc, List.getElem?_eq_none (by omega)]
  · rw [if_neg (by omega), if_neg hc, List.getElem?_eq_none (by omega)]

/-- The cells of `v` with the one at `i` changed by `f`, if there is one. -/
def Cells.modifyAt (v : Vector α n) (i : Nat) (f : α → α) : Vector α n :=
  match v with
  | ⟨cells, h⟩ => ⟨cells.modify i f, by simpa using h⟩

theorem Cells.getElem_modifyAt (v : Vector α n) (i : Nat) (f : α → α) {j : Nat} (hj : j < n) :
    (modifyAt v i f)[j] = if i = j then f v[j] else v[j] := by
  rcases v with ⟨cells, rfl⟩
  simp [modifyAt, Array.getElem_modify]

/-- A list cut into pieces of `size` elements, the last of which may be shorter.
Pieces of size zero there are none. -/
def chunks (size : Nat) (xs : List α) : List (List α) :=
  if size = 0 ∨ xs = [] then [] else xs.take size :: chunks size (xs.drop size)
termination_by xs.length
decreasing_by
  have h : ¬(size = 0 ∨ xs = []) := by assumption
  have := List.length_pos_iff.mpr (not_or.mp h).2
  simp only [List.length_drop]
  omega

@[simp] theorem chunks_nil (size : Nat) : chunks size ([] : List α) = [] := by
  rw [chunks]
  simp

theorem chunks_of_ne_nil {size : Nat} (hs : 0 < size) {xs : List α} (hx : xs ≠ []) :
    chunks size xs = xs.take size :: chunks size (xs.drop size) := by
  rw [chunks, if_neg (by simp [hx]; omega)]

theorem flatten_chunks {size : Nat} (hs : 0 < size) (xs : List α) :
    (chunks size xs).flatten = xs := by
  fun_induction chunks size xs with
  | case1 xs h =>
    rcases h with h | h
    · omega
    · simp [h]
  | case2 xs h ih => simp [ih]

/-- No piece is empty, and none is longer than it may be. -/
theorem length_of_mem_chunks {size : Nat} {xs piece : List α} (h : piece ∈ chunks size xs) :
    1 ≤ piece.length ∧ piece.length ≤ size := by
  fun_induction chunks size xs with
  | case1 xs hstop => cases h
  | case2 xs hgo ih =>
    rcases List.mem_cons.mp h with rfl | hrest
    · have hpos := List.length_pos_iff.mpr (not_or.mp hgo).2
      rw [List.length_take]
      omega
    · exact ih hrest

theorem length_chunks {size : Nat} (hs : 0 < size) (xs : List α) :
    (chunks size xs).length = (xs.length + (size - 1)) / size := by
  fun_induction chunks size xs with
  | case1 xs hstop =>
    obtain rfl := hstop.resolve_left (by omega)
    simp only [List.length_nil]
    rw [Nat.div_eq_of_lt (by omega)]
  | case2 xs hgo ih =>
    have hpos := List.length_pos_iff.mpr (not_or.mp hgo).2
    rw [List.length_cons, ih, List.length_drop, ← Nat.add_div_right _ hs]
    by_cases hlong : size ≤ xs.length
    · congr 1
      omega
    · -- The piece is the last one, and not whole.
      rw [Nat.div_eq_of_lt_le (k := 1) (by omega) (by omega),
        Nat.div_eq_of_lt_le (k := 1) (by omega) (by omega)]

/-- A place in one of the pieces. -/
theorem getElem?_chunks {size : Nat} (xs : List α) (i : Nat) {j : Nat} (hj : j < size) :
    ((chunks size xs)[i]?.bind fun piece => piece[j]?) = xs[i * size + j]? := by
  fun_induction chunks size xs generalizing i with
  | case1 xs hstop =>
    obtain rfl := hstop.resolve_left (by omega)
    simp
  | case2 xs hgo ih =>
    cases i with
    | zero => simp [List.getElem?_take_of_lt hj]
    | succ i =>
      have hindex : size + (i * size + j) = (i + 1) * size + j := by
        rw [Nat.succ_mul]
        omega
      rw [List.getElem?_cons_succ, ih, List.getElem?_drop, hindex]

/-- Pieces of one size, put together. -/
theorem getElem?_flatMap_of_length {size : Nat} (hs : 0 < size) {f : α → List β}
    (hf : ∀ x, (f x).length = size) (xs : List α) (i : Nat) :
    (xs.flatMap f)[i]? = xs[i / size]?.bind fun x => (f x)[i % size]? := by
  induction xs generalizing i with
  | nil => simp
  | cons x xs ih =>
    rw [List.flatMap_cons, List.getElem?_append, hf]
    by_cases hi : i < size
    · rw [if_pos hi, Nat.div_eq_of_lt hi, Nat.mod_eq_of_lt hi]
      rfl
    · have hle : size ≤ i := Nat.le_of_not_lt hi
      rw [if_neg hi, ih, Nat.div_eq_sub_div hs hle, List.getElem?_cons_succ, Nat.mod_eq_sub_mod hle]

end SerialAta
