import SerialAta.Storage.Cells
/-!
# SerialAta.Storage.Store

A **store** of a fixed number of words, read and changed one at a time.

The words lie on pages. Pages on which nothing has been written are all one blank page,
so words that were never written take up next to nothing. Nobody outside needs to
know of pages: `Store.get` is the view, and `Store.get_zeros`, `Store.get_ofPrefix` and
`Store.get_modify` say what each operation does to it.
-/

namespace SerialAta

namespace Store

/-- Words of a page. -/
def pageWords : Nat := 1024

/-- A page of a store. -/
abbrev Page := Vector UInt32 pageWords

/-- A page with nothing on it. -/
def Page.blank : Page := .replicate pageWords 0

/-- The number of pages that hold `size` words. -/
def pageCount (size : Nat) : Nat := (size + (pageWords - 1)) / pageWords

theorem page_lt {size i : Nat} (h : i < size) : i / pageWords < pageCount size := by
  simp only [pageCount, pageWords]
  omega

theorem offset_lt (i : Nat) : i % pageWords < pageWords :=
  Nat.mod_lt i (by decide)

end Store

/-- A store of `size` words. -/
structure Store (size : Nat) where
  /-- The pages. What the last one holds beyond the size is out of reach. -/
  pages : Vector Store.Page (Store.pageCount size)

namespace Store

variable {size : Nat}

/-- A store with every word zero. -/
def zeros (size : Nat) : Store size := ⟨.replicate _ .blank⟩

instance : Inhabited (Store size) := ⟨zeros size⟩

/-- A store whose first `filled` words are given by `f`, with zeros after them. -/
def ofPrefix (size filled : Nat) (f : Nat → UInt32) : Store size :=
  ⟨.ofFn fun page =>
    let first := page.val * pageWords
    if filled ≤ first then .blank
    else .ofFn fun offset =>
      if first + offset.val < filled then f (first + offset.val) else 0⟩

/-- The word at an index; beyond the end there are only zeros. -/
def get (s : Store size) (i : Nat) : UInt32 :=
  if h : i < size then
    have page_ok := page_lt h
    have offset_ok := offset_lt i
    s.pages[i / pageWords][i % pageWords]
  else 0

/-- The store with the word at an index changed by `f`. Beyond the end nothing
changes. -/
def modify (s : Store size) (i : Nat) (f : UInt32 → UInt32) : Store size :=
  if i < size then
    match s with
    | ⟨pages⟩ =>
      ⟨Cells.modifyAt pages (i / pageWords) fun page => Cells.modifyAt page (i % pageWords) f⟩
  else s

/-- The store with its words from `start` on replaced by `values`, as far as it goes. -/
def overlayAt (s : Store size) (start : Nat) : (values : List UInt32) → Store size
  | [] => s
  | x :: xs => (s.modify start fun _ => x).overlayAt (start + 1) xs

/-- The `count` words from `start` on. -/
def slice (s : Store size) (start count : Nat) : List UInt32 :=
  (List.range count).map fun k => s.get (start + k)

/-- All words in order. -/
def toArray (s : Store size) : Array UInt32 :=
  .ofFn fun i : Fin size => s.get i

/-! ### What the operations do to the words -/

theorem get_of_lt (s : Store size) {i : Nat} (h : i < size) :
    have page_ok := page_lt h
    have offset_ok := offset_lt i
    s.get i = s.pages[i / pageWords][i % pageWords] :=
  dif_pos h

theorem get_of_le (s : Store size) {i : Nat} (h : size ≤ i) : s.get i = 0 :=
  dif_neg (Nat.not_lt.mpr h)

@[simp] theorem get_zeros (size i : Nat) : (zeros size).get i = 0 := by
  unfold get
  split
  · simp [zeros, Page.blank]
  · rfl

theorem get_ofPrefix (size filled : Nat) (f : Nat → UInt32) (i : Nat) :
    (ofPrefix size filled f).get i = if i < size ∧ i < filled then f i else 0 := by
  unfold get
  have hi : i / pageWords * pageWords + i % pageWords = i := Nat.div_add_mod' i pageWords
  by_cases hs : i < size
  · rw [dif_pos hs]
    simp only [ofPrefix, Vector.getElem_ofFn, hs, true_and]
    by_cases hf : filled ≤ i / pageWords * pageWords
    · have : ¬i < filled := by omega
      simp [hf, this, Page.blank]
    · simp [hf, hi]
  · simp [hs]

theorem pages_modify (s : Store size) {i : Nat} (h : i < size) (f : UInt32 → UInt32) :
    (s.modify i f).pages =
      Cells.modifyAt s.pages (i / pageWords) fun page => Cells.modifyAt page (i % pageWords) f := by
  rw [modify, if_pos h]

theorem get_modify (s : Store size) (i : Nat) (f : UInt32 → UInt32) (j : Nat) :
    (s.modify i f).get j = if i = j ∧ j < size then f (s.get j) else s.get j := by
  by_cases hj : j < size
  · have page_ok := page_lt hj
    have offset_ok := offset_lt j
    simp only [hj, and_true]
    by_cases hi : i < size
    · rw [get_of_lt _ hj, get_of_lt _ hj]
      simp only [pages_modify s hi, Cells.getElem_modifyAt]
      by_cases hp : i / pageWords = j / pageWords
      · simp only [if_pos hp, Cells.getElem_modifyAt]
        by_cases ho : i % pageWords = j % pageWords
        · have : i = j := by
            rw [← Nat.div_add_mod' i pageWords, ← Nat.div_add_mod' j pageWords, hp, ho]
          rw [if_pos ho, if_pos this]
        · have : i ≠ j := fun h => ho (h ▸ rfl)
          rw [if_neg ho, if_neg this]
      · have : i ≠ j := fun h => hp (h ▸ rfl)
        simp only [if_neg hp, if_neg this]
    · have : i ≠ j := by omega
      rw [modify, if_neg hi, if_neg this]
  · rw [get_of_le _ (Nat.le_of_not_lt hj), get_of_le _ (Nat.le_of_not_lt hj)]
    simp [hj]

theorem get_overlayAt (s : Store size) (start : Nat) (values : List UInt32) (j : Nat) :
    (s.overlayAt start values).get j =
      if start ≤ j ∧ j < size then values.getD (j - start) (s.get j) else s.get j := by
  induction values generalizing s start with
  | nil => simp [overlayAt]
  | cons x xs ih =>
    rw [overlayAt, ih, get_modify]
    by_cases hj : j < size
    · simp only [hj, and_true]
      by_cases hs : start = j
      · subst hs
        rw [if_neg (by omega), if_pos rfl, if_pos (Nat.le_refl _), Nat.sub_self]
        rfl
      · rw [if_neg hs]
        by_cases h : start ≤ j
        · obtain ⟨k, hk⟩ : ∃ k, j - start = k + 1 := ⟨j - start - 1, by omega⟩
          rw [if_pos (by omega), if_pos h, hk, List.getD_cons_succ]
          congr 1
          omega
        · rw [if_neg (by omega), if_neg h]
    · simp [hj]

@[simp] theorem length_slice (s : Store size) (start count : Nat) :
    (s.slice start count).length = count := by
  simp [slice]

@[simp] theorem size_toArray (s : Store size) : s.toArray.size = size := by
  simp [toArray]

end Store

end SerialAta
