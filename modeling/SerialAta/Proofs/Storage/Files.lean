import SerialAta.Storage.Directory
/-!
# SerialAta.Proofs.Storage.Files

**A file is read as it was written** (`Directory.read_of_write`), and whether it can be written is a
matter of its name (`Directory.exists_write_iff`); a name under which a file can be read will do
(`Directory.exists_write_of_read`).

A name is followed from folder to folder, so that a place where no folder stands can only be the
last one on the way (`follow_insert`). That is why a file entered there changes nothing about how
its own name is followed.
-/

namespace SerialAta

/-- What comes of two steps if nothing goes wrong. -/
theorem bind_eq_ok_iff {ε α β : Type} {first : Except ε α} {next : α → Except ε β} {b : β} :
    first >>= next = .ok b ↔ ∃ a, first = .ok a ∧ next a = .ok b := by
  cases first with
  | error e => exact ⟨nofun, fun ⟨_, h, _⟩ => nomatch h⟩
  | ok a => exact ⟨fun h => ⟨a, rfl, h⟩, fun ⟨_, h, hnext⟩ => Except.ok.inj h ▸ hnext⟩

theorem eq_ok_of_toOption {ε α : Type} {result : Except ε α} {a : α}
    (h : result.toOption = some a) : result = .ok a := by
  cases result with
  | error e => cases h
  | ok a' => exact congrArg Except.ok (Option.some.inj h)

namespace Directory

variable {d d' : Directory} {place target goal : Place} {part name : String}
  {rest : List String} {bytes : Bytes}

/-! ### Entries -/

theorem entryAt?_home (d : Directory) (h : place.names = []) : d.entryAt? place = some .folder :=
  if_pos h

/-- The entry that was put at a place. -/
theorem entryAt?_insert (d : Directory) (h : target.names ≠ []) (entry : DirectoryEntry) :
    (d.insert target entry).entryAt? target = some entry := by
  rw [entryAt?, if_neg h, insert, List.lookup_cons, BEq.rfl]

theorem lookup_filter_of_ne (h : place ≠ target) (entries : List (Place × DirectoryEntry)) :
    (entries.filter fun e => e.1 != target).lookup place = entries.lookup place := by
  induction entries with
  | nil => rfl
  | cons e entries ih =>
      by_cases he : e.1 = target
      · have hmiss : (place == e.1) = false := beq_false_of_ne (he ▸ h)
        rw [List.filter_cons_of_neg (by simp [he]), ih, List.lookup_cons, hmiss]
      · rw [List.filter_cons_of_pos (by simp [he]), List.lookup_cons, List.lookup_cons, ih]

/-- The entries at other places are as they were. -/
theorem entryAt?_insert_of_ne (d : Directory) (h : place ≠ target) (entry : DirectoryEntry) :
    (d.insert target entry).entryAt? place = d.entryAt? place := by
  have hmiss : (place == target) = false := beq_false_of_ne h
  simp only [entryAt?, insert, List.lookup_cons, hmiss, lookup_filter_of_ne h]

/-! ### Ways -/

/-- A way goes on from where its first step leads. -/
theorem follow_cons_eq_ok_iff :
    d.follow place (part :: rest) = .ok goal ↔
      ∃ next, d.enter place part = .ok next ∧ d.follow next rest = .ok goal :=
  bind_eq_ok_iff

/-- Steps are made from folders only. -/
theorem entryAt?_of_enter (h : d.enter place part = .ok goal) :
    d.entryAt? place = some .folder := by
  unfold enter at h
  split at h
  · cases h
  · cases h
  · assumption

/-- A step depends on nothing but what stands where it starts. -/
theorem enter_congr (h : d'.entryAt? place = d.entryAt? place) :
    d'.enter place part = d.enter place part := by
  rw [enter, enter, h]

/-- An entry put where no folder stands is not on the way to anywhere. -/
theorem follow_insert (htarget : d.entryAt? target ≠ some .folder) (entry : DirectoryEntry)
    (h : d.follow place rest = .ok goal) :
    (d.insert target entry).follow place rest = .ok goal := by
  induction rest generalizing place with
  | nil => exact h
  | cons part rest ih =>
      obtain ⟨next, hstep, hrest⟩ := follow_cons_eq_ok_iff.mp h
      have hne : place ≠ target := fun heq => htarget (heq ▸ entryAt?_of_enter hstep)
      rw [← enter_congr (entryAt?_insert_of_ne d hne entry)] at hstep
      exact follow_cons_eq_ok_iff.mpr ⟨next, hstep, ih hrest⟩

/-- A name that ends in a slash leads to a folder if it leads anywhere. -/
theorem entryAt?_of_follow_slash (h : d.follow place (rest ++ [""]) = .ok goal) :
    d.entryAt? goal = some .folder := by
  induction rest generalizing place with
  | nil =>
      obtain ⟨next, hstep, hrest⟩ := follow_cons_eq_ok_iff.mp h
      have hfolder := entryAt?_of_enter hstep
      have hstay : d.enter place "" = .ok place := by
        rw [enter, hfolder]
        rfl
      obtain rfl : place = next := Except.ok.inj (hstay.symm.trans hstep)
      obtain rfl : place = goal := Except.ok.inj hrest
      exact hfolder
  | cons part rest ih =>
      obtain ⟨next, -, hrest⟩ := follow_cons_eq_ok_iff.mp h
      exact ih hrest

/-! ### Files -/

/-- A file is read where its name leads. -/
theorem read_eq_ok_iff :
    d.read name = .ok bytes ↔
      ∃ origin, start name = .ok origin ∧
        ∃ place, d.follow origin (parts name) = .ok place ∧
          d.entryAt? place = some (.file bytes) := by
  simp only [read, bind_eq_ok_iff]
  refine exists_congr fun origin => and_congr_right fun _ =>
    exists_congr fun place => and_congr_right fun _ => ?_
  cases d.entryAt? place with
  | none => exact ⟨nofun, nofun⟩
  | some entry =>
      cases entry with
      | folder => exact ⟨nofun, nofun⟩
      | file content =>
          exact ⟨fun h => Except.ok.inj h ▸ rfl,
            fun h => congrArg Except.ok (DirectoryEntry.file.inj (Option.some.inj h))⟩

/-- A file is entered where its name leads, unless a folder stands there or is meant. -/
theorem write_eq_ok_iff :
    d.write name bytes = .ok d' ↔
      (parts name).getLast? ≠ some "" ∧
        ∃ origin, start name = .ok origin ∧
          ∃ place, d.follow origin (parts name) = .ok place ∧
            d.entryAt? place ≠ some .folder ∧ d' = d.insert place (.file bytes) := by
  by_cases hslash : (parts name).getLast? = some ""
  · simp only [write, if_pos hslash, bind_eq_ok_iff]
    exact ⟨fun ⟨_, _, _, _, h⟩ => (nomatch h), fun ⟨h, _⟩ => (h hslash).elim⟩
  · simp only [write, bind_eq_ok_iff, if_neg hslash]
    rw [and_iff_right hslash]
    refine exists_congr fun origin => and_congr_right fun _ =>
      exists_congr fun place => and_congr_right fun _ => ?_
    cases hentry : d.entryAt? place with
    | none => exact ⟨fun h => ⟨nofun, (Except.ok.inj h).symm⟩, fun h => congrArg Except.ok h.2.symm⟩
    | some entry =>
        cases entry with
        | folder => exact ⟨nofun, fun h => (h.1 rfl).elim⟩
        | file content =>
            exact ⟨fun h => ⟨nofun, (Except.ok.inj h).symm⟩, fun h => congrArg Except.ok h.2.symm⟩

/-- What was written to a file is what it is found to hold. -/
theorem read_of_write (h : d.write name bytes = .ok d') : d'.read name = .ok bytes := by
  obtain ⟨-, origin, horigin, place, hplace, hfile, rfl⟩ := write_eq_ok_iff.mp h
  have hinner : place.names ≠ [] := fun hhome => hfile (entryAt?_home d hhome)
  exact read_eq_ok_iff.mpr ⟨origin, horigin, place, follow_insert hfile _ hplace,
    entryAt?_insert d hinner _⟩

/-- Whether a file can be written has nothing to do with what is to be in it. -/
theorem exists_write_iff (d : Directory) (name : String) (bytes bytes' : Bytes) :
    (∃ d', d.write name bytes = .ok d') ↔ ∃ d', d.write name bytes' = .ok d' := by
  have himp : ∀ bytes bytes' : Bytes,
      (∃ d', d.write name bytes = .ok d') → ∃ d', d.write name bytes' = .ok d' := by
    rintro bytes bytes' ⟨_, h⟩
    obtain ⟨hslash, origin, horigin, place, hplace, hfile, -⟩ := write_eq_ok_iff.mp h
    exact ⟨_, write_eq_ok_iff.mpr ⟨hslash, origin, horigin, place, hplace, hfile, rfl⟩⟩
  exact ⟨himp bytes bytes', himp bytes' bytes⟩

/-- A file that can be read can be written over. -/
theorem exists_write_of_read (h : d.read name = .ok bytes) (bytes' : Bytes) :
    ∃ d', d.write name bytes' = .ok d' := by
  obtain ⟨origin, horigin, place, hplace, hfile⟩ := read_eq_ok_iff.mp h
  have hnotFolder : d.entryAt? place ≠ some .folder := by
    rw [hfile]
    exact nofun
  refine ⟨_, write_eq_ok_iff.mpr ⟨fun hslash => ?_, origin, horigin, place, hplace, hnotFolder,
    rfl⟩⟩
  obtain ⟨around, hparts⟩ := List.getLast?_eq_some_iff.mp hslash
  rw [hparts] at hplace
  exact hnotFolder (entryAt?_of_follow_slash hplace)

end Directory

end SerialAta
