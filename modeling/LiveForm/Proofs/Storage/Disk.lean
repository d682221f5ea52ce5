import LiveForm.Proofs.Outcome
import LiveForm.Storage.Disk

/-!
# A disk keeps what is written

A file is put where no folder is. Only folders lead on, so that a path which leads somewhere still does after a file has been
put, and the path of a file that has been written leads to it.
-/

set_option autoImplicit false

namespace LiveForm.Disk

variable {d d' : Disk} {place place' here : List String} {entry : DiskEntry} {pieces : List String} {path text : String}

theorem get?_put (h : place ≠ []) : (d.put place entry).get? place = some entry := by
  simp [get?, put, h]

theorem get?_put_of_ne (h : here ≠ place) : (d.put place entry).get? here = d.get? here := by
  have hbeq {other : List String} (hother : other = place) : (here == other) = false :=
    beq_false_of_ne fun heq => h (heq.trans hother)
  have hlookup : (d.put place entry).entries.lookup here = d.entries.lookup here := by
    rw [put, List.lookup_cons, hbeq rfl]
    dsimp only
    induction d.entries with
    | nil => rfl
    | cons first rest ih =>
      obtain ⟨other, e⟩ := first
      by_cases hother : other = place
      · rw [List.filter_cons_of_neg (by simpa using hother), ih, List.lookup_cons, hbeq hother]
      · rw [List.filter_cons_of_pos (by simpa using hother), List.lookup_cons, List.lookup_cons, ih]
  simp only [get?, hlookup]

/-- A file that is put where no folder is stands in the way of no path that leads somewhere. -/
theorem follow_put (hplace : d.get? place ≠ some .folder) (h : d.follow here pieces = .ok place') :
    (d.put place (.file text)).follow here pieces = .ok place' := by
  induction pieces generalizing here with
  | nil => exact h
  | cons piece rest ih =>
    rw [follow] at h
    split at h
    next hfolder =>
      have hne : here ≠ place := fun heq => hplace (heq ▸ hfolder)
      split at h
      next hname =>
        rw [follow, get?_put_of_ne hne, hfolder]
        simp only [hname, if_true]
        exact ih h
      next => cases h
    next => cases h
    next => cases h

/-- The only piece of an empty path is empty. -/
theorem ne_empty_of_getLast? {name : String} (h : (path.splitOn "/").getLast? = some name) (hname : name ≠ "") :
    path ≠ "" := by
  rintro rfl
  have hpieces : "".splitOn "/" = [""] := by
    rw [String.splitOn, if_neg (by decide), String.splitOnAux]
    rfl
  rw [hpieces] at h
  exact hname (Option.some.inj h).symm

/-- A text that is written is put at the place that its path leads to, once the folders on the way are made. -/
theorem writeFile_ok (h : writeFile path text d = .ok () d') : path ≠ "" ∧ isPath path = true ∧
    ∃ (d₁ : Disk) (place : List String), d₁.follow [] (path.splitOn "/") = .ok place ∧ d₁.get? place ≠ some .folder ∧
      d' = d₁.put place (.file text) := by
  unfold writeFile at h
  dsimp only at h
  split at h
  · cases h
  obtain ⟨_, d₁, -, h⟩ := exists_of_bind_ok h
  split at h
  · cases h
  next hpath =>
  cases hname : (path.splitOn "/").getLast? with
  | none =>
    simp only [hname] at h
    cases h
  | some name =>
    simp only [hname] at h
    split at h
    · cases h
    next hfile =>
    obtain ⟨_, _, ⟨⟩, h⟩ := exists_of_bind_ok h
    cases hfollow : d₁.follow [] (path.splitOn "/") with
    | error fault =>
      simp only [hfollow] at h
      cases h
    | ok place =>
      simp only [hfollow] at h
      obtain ⟨_, _, ⟨⟩, h⟩ := exists_of_bind_ok h
      split at h
      · cases h
      next hplace =>
      cases h
      exact ⟨ne_empty_of_getLast? hname fun hempty => hfile (by simp [hempty]), by simpa using hpath, d₁, place, hfollow,
        hplace, rfl⟩

theorem find_of_follow (hpath : path ≠ "") (his : isPath path = true) (hfollow : d.follow [] (path.splitOn "/") = .ok place)
    (hplace : d.get? place = some entry) : d.find path = .ok entry := by
  have hempty : path.isEmpty = false := by simpa using hpath
  simp [find, hempty, his, hfollow, bind, Except.bind, hplace]

/-- What has been written at a path is found there. -/
theorem find_of_writeFile (h : writeFile path text d = .ok () d') : d'.find path = .ok (.file text) := by
  obtain ⟨hpath, his, d₁, place, hfollow, hplace, rfl⟩ := writeFile_ok h
  have hne : place ≠ [] := by
    rintro rfl
    exact hplace rfl
  exact find_of_follow hpath his (follow_put hplace hfollow) (get?_put hne)

instance : Storage.Lawful Disk where
  holds_of_write {path text s s'} h := by
    change (s'.find path).isOk = true
    rw [find_of_writeFile h]
    rfl
  read_of_write {path text s s'} h := by
    change (s'.find path >>= _) = _
    rw [find_of_writeFile h]
    rfl

end LiveForm.Disk
