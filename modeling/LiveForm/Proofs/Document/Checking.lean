import LiveForm.Document.Basic
import LiveForm.Proofs.Path.Syntax

/-!
# Checked definitions

What a document that has been checked is known to be like. All checks are about one definition, apart from the one that
keys under one parent are distinct.
-/

set_option autoImplicit false

namespace LiveForm.FieldDef

/-- What is known of a definition that has been checked. -/
structure Checked (d : FieldDef) : Prop where
  key : (Step.name d.key).Writable
  plain : d.kind ≠ .field → d.value = none ∧ d.formula = none
  fields : d.template.isSome → d.fields = []
  items : d.template = none → d.items = []
  itemKeys : ∀ item ∈ d.items, ∀ entry ∈ item.toList, ∃ p, Path.parse entry.1 = .ok p

variable {d : FieldDef} {template : List FieldDef} {parent : Path} {seen : List String} {rest : List FieldDef}

theorem kind_of_template (h : d.template = some template) : d.kind = .array := by
  rw [kind, h]
  rfl

theorem kind_of_fields (h : d.template = none) (hfields : d.fields ≠ []) : d.kind = .group := by
  rw [kind, h, if_neg (by simp), if_neg (by simpa using hfields)]

theorem kind_ne_array (h : d.template = none) : d.kind ≠ .array := by
  rw [kind, h, if_neg (by simp)]
  split <;> simp

/-- The key of every entry is a path if none is found that is not. -/
theorem exists_parse_of_badItemKey? (h : d.badItemKey? = none) {item : Item} (hitem : item ∈ d.items)
    {entry : String × Value} (hentry : entry ∈ item.toList) : ∃ p, Path.parse entry.1 = .ok p := by
  have hkey : entry.1 ∈ d.items.flatMap fun item => item.keys := by
    refine List.mem_flatMap.2 ⟨item, hitem, ?_⟩
    rw [← Std.ExtTreeMap.map_fst_toList_eq_keys]
    exact List.mem_map_of_mem hentry
  have hnone := List.findSome?_eq_none_iff.1 h _ hkey
  cases hparse : Path.parse entry.1 with
  | ok p => exact ⟨p, rfl⟩
  | error fault => simp [hparse] at hnone

theorem check_ok (h : d.check parent = .ok ()) : d.Checked := by
  unfold FieldDef.check at h
  dsimp only at h
  split at h
  · cases h
  next hkey =>
    split at h
    · cases h
    next hplain =>
      split at h
      · cases h
      next hfields =>
        split at h
        · cases h
        next hitems =>
          split at h
          · cases h
          next hitemKeys =>
            refine
              { key := Decidable.not_not.1 hkey
                plain := fun hkind => by simpa [hkind] using hplain
                fields := fun htemplate => ?_
                items := fun htemplate => ?_
                itemKeys := fun item hitem entry hentry => exists_parse_of_badItemKey? hitemKeys hitem hentry }
            · obtain ⟨template, htemplate⟩ := Option.isSome_iff_exists.1 htemplate
              simpa [kind_of_template htemplate] using hfields
            · simpa [kind_ne_array htemplate] using hitems

theorem checkAll_cons (h : FieldDef.checkAll parent seen (d :: rest) = .ok ()) :
    d.key ∉ seen ∧ FieldDef.checkDeep parent d = .ok () ∧ FieldDef.checkAll parent (d.key :: seen) rest = .ok () := by
  rw [FieldDef.checkAll] at h
  split at h
  · cases h
  next hnew =>
    cases hdeep : FieldDef.checkDeep parent d with
    | error e =>
      rw [hdeep] at h
      cases h
    | ok _ =>
      rw [hdeep] at h
      exact ⟨hnew, rfl, h⟩

/-- The definitions below one that has been checked have been checked as well. -/
theorem checkDeep_ok (h : FieldDef.checkDeep parent d = .ok ()) : d.Checked ∧
    ∃ above, FieldDef.checkAll above [] d.fields = .ok () ∧
      ∀ template ∈ d.template, FieldDef.checkAll above [] template = .ok () := by
  obtain ⟨key, value, formula, fields, template, items⟩ := d
  rw [FieldDef.checkDeep.eq_def] at h
  dsimp only at h
  cases hcheck : FieldDef.check ⟨key, value, formula, fields, template, items⟩ parent with
  | error e =>
    rw [hcheck] at h
    cases h
  | ok _ =>
    rw [hcheck] at h
    have hchecked := check_ok hcheck
    refine ⟨hchecked, parent.child (.name key), ?_⟩
    cases template with
    | none => exact ⟨h, fun _ hmem => by cases hmem⟩
    | some template =>
      obtain rfl : fields = [] := hchecked.fields rfl
      exact ⟨rfl, fun _ hmem => Option.some.inj hmem ▸ h⟩

end LiveForm.FieldDef
