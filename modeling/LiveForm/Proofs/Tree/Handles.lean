import LiveForm.Proofs.Formula.Growing

/-!
# Handles

Whatever is done to a tree, no two nodes share a handle, and new nodes get handles that have not been used. This holds of
trees that are not well-formed otherwise, too.
-/

set_option autoImplicit false

namespace LiveForm

/-- No two nodes have the same handle, and all handles in use are below the next one. -/
structure FieldTree.Handled (t : FieldTree) : Prop where
  nodup : t.fields.ids.Nodup
  root : rootId ∉ t.fields.ids
  bounded : t.Bounded

/-- A change of a tree. -/
inductive TreeEdit where
  | insert (parent : NodeId) (key : Step) (kind : Kind)
  | insertTemplate (array : NodeId)
  | copySubtree (source parent : NodeId) (key : Step)
  | removeSubtree (id : NodeId)
  | rekey (id : NodeId) (key : Step)
  | setValue (id : NodeId) (value : Value)
  | setFormula (id : NodeId) (formula : Option String)
  | setFormulaValue (id : NodeId) (value : Option Value)
  /-- The data of a node is changed at will. -/
  | modify (id : NodeId) (change : Node → Node)
  /-- The tree is changed at will, as long as its handles stay in order. -/
  | replace (t : FieldTree) (h : t.Handled)

/-- What a change makes of a tree, unless it fails. -/
def TreeEdit.run (t : FieldTree) : TreeEdit → Except FormError FieldTree
  | insert parent key kind => (t.insert parent key kind).map Prod.snd
  | insertTemplate array => (t.insertTemplate array).map Prod.snd
  | copySubtree source parent key => (t.copySubtree source parent key).map Prod.snd
  | removeSubtree id => (t.removeSubtree id).map Prod.snd
  | rekey id key => (t.rekey id key).map Prod.snd
  | setValue id value => t.setValue id value
  | setFormula id formula => t.setFormula id formula
  | setFormulaValue id value => (t.setFormulaValue id value).map Prod.snd
  | modify id change => .ok (t.modify id change)
  | replace t' _ => .ok t'

namespace FieldTree

variable {t t' : FieldTree} {id parent source : NodeId} {key : Step} {new : Forest}

theorem WellFormed.handled (h : t.WellFormed) : t.Handled :=
  ⟨h.nodup, fun hmem => h.ne_root _ hmem rfl, h.bounded⟩

theorem Handled.of_blank (h : t.Handled) (hblank : t'.blank = t.blank) : t'.Handled := by
  have hids : t'.fields.ids = t.fields.ids := by
    rw [← Forest.ids_blank, ← Forest.ids_blank t.fields]
    exact congrArg (fun t : FieldTree => t.fields.ids) hblank
  have hnext := next_of_blank hblank
  exact ⟨hids ▸ h.nodup, hids ▸ h.root, hnext ▸ h.bounded.1, by rw [hids, hnext]; exact h.bounded.2⟩

/-- New nodes are added under handles that have not been used. -/
theorem Handled.graft (h : t.Handled) (hnodup : new.ids.Nodup) {next : NodeId} (hle : t.next ≤ next)
    (hnew : ∀ x ∈ new.ids, t.next ≤ x ∧ x < next) :
    ({ t.graft parent new with next := next } : FieldTree).Handled := by
  have hdisjoint : ∀ x ∈ t.fields.ids, x ∉ new.ids := fun x hx hmem =>
    Nat.not_lt.2 (hnew x hmem).1 (h.bounded.2 x hx)
  have hmem {x : NodeId} (hx : x ∈ (t.graft parent new).fields.ids) : x ∈ t.fields.ids ∨ x ∈ new.ids :=
    (mem_ids_graft.1 hx).imp_right And.right
  refine ⟨nodup_ids_graft h.nodup hnodup hdisjoint, fun hroot => ?_, Nat.lt_of_lt_of_le h.bounded.1 hle,
    fun x hx => ?_⟩
  · rcases hmem hroot with hold | hin
    · exact h.root hold
    · exact Nat.not_lt.2 (hnew _ hin).1 h.bounded.1
  · rcases hmem hx with hold | hin
    · exact Nat.lt_of_lt_of_le (h.bounded.2 x hold) hle
    · exact (hnew x hin).2

theorem Handled.insertNode (h : t.Handled) {node : Node} {id : NodeId}
    (hinsert : t.insertNode parent key node = .ok (id, t')) : t'.Handled := by
  obtain ⟨-, -, rfl⟩ := insertNode_effect hinsert
  exact h.graft (by simp [Forest.ids]) (Nat.le_succ _) (by simp [Forest.ids])

theorem Handled.copySubtree (h : t.Handled) {created : List NodeId}
    (hcopy : t.copySubtree source parent key = .ok (created, t')) : t'.Handled := by
  obtain ⟨l, hl, -, -, rfl⟩ := copySubtree_effect hcopy
  have hbelow : t.below? source = some l.children := (locate?_eq_some hl).2.1
  have hchildren : l.children.ids.Nodup := by
    by_cases hroot : source = rootId
    · rw [hroot, below?_root] at hbelow
      exact Option.some.inj hbelow ▸ h.nodup
    · rw [below?_of_ne_root t hroot] at hbelow
      exact (Forest.nodup_below? h.nodup hbelow).1
  exact h.graft (nodup_ids_copied hchildren) (Nat.le_add_right _ _) fun _ => bounds_of_mem_ids_copied

theorem Handled.of_sublist (h : t.Handled) (hnext : t'.next = t.next) (hsub : t'.fields.ids.Sublist t.fields.ids) :
    t'.Handled :=
  ⟨h.nodup.sublist hsub, fun hmem => h.root (hsub.subset hmem), hnext ▸ h.bounded.1,
    fun x hx => hnext ▸ h.bounded.2 x (hsub.subset hx)⟩

theorem Handled.insertTemplate (h : t.Handled) {array id : NodeId} (hinsert : t.insertTemplate array = .ok (id, t')) :
    t'.Handled := by
  obtain ⟨-, hinsert⟩ := insertTemplate_effect hinsert
  exact h.insertNode hinsert

theorem Handled.removeSubtree (h : t.Handled) {removed : List NodeId}
    (hremove : t.removeSubtree id = .ok (removed, t')) : t'.Handled := by
  obtain ⟨-, -, -, rfl⟩ := removeSubtree_effect hremove
  exact h.of_sublist rfl (Forest.sublist_ids_erase _)

theorem Handled.rekey (h : t.Handled) {old : Path} (hrekey : t.rekey id key = .ok (old, t')) : t'.Handled := by
  rcases rekey_effect hrekey with ⟨-, rfl⟩ | ⟨-, rfl, -⟩
  · exact ⟨h.nodup, h.root, h.bounded⟩
  · exact h.of_sublist rfl (by rw [withKey, Forest.ids_rekey])

theorem Handled.modify (h : t.Handled) {change : Node → Node} : (t.modify id change).Handled := by
  refine h.of_sublist ?_ ?_
  · unfold FieldTree.modify
    split <;> rfl
  · unfold FieldTree.modify
    split
    · exact .refl _
    · rw [Forest.ids_modify]

end FieldTree

theorem Except.exists_of_map_ok {ε α β : Type} {r : Except ε α} {f : α → β} {b : β} (h : r.map f = .ok b) :
    ∃ a, r = .ok a ∧ f a = b := by
  cases r with
  | error e => simp [Except.map] at h
  | ok a => exact ⟨a, rfl, by simpa [Except.map] using h⟩

namespace TreeEdit

variable {t t' : FieldTree} {edit : TreeEdit}

/-- A change of what a node holds, which leaves the kind of the node alone. -/
def SetsData : TreeEdit → Prop
  | setValue .. => True
  | setFormula .. => True
  | setFormulaValue .. => True
  | _ => False

/-- What the change of a tree into another one has done. -/
inductive Effect (t : FieldTree) : TreeEdit → FieldTree → Prop
  | insert {parent id : NodeId} {key : Step} {kind : Kind} {t' : FieldTree}
      (h : t.insert parent key kind = .ok (id, t')) : Effect t (insert parent key kind) t'
  | insertTemplate {array id : NodeId} {t' : FieldTree} (h : t.insertTemplate array = .ok (id, t')) :
      Effect t (insertTemplate array) t'
  | copySubtree {source parent : NodeId} {key : Step} {created : List NodeId} {t' : FieldTree}
      (h : t.copySubtree source parent key = .ok (created, t')) : Effect t (copySubtree source parent key) t'
  | removeSubtree {id : NodeId} {removed : List NodeId} {t' : FieldTree}
      (h : t.removeSubtree id = .ok (removed, t')) : Effect t (removeSubtree id) t'
  | rekey {id : NodeId} {key : Step} {old : Path} {t' : FieldTree} (h : t.rekey id key = .ok (old, t')) :
      Effect t (rekey id key) t'
  | set {edit : TreeEdit} (id : NodeId) (change : Node → Node) (hsets : edit.SetsData)
      (hkind : ∀ n, (change n).kind = n.kind) (htemplate : ∀ n, (change n).isTemplate = n.isTemplate) :
      Effect t edit (t.modify id change)
  | modify (id : NodeId) (change : Node → Node) : Effect t (modify id change) (t.modify id change)
  | replace {t' : FieldTree} (h : t'.Handled) : Effect t (replace t' h) t'

theorem effect (hrun : edit.run t = .ok t') : Effect t edit t' := by
  cases edit with
  | insert parent key kind =>
    obtain ⟨⟨id, _⟩, hr, rfl⟩ := Except.exists_of_map_ok hrun
    exact .insert hr
  | insertTemplate array =>
    obtain ⟨⟨id, _⟩, hr, rfl⟩ := Except.exists_of_map_ok hrun
    exact .insertTemplate hr
  | copySubtree source parent key =>
    obtain ⟨⟨created, _⟩, hr, rfl⟩ := Except.exists_of_map_ok hrun
    exact .copySubtree hr
  | removeSubtree id =>
    obtain ⟨⟨removed, _⟩, hr, rfl⟩ := Except.exists_of_map_ok hrun
    exact .removeSubtree hr
  | rekey id key =>
    obtain ⟨⟨old, _⟩, hr, rfl⟩ := Except.exists_of_map_ok hrun
    exact .rekey hr
  | setValue id value =>
    obtain rfl := FieldTree.setValue_ok hrun
    exact .set id _ trivial (fun _ => rfl) fun _ => rfl
  | setFormula id formula =>
    obtain rfl := FieldTree.setFormula_ok hrun
    exact .set id _ trivial (fun _ => rfl) fun _ => rfl
  | setFormulaValue id value =>
    obtain ⟨⟨changed, _⟩, hr, rfl⟩ := Except.exists_of_map_ok hrun
    obtain rfl := FieldTree.setFormulaValue_ok hr
    exact .set id _ trivial (fun _ => rfl) fun _ => rfl
  | modify id change => exact Except.ok.inj hrun ▸ .modify id change
  | replace t' ht' => exact Except.ok.inj hrun ▸ .replace ht'

/-- No change brings the handles of a tree out of order. -/
theorem handled (h : t.Handled) (hrun : edit.run t = .ok t') : t'.Handled := by
  cases effect hrun with
  | insert hr => exact h.insertNode hr
  | insertTemplate hr => exact h.insertTemplate hr
  | copySubtree hr => exact h.copySubtree hr
  | removeSubtree hr => exact h.removeSubtree hr
  | rekey hr => exact h.rekey hr
  | set => exact h.modify
  | modify => exact h.modify
  | replace ht' => exact ht'

end TreeEdit

end LiveForm
