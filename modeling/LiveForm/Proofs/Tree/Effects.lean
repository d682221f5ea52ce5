import LiveForm.Proofs.Tree.Rekeying
import LiveForm.Proofs.Tree.Removal

/-!
# What operations do

An operation on a tree that succeeds adds a forest below a node, takes a node away with all that is below it, gives a node
another key, or changes the data of a node. What holds of a tree after an operation follows from these.
-/

set_option autoImplicit false

namespace LiveForm.FieldTree

variable {t t' : FieldTree} {id parent source : NodeId} {key : Step}

/-- An operation on a node goes on with the place of the node. -/
theorem require_bind_ok {α : Type} {f : Located → Except FormError α} {a : α} (h : t.require id >>= f = .ok a) :
    ∃ l, t.locate? id = some l ∧ f l = .ok a := by
  unfold require at h
  cases hl : t.locate? id with
  | none =>
    rw [hl] at h
    cases h
  | some l =>
    rw [hl] at h
    exact ⟨l, rfl, h⟩

/-- A new node goes on with the check that its parent can have it. -/
theorem checkInsert_bind_ok {α : Type} {r : Except FormError α} {a : α}
    (h : (t.checkInsert parent key >>= fun _ => r) = .ok a) : t.checkInsert parent key = .ok () ∧ r = .ok a := by
  cases hcheck : t.checkInsert parent key with
  | error e =>
    rw [hcheck] at h
    cases h
  | ok _ =>
    rw [hcheck] at h
    exact ⟨rfl, h⟩

/-- A node is added under the next handle. -/
theorem insertNode_effect {node : Node} (h : t.insertNode parent key node = .ok (id, t')) :
    t.checkInsert parent key = .ok () ∧ id = t.next ∧
      t' = { t.graft parent (.cons t.next key node .nil .nil) with next := t.next + 1 } := by
  obtain ⟨hcheck, h⟩ := checkInsert_bind_ok h
  obtain ⟨rfl, rfl⟩ := Prod.mk.inj (Except.ok.inj h)
  exact ⟨hcheck, rfl, rfl⟩

/-- A template is an empty group under the index of templates. -/
theorem insertTemplate_effect {array : NodeId} (h : t.insertTemplate array = .ok (id, t')) :
    (∃ l, t.locate? array = some l ∧ l.node.kind = .array) ∧
      t.insertNode array (.index templateIndex) { kind := .group, isTemplate := true } = .ok (id, t') := by
  obtain ⟨l, hl, h⟩ := require_bind_ok h
  by_cases hkind : l.node.kind = .array
  · simp only [hkind, ne_eq, not_true_eq_false, if_false] at h
    exact ⟨⟨l, hl, hkind⟩, h⟩
  · simp [hkind, bind, Except.bind, throw, throwThe, MonadExceptOf.throw] at h

/-- The copy of a node with everything below it, under the next handles. -/
def copied (t : FieldTree) (l : Located) (key : Step) : Forest :=
  .cons t.next key { l.node.forCopy with isTemplate := false }
    (l.children.copy fun id => t.next + 1 + l.children.copyOrder.idxOf id) .nil

/-- A copy is added under the next handles. -/
theorem copySubtree_effect {created : List NodeId} (h : t.copySubtree source parent key = .ok (created, t')) :
    ∃ l, t.locate? source = some l ∧ t.checkInsert parent key = .ok () ∧
      created = List.range' t.next (l.children.copyOrder.length + 1) ∧
      t' = { t.graft parent (t.copied l key) with next := t.next + (l.children.copyOrder.length + 1) } := by
  obtain ⟨l, hl, h⟩ := require_bind_ok h
  obtain ⟨hcheck, h⟩ := checkInsert_bind_ok h
  obtain ⟨rfl, rfl⟩ := Prod.mk.inj (Except.ok.inj h)
  exact ⟨l, hl, hcheck, rfl, rfl⟩

/-- A node that is removed is in the tree and is not the root. -/
theorem removeSubtree_effect {removed : List NodeId} (h : t.removeSubtree id = .ok (removed, t')) :
    id ≠ rootId ∧ t.contains id = true ∧ removed = t.postorderFrom id ∧ t' = t.without id := by
  rw [removeSubtree_eq] at h
  split at h
  · cases h
  next hroot =>
  split at h
  next hcontains =>
    obtain ⟨rfl, rfl⟩ := Prod.mk.inj (Except.ok.inj h)
    exact ⟨hroot, hcontains, rfl, rfl⟩
  · cases h

/-- The root gets whatever key it is given, and another node a key that none of its siblings has. -/
theorem rekey_effect {old : Path} (h : t.rekey id key = .ok (old, t')) :
    (id = rootId ∧ t' = { t with rootKey := some key }) ∨
    (id ≠ rootId ∧ t' = t.withKey id key ∧ ∃ parent q, t.place? id = some q ∧ q.parent = some parent ∧
      ∀ holder, t.childByKey? parent key = some holder → holder = id) := by
  obtain ⟨l, hl, h⟩ := require_bind_ok h
  have hplace : t.place? id = some l.place := (locate?_eq_some hl).1
  by_cases hroot : id = rootId
  · subst hroot
    obtain rfl : t.locatedRoot = l := Option.some.inj hl
    exact .inl ⟨rfl, (congrArg Prod.snd (Except.ok.inj h)).symm⟩
  · refine .inr ⟨hroot, ?_⟩
    rw [place?_of_ne_root t hroot, Option.map_eq_some_iff] at hplace
    obtain ⟨s, hs, hspot⟩ := hplace
    have hparent : l.parent = some (s.parent.getD rootId) := congrArg Place.parent hspot.symm
    simp only [hparent] at h
    cases hholder : t.childByKey? (s.parent.getD rootId) key with
    | none =>
      simp only [hholder] at h
      refine ⟨(congrArg Prod.snd (Except.ok.inj h)).symm, _, _, (locate?_eq_some hl).1, hparent, ?_⟩
      simp [hholder]
    | some holder =>
      simp only [hholder] at h
      by_cases hsame : holder = id
      · simp only [hsame, ne_eq, not_true_eq_false, if_false] at h
        refine ⟨(congrArg Prod.snd (Except.ok.inj h)).symm, _, _, (locate?_eq_some hl).1, hparent, ?_⟩
        simp [hholder, hsame]
      · simp [hsame, bind, Except.bind, throw, throwThe, MonadExceptOf.throw] at h

theorem setValue_ok {value : Value} (h : t.setValue id value = .ok t') : t' = t.modify id fun n => { n with value } := by
  obtain ⟨-, -, h⟩ := require_bind_ok h
  exact (Except.ok.inj h).symm

theorem setFormula_ok {formula : Option String} (h : t.setFormula id formula = .ok t') :
    t' = t.modify id fun n => { n with formula } := by
  obtain ⟨-, -, h⟩ := require_bind_ok h
  exact (Except.ok.inj h).symm

theorem setFormulaValue_ok {value : Option Value} {changed : Bool} (h : t.setFormulaValue id value = .ok (changed, t')) :
    t' = t.modify id fun n => { n with formulaValue := value } := by
  obtain ⟨l, -, h⟩ := require_bind_ok h
  exact (congrArg Prod.snd (Except.ok.inj h)).symm

theorem rootKey_modify (t : FieldTree) (id : NodeId) (change : Node → Node) :
    (t.modify id change).rootKey = t.rootKey := by
  unfold FieldTree.modify
  split <;> rfl

end LiveForm.FieldTree
