import LiveForm.Proofs.Tree.Built
import LiveForm.Proofs.Tree.Carrying
import LiveForm.Proofs.Tree.Finding
import LiveForm.Proofs.Tree.Walks
import Mathlib.Logic.Relation

/-!
# How a tree hangs together

Seen from its nodes, a tree is a web of links: each node names its parent, and each parent lists its children. In a tree
that operations have built the two agree, the walk from parent to parent ends at the root, and paths tell nodes apart.
Walks through the tree and removals therefore deal with each node of a subtree once.
-/

set_option autoImplicit false

namespace LiveForm

namespace FieldTree

variable {t t' : FieldTree} {id parent upper x y : NodeId} {p q : Place} {removed : List NodeId}

/-- The parent of a node. The root has none. -/
def parent? (t : FieldTree) (x : NodeId) : Option NodeId :=
  (t.locate? x).bind Located.parent

/-- Going from parent to parent, one comes from a node to another one. -/
def Ascends (t : FieldTree) (x upper : NodeId) : Prop :=
  Relation.ReflTransGen (fun a b => t.parent? a = some b) x upper

/-- The removal of a node returns and takes away the nodes of its subtree, children before their parents. All other nodes
stay as they are, but that the parent of the removed node has a child less. -/
structure Removes (t : FieldTree) (id : NodeId) (removed : List NodeId) (t' : FieldTree) : Prop where
  nodup : removed.Nodup
  mem : ∀ x, x ∈ removed ↔ t.contains x = true ∧ t.Ascends x id
  order : removed.Pairwise fun a b => ¬ t.Ascends b a
  contains : ∀ x, t'.contains x = true ↔ t.contains x = true ∧ x ∉ removed
  place : ∀ x, x ∉ removed → t'.place? x = t.place? x
  children : ∀ y, y ∉ removed → t'.children y =
    if t.parent? id = some y then (t.children y).filter (·.id ≠ id) else t.children y

/-- Parents and children agree, all nodes are connected to the root, paths lead to the nodes that have them, and both walks
through the tree and every removal deal with each node of a subtree once, in the order of the tree. -/
structure Linked (t : FieldTree) : Prop where
  root : t.contains rootId = true ∧ t.parent? rootId = none
  parents : ∀ x, t.contains x = true → x ≠ rootId → ∃ parent, t.parent? x = some parent ∧ t.contains parent = true
  /-- A node occurs once among the children of its parent, and among those of no other node. -/
  children : ∀ x y, t.contains x = true →
    ((t.children y).map Child.id).count x = if t.parent? x = some y then 1 else 0
  live : ∀ y, ∀ c ∈ t.children y, t.contains c.id = true
  ascends : ∀ x, t.contains x = true → t.Ascends x rootId
  keys : ∀ y, ((t.children y).map Child.key).Nodup
  found : ∀ x, t.contains x = true → t.find? (t.path x) = some x
  preorder : (t.preorderFrom rootId).Nodup ∧ (∀ x, x ∈ t.preorderFrom rootId ↔ t.contains x = true) ∧
    (t.preorderFrom rootId).Pairwise fun a b => ¬ t.Ascends a b
  postorder : (t.postorderFrom rootId).Nodup ∧ (∀ x, x ∈ t.postorderFrom rootId ↔ t.contains x = true) ∧
    (t.postorderFrom rootId).Pairwise fun a b => ¬ t.Ascends b a
  removal : ∀ id, id ≠ rootId → t.contains id = true → ∃ removed t',
    t.removeSubtree id = .ok (removed, t') ∧ t.Removes id removed t'

theorem parent?_eq (t : FieldTree) (x : NodeId) : t.parent? x = (t.place? x).bind Place.parent := by
  unfold parent? place?
  cases t.locate? x <;> rfl

theorem parent?_eq_some : t.parent? x = some parent ↔ ∃ q, t.place? x = some q ∧ q.parent = some parent := by
  rw [parent?_eq, Option.bind_eq_some_iff]

theorem contains_iff : t.contains x = true ↔ ∃ q, t.place? x = some q := by
  rw [contains_eq, Option.isSome_iff_exists]

/-- A node is at or below its parent and all that is above its parent. -/
theorem within_of_ascends (ht : t.Keyed) (hq : t.place? x = some q) (h : t.Ascends x upper) : t.Within upper x := by
  induction h with
  | refl => exact within_refl hq
  | tail _ hparent ih =>
    obtain ⟨p, hp, hpp⟩ := parent?_eq_some.1 hparent
    obtain ⟨g, hg⟩ := exists_below?_parent ht hp hpp
    obtain ⟨p', hp'⟩ := exists_place?_of_below? hg
    exact ((within_refl hp').child ht hp hpp).trans ih

/-- From a node, the walk from parent to parent comes by all that is above it. -/
theorem ascends_of_within (ht : t.Keyed) (hq : t.place? x = some q) (h : t.Within upper x) : t.Ascends x upper := by
  induction hlength : q.path.steps.length generalizing x q with
  | zero =>
    -- only the root can have an empty path
    have hroot : x = rootId := by
      by_contra hroot
      obtain ⟨-, above, key, -, -, -, hpath, -⟩ := exists_place?_parent ht hroot hq
      simp [hpath, Path.child] at hlength
    subst hroot
    have hupper : upper = rootId := by
      by_contra hne
      exact not_within_root ht hne h
    subst hupper
    exact .refl
  | succ n ih =>
    by_cases heq : x = upper
    · subst heq
      exact .refl
    have hroot : x ≠ rootId := by
      rintro rfl
      exact not_within_root ht (Ne.symm heq) h
    obtain ⟨above, p, key, hparent, hp, -, hpath, -⟩ := exists_place?_parent ht hroot hq
    refine Relation.ReflTransGen.head (parent?_eq_some.2 ⟨q, hq, hparent⟩) (ih hp (h.above ht heq hq hparent) ?_)
    simpa [hpath, Path.child] using hlength

/-- Being at or below a node means to come to it from parent to parent. -/
theorem within_iff_ascends (ht : t.Keyed) (hx : t.contains x = true) : t.Within upper x ↔ t.Ascends x upper := by
  obtain ⟨q, hq⟩ := contains_iff.1 hx
  exact ⟨ascends_of_within ht hq, within_of_ascends ht hq⟩

theorem ascends_root (ht : t.Keyed) (hx : t.contains x = true) : t.Ascends x rootId := by
  obtain ⟨q, hq⟩ := contains_iff.1 hx
  exact ascends_of_within ht hq (within_root ht hq)

theorem within_iff_contains (ht : t.Keyed) : t.Within upper x ↔ t.contains x = true ∧ t.Ascends x upper := by
  refine ⟨fun h => ?_, fun ⟨hx, h⟩ => (within_iff_ascends ht hx).2 h⟩
  have hx : t.contains x = true := contains_iff.2 h.exists_place?
  exact ⟨hx, (within_iff_ascends ht hx).1 h⟩

theorem nodup_children (ht : t.Keyed) (y : NodeId) : ((t.children y).map Child.id).Nodup := by
  rw [children_eq]
  cases hg : t.below? y with
  | none => exact List.nodup_nil
  | some g => exact (nodup_below? ht hg).1.sublist (Forest.sublist_heads g)

/-- A node is listed once by its parent, and by no other node. -/
theorem count_children (ht : t.Keyed) (hx : t.contains x = true) :
    ((t.children y).map Child.id).count x = if t.parent? x = some y then 1 else 0 := by
  obtain ⟨q, hq⟩ := contains_iff.1 hx
  have hmem : x ∈ (t.children y).map Child.id ↔ t.parent? x = some y := by
    rw [parent?_eq_some, children_eq]
    constructor
    · intro hmem
      obtain ⟨c, hc, rfl⟩ := List.mem_map.1 hmem
      cases hg : t.below? y with
      | none => simp [hg] at hc
      | some g =>
        rw [hg] at hc
        obtain ⟨q, hq, hparent, -⟩ := (mem_heads_below? ht hg).1 hc
        exact ⟨q, hq, hparent⟩
    · rintro ⟨q, hq, hparent⟩
      obtain ⟨g, hg⟩ := exists_below?_parent ht hq hparent
      obtain ⟨-, -, key, -, -, hkey, -⟩ := exists_place?_parent ht (ne_root_of_parent hq hparent) hq
      have hc : ⟨x, key, q.node⟩ ∈ g.heads := (mem_heads_below? ht hg).2 ⟨q, hq, hparent, hkey, rfl⟩
      rw [hg]
      exact List.mem_map.2 ⟨_, hc, rfl⟩
  split
  next hparent => exact List.count_eq_one_of_mem (nodup_children ht y) (hmem.2 hparent)
  next hparent => exact List.count_eq_zero_of_not_mem (mt hmem.1 hparent)

/-- The walk from a node lists the nodes of its subtree, parents before what is below them. -/
theorem preorder_lists (ht : t.Keyed) (id : NodeId) : (t.preorderFrom id).Nodup ∧
    (∀ x, x ∈ t.preorderFrom id ↔ t.contains x = true ∧ t.Ascends x id) ∧
      (t.preorderFrom id).Pairwise fun a b => ¬ t.Ascends a b := by
  have hmem (x : NodeId) : x ∈ t.preorderFrom id ↔ t.contains x = true ∧ t.Ascends x id := by
    rw [mem_preorderFrom ht, within_iff_contains ht]
  refine ⟨nodup_preorderFrom ht id, hmem, (pairwise_preorderFrom ht id).imp_of_mem fun ha _ h => ?_⟩
  rwa [within_iff_ascends ht ((hmem _).1 ha).1] at h

/-- The other walk lists them with parents behind what is below them. -/
theorem postorder_lists (ht : t.Keyed) (id : NodeId) : (t.postorderFrom id).Nodup ∧
    (∀ x, x ∈ t.postorderFrom id ↔ t.contains x = true ∧ t.Ascends x id) ∧
      (t.postorderFrom id).Pairwise fun a b => ¬ t.Ascends b a := by
  have hmem (x : NodeId) : x ∈ t.postorderFrom id ↔ t.contains x = true ∧ t.Ascends x id := by
    rw [mem_postorderFrom ht, within_iff_contains ht]
  refine ⟨(perm_postorderFrom t id).nodup_iff.2 (nodup_preorderFrom ht id), hmem,
    (pairwise_postorderFrom ht id).imp_of_mem fun _ hb h => ?_⟩
  rwa [within_iff_ascends ht ((hmem _).1 hb).1] at h

/-- The children of a node that stays are those that it had, without the removed one. -/
theorem children_without (ht : t.Keyed) (hid : id ≠ rootId) (hy : ¬ t.Within id y) :
    (t.without id).children y = (t.children y).filter (·.id ≠ id) := by
  have hbelow : (t.without id).below? y = (t.below? y).map (·.erase id) := by
    by_cases hroot : y = rootId
    · subst hroot
      rw [below?_root, below?_root]
      rfl
    rw [below?_of_ne_root _ hroot, below?_of_ne_root t hroot]
    by_cases heq : y = id
    · -- then the removed node is not in the tree
      subst heq
      have hmem : y ∉ t.fields.ids := fun hmem => by
        obtain ⟨g, hg⟩ := Forest.exists_below? hmem
        rw [← below?_of_ne_root t hroot] at hg
        exact hy ((within_iff ht hg).2 (.inl rfl))
      rw [without, Forest.erase_of_not_mem hmem, Forest.below?_eq_none.2 hmem]
      rfl
    · refine Forest.below?_erase ht.nodup heq fun g hg hmem => hy ?_
      rw [← below?_of_ne_root t hid] at hg
      exact (within_iff ht hg).2 (.inr hmem)
  rw [children_eq, children_eq, hbelow]
  cases t.below? y with
  | none => rfl
  | some g => exact Forest.heads_erase g

/-- Only the parent of a node lists it. -/
theorem filter_children (ht : t.Keyed) (hid : t.contains id = true) (hparent : t.parent? id ≠ some y) :
    (t.children y).filter (·.id ≠ id) = t.children y := by
  rw [List.filter_eq_self]
  intro c hc
  have hcount := count_children (y := y) ht hid
  rw [if_neg hparent, List.count_eq_zero] at hcount
  simpa using fun he : c.id = id => hcount (List.mem_map.2 ⟨c, hc, he⟩)

theorem removes_without (ht : t.Keyed) (hroot : id ≠ rootId) (hid : t.contains id = true) :
    t.Removes id (t.postorderFrom id) (t.without id) := by
  obtain ⟨hnodup, hmem, horder⟩ := postorder_lists ht id
  have hwithin {x : NodeId} : x ∈ t.postorderFrom id ↔ t.Within id x := mem_postorderFrom ht
  refine ⟨hnodup, hmem, horder, fun x => ?_, fun x hx => ?_, fun y hy => ?_⟩
  · rw [hwithin, contains_iff, contains_iff]
    constructor
    · rintro ⟨q, hq⟩
      obtain ⟨hq, hx⟩ := place?_of_place?_without ht hroot hq
      exact ⟨⟨q, hq⟩, hx⟩
    · rintro ⟨⟨q, hq⟩, hx⟩
      exact ⟨q, (place?_without_of_not_within ht hroot hx).trans hq⟩
  · exact place?_without_of_not_within ht hroot (mt hwithin.2 hx)
  · rw [children_without ht hroot (mt hwithin.2 hy)]
    split
    · rfl
    next hparent => exact filter_children ht hid hparent

/-- Handles and keys that are distinct hold a tree together, as long as the root has no key. -/
theorem Keyed.linked (ht : t.Keyed) (hkey : t.rootKey = none) : t.Linked where
  root := ⟨by simp [contains, locate?], by rw [parent?_eq, place?_root]; rfl⟩
  parents x hx hroot := by
    obtain ⟨q, hq⟩ := contains_iff.1 hx
    obtain ⟨parent, p, -, hparent, hp, -⟩ := exists_place?_parent ht hroot hq
    exact ⟨parent, parent?_eq_some.2 ⟨q, hq, hparent⟩, contains_iff.2 ⟨p, hp⟩⟩
  children _ _ hx := count_children ht hx
  live y c hc := by
    rw [children_eq] at hc
    cases hg : t.below? y with
    | none => simp [hg] at hc
    | some g =>
      rw [hg] at hc
      obtain ⟨q, hq, -⟩ := (mem_heads_below? ht hg).1 hc
      exact contains_iff.2 ⟨q, hq⟩
  ascends _ hx := ascends_root ht hx
  keys y := by
    rw [children_eq]
    cases hg : t.below? y with
    | none => exact List.nodup_nil
    | some g => exact Forest.nodup_keys (distinctKeys_below? ht hg)
  found x hx := by
    obtain ⟨q, hq⟩ := contains_iff.1 hx
    exact (find?_eq_some ht hkey).2 ⟨q, hq, (path_of_place? hq).symm⟩
  preorder := by
    obtain ⟨hnodup, hmem, horder⟩ := preorder_lists ht rootId
    exact ⟨hnodup, fun x => (hmem x).trans ⟨And.left, fun hx => ⟨hx, ascends_root ht hx⟩⟩, horder⟩
  postorder := by
    obtain ⟨hnodup, hmem, horder⟩ := postorder_lists ht rootId
    exact ⟨hnodup, fun x => (hmem x).trans ⟨And.left, fun hx => ⟨hx, ascends_root ht hx⟩⟩, horder⟩
  removal id hroot hid := by
    refine ⟨_, _, ?_, removes_without ht hroot hid⟩
    rw [removeSubtree_eq, if_neg hroot, if_pos hid]

end FieldTree

/-- A change that gives no key to the root. -/
def TreeEdit.SparesRoot : TreeEdit → Prop
  | rekey id _ => id ≠ rootId
  | _ => True

namespace FieldTree

variable {t t' : FieldTree} {id parent : NodeId} {key : Step}

theorem rootKey_insertNode {node : Node} (h : t.insertNode parent key node = .ok (id, t')) :
    t'.rootKey = t.rootKey := by
  obtain ⟨-, -, rfl⟩ := insertNode_effect h
  exact rootKey_graft t parent _

end FieldTree

namespace TreeEdit

variable {t t' : FieldTree} {edit : TreeEdit} {edits : List TreeEdit}

/-- What does not give the root a key leaves its key alone. -/
theorem rootKey_run (hop : edit.IsOperation) (hspares : edit.SparesRoot) (hrun : edit.run t = .ok t') :
    t'.rootKey = t.rootKey := by
  cases effect hrun with
  | insert hr => exact FieldTree.rootKey_insertNode hr
  | insertTemplate hr => exact FieldTree.rootKey_insertNode (FieldTree.insertTemplate_effect hr).2
  | copySubtree hr =>
    obtain ⟨l, -, -, -, rfl⟩ := FieldTree.copySubtree_effect hr
    exact FieldTree.rootKey_graft t _ _
  | removeSubtree hr =>
    obtain ⟨-, -, -, rfl⟩ := FieldTree.removeSubtree_effect hr
    rfl
  | rekey hr =>
    rcases FieldTree.rekey_effect hr with ⟨hroot, -⟩ | ⟨-, rfl, -⟩
    · exact absurd hroot hspares
    · rfl
  | set id change => exact FieldTree.rootKey_modify t id change
  | modify => exact hop.elim
  | replace => exact hop.elim

theorem rootKey_runAll (hops : ∀ edit ∈ edits, edit.IsOperation ∧ edit.SparesRoot) :
    (runAll edits t).rootKey = t.rootKey := by
  induction edits generalizing t with
  | nil => rfl
  | cons edit rest ih =>
    obtain ⟨⟨hop, hspares⟩, hrest⟩ := List.forall_mem_cons.1 hops
    rw [runAll]
    split
    next hrun => exact (ih hrest).trans (rootKey_run hop hspares hrun)
    next => exact ih hrest

theorem runAll_append (edits more : List TreeEdit) (t : FieldTree) :
    runAll (edits ++ more) t = runAll more (runAll edits t) := by
  induction edits generalizing t with
  | nil => rfl
  | cons edit rest ih =>
    simp only [List.cons_append, runAll]
    split
    · exact ih _
    · exact ih _

/-- An array gets a template and an element, and loses the field of the element again. The second insertion fails. -/
def emptiedRow : List TreeEdit :=
  [.insert rootId (.name "a") .array, .insert rootId (.name "a") .group, .insertTemplate 1,
    .insert 2 (.name "x") .field, .copySubtree 2 1 (.index 0), .removeSubtree 5]

end TreeEdit

end LiveForm
