import LiveForm.Proofs.Path.Order
import LiveForm.Proofs.Selector.Matching
import LiveForm.Proofs.Tree.Built
import Mathlib

/-!
# The matches of a selector in order

The walk that lists the matches of a selector meets every node at most once, and no two nodes of a tree have
the same path, so the list that it leaves is strictly sorted. A strictly sorted list is determined by its
members, and which nodes are members is told by the test of a single node.
-/

set_option autoImplicit false

namespace LiveForm

namespace FieldTree

variable {t : FieldTree} {ids l m : List NodeId} {x y : NodeId} {p q : Place}

/-- Nodes of a tree whose paths come one before the other, all along a list. -/
def Ascending (t : FieldTree) (l : List NodeId) : Prop :=
  l.Pairwise fun x y => (t.path x).Before (t.path y)

theorem Ascending.nodup (h : t.Ascending l) : l.Nodup := by
  apply List.Pairwise.imp _ h
  rintro x y hxy rfl
  exact Path.Before.irrefl hxy

/-- The members of a list in strict order determine it. -/
theorem Ascending.eq_of_mem_iff (hl : t.Ascending l) (hm : t.Ascending m) (h : ∀ x, x ∈ l ↔ x ∈ m) : l = m := by
  have hperm : l.Perm m := (List.perm_ext_iff_of_nodup hl.nodup hm.nodup).2 h
  apply hperm.eq_of_pairwise _ hl hm
  intro x y _ _ hxy hyx
  exact absurd hyx hxy.asymm

/-- Different nodes of a tree are strictly sorted. -/
theorem ascending_inMatchOrder (ht : t.Keyed) (hids : ids.Nodup) (hplaced : ∀ x ∈ ids, ∃ p, t.place? x = some p) :
    t.Ascending (t.inMatchOrder ids) := by
  have hpaths : ((ids.map fun id => (t.path id, id)).map Prod.fst).Nodup := by
    rw [List.map_map]
    apply hids.map_on
    intro x hx y hy hpath
    have hcontains {z : NodeId} (hz : z ∈ ids) : t.contains z = true := by
      rw [contains_eq, Option.isSome_iff_exists]
      exact hplaced z hz
    exact path_injOn ht (hcontains hx) (hcontains hy) hpath
  have hsorted := Path.pairwise_sortByMatchOrder hpaths
  have hpair : ∀ a ∈ Path.sortByMatchOrder Prod.fst (ids.map fun id => (t.path id, id)), a.1 = t.path a.2 := by
    intro a ha
    obtain ⟨x, -, rfl⟩ := List.mem_map.1 ((List.mergeSort_perm _ _).subset ha)
    rfl
  unfold Ascending inMatchOrder
  rw [List.pairwise_map]
  apply hsorted.imp_of_mem
  intro a b ha hb hab
  rwa [← hpair a ha, ← hpair b hb]

end FieldTree

namespace Selector

variable {t : FieldTree} {s : Selector} {base c x : NodeId}

/-- The matches of a selector are strictly sorted. -/
theorem ascending_fieldsBelow (ht : t.Keyed) (s : Selector) (base : NodeId) : t.Ascending (s.fieldsBelow t base) := by
  unfold fieldsBelow
  cases hl : t.locate? base with
  | none => exact List.Pairwise.nil
  | some l =>
    obtain ⟨-, hbelow, -⟩ := FieldTree.locate?_eq_some hl
    have hsub : (l.children.matching s.pattern).Sublist l.children.ids := Forest.matching_sublist _ _
    dsimp only
    split
    · exact List.Pairwise.nil
    · apply FieldTree.ascending_inMatchOrder ht
      · exact (FieldTree.nodup_below? ht hbelow).1.sublist hsub
      · intro x hx
        exact ((FieldTree.within_iff ht hbelow).2 (.inr (hsub.subset hx))).exists_place?

/-- In a tree that operations have built, the walk from a base lists exactly the nodes that the test by the path
of the base accepts, unless the base is in a template: then it lists none. It lists every node once, shallower
ones first and nodes of the same depth by their paths, and comes by fields only, none of them in a template. -/
theorem walk_agrees_with_test (h : t.Built) {source : String} (hs : Selector.parse source = .ok s)
    (hbase : t.contains base = true) :
    (∀ c, c ∈ s.fieldsBelow t base ↔ t.inTemplate base = false ∧ s.accepts t (t.path base) c = true) ∧
    (s.fieldsBelow t base).Nodup ∧
    (s.fieldsBelow t base).Pairwise (fun c d =>
      Path.matchOrder (t.path c) (t.path d) = .lt ∧ (t.path c).Before (t.path d)) ∧
    ∀ c ∈ s.fieldsBelow t base, (t.get? c).map Node.kind = some .field ∧
      ∀ x node, t.get? x = some node → node.isTemplate = true → ¬ t.Within x c := by
  have ht : t.Keyed := h.keyed
  have hsorted : t.Ascending (s.fieldsBelow t base) := ascending_fieldsBelow ht s base
  have hmem (c : NodeId) : c ∈ s.fieldsBelow t base ↔ t.Matches s base c :=
    mem_fieldsBelow ht (pattern_ne_nil hs)
  obtain ⟨p, hp⟩ : ∃ p, t.place? base = some p := by
    rw [FieldTree.contains_eq] at hbase
    exact Option.isSome_iff_exists.1 hbase
  refine ⟨?_, hsorted.nodup, ?_, ?_⟩
  · intro c
    have hlive : t.inTemplate base = p.inTemplate := by rw [FieldTree.inTemplate_eq, hp]; rfl
    rw [hmem, hlive, FieldTree.path_of_place? hp]
    constructor
    · intro hmatch
      have hmatch' := hmatch
      obtain ⟨p', -, -, hp', -, hbase', -⟩ := hmatch'
      obtain rfl := Option.some.inj (hp.symm.trans hp')
      exact ⟨hbase', (accepts_iff hp hbase').2 hmatch⟩
    · rintro ⟨hbase', haccepts⟩
      exact (accepts_iff hp hbase').1 haccepts
  · apply hsorted.imp
    intro c d hcd
    exact ⟨Path.matchOrder_eq_lt.2 hcd, hcd⟩
  · intro c hc
    obtain ⟨-, q, -, -, hq, -, hfield, hlive, -⟩ := (hmem c).1 hc
    constructor
    · rw [FieldTree.get?_eq, hq]
      exact congrArg some hfield
    · intro x node hx htemplate hwithin
      rw [FieldTree.get?_eq, Option.map_eq_some_iff] at hx
      obtain ⟨u, hu, rfl⟩ := hx
      have hin := FieldTree.inTemplate_of_within ht hwithin hu (FieldTree.inTemplate_of_isTemplate ht hu htemplate) hq
      rw [hlive] at hin
      cases hin

/-- An array whose elements have the indices 0, 10 and 9, each with one field. -/
def threeRows : FieldTree :=
  TreeEdit.runAll [.insert rootId (.name "a") .array, .insertTemplate 1, .insert 2 (.name "x") .field,
    .copySubtree 2 1 (.index 0), .copySubtree 2 1 (.index 10), .copySubtree 2 1 (.index 9)] {}

theorem threeRows_built : threeRows.Built :=
  FieldTree.Built.empty.runAll (by simp [TreeEdit.IsOperation])

/-- Nine comes before ten, and the field of the template is not listed. -/
theorem threeRows_walked : ∃ s, Selector.parse "/a[-1].x" = .ok s ∧ s.fieldsBelow threeRows rootId = [5, 9, 7] ∧
    (∀ c, s.accepts threeRows (threeRows.path rootId) c = true ↔ c ∈ [5, 9, 7]) ∧
    (threeRows.path 9).Before (threeRows.path 7) := by
  have hparse : Selector.parse "/a[-1].x" = .ok ⟨"/a[-1].x", false, [.name "a", .anyIndex, .name "x"]⟩ := by cbv
  have hlist : (⟨"/a[-1].x", false, [.name "a", .anyIndex, .name "x"]⟩ : Selector).fieldsBelow threeRows rootId =
      [5, 9, 7] := by cbv
  have hlive : threeRows.inTemplate rootId = false := by cbv
  have hroot : threeRows.contains rootId = true := by cbv
  obtain ⟨hmem, -, hsorted, -⟩ := walk_agrees_with_test threeRows_built hparse hroot
  rw [hlist] at hmem hsorted
  refine ⟨_, hparse, hlist, ?_, ?_⟩
  · intro c
    rw [hmem c]
    exact (and_iff_right hlive).symm
  · exact ((List.pairwise_cons.1 (List.pairwise_cons.1 hsorted).2).1 7 (by simp)).2

end Selector

end LiveForm
