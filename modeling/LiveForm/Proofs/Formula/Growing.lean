import LiveForm.Proofs.Formula.Selections
import LiveForm.Proofs.Tree.Blank
import LiveForm.Proofs.Tree.Planting

/-!
# Dependencies in a growing tree

Formulas and selectors depend on the outlines of nodes only. So a tree that keeps the outlines of all its nodes, whatever
it gets besides, keeps all dependencies: a circle that is in a part of a tree is in the whole tree.
-/

set_option autoImplicit false

namespace LiveForm.FieldTree

variable {t t' t'' : FieldTree} {m c n parent : NodeId} {text : String} {key : Step} {kind : Kind}
  {formula : Option String} {parents : List NodeId}

/-- All nodes of the first tree are where they were in the second one, up to their values. -/
def Extends (t t' : FieldTree) : Prop :=
  ∀ x p, t.place? x = some p → ∃ p', t'.place? x = some p' ∧ p'.outline = p.outline

theorem Extends.refl (t : FieldTree) : Extends t t :=
  fun _ p hp => ⟨p, hp, rfl⟩

theorem Extends.trans (h : Extends t t') (h' : Extends t' t'') : Extends t t'' := fun x p hp => by
  obtain ⟨p', hp', hout⟩ := h x p hp
  obtain ⟨p'', hp'', hout'⟩ := h' x p' hp'
  exact ⟨p'', hp'', hout'.trans hout⟩

theorem extends_of_blank (h : t'.blank = t.blank) : Extends t t' := fun x p hp => by
  have hx := outline_of_blank h x
  rwa [hp, Option.map_some, Option.map_eq_some_iff] at hx

theorem Extends.selectionsAt (h : Extends t t') (hn : (t.place? n).isSome) :
    t'.selectionsAt n = t.selectionsAt n := by
  obtain ⟨q, hq⟩ := Option.isSome_iff_exists.1 hn
  obtain ⟨q', hq', hout⟩ := h n q hq
  obtain ⟨-, -, hformula, -, hparent, -, hin⟩ := Place.outline_eq hout
  have hselections : t'.selections n = t.selections n := by
    funext text
    exact selections_congr (by rw [hq, hq', Option.bind_some, Option.bind_some, hparent])
  unfold FieldTree.selectionsAt
  simp only [hq, hq', hformula, hin, hselections]

/-- All nodes of the first tree are where they were in the second one, whatever formulas they have. -/
def Stays (t t' : FieldTree) : Prop :=
  ∀ x p, t.place? x = some p → ∃ p', t'.place? x = some p' ∧ p'.node.kind = p.node.kind ∧ p'.path = p.path ∧
    p'.inTemplate = p.inTemplate

/-- Which fields a selector stands for does not depend on formulas. -/
theorem Stays.matches (h : Stays t t') {s : Selector} {base : NodeId} (hm : t.Matches s base m) :
    t'.Matches s base m := by
  obtain ⟨p, q, steps, hp, hq, hbase, hkind, hlive, hsteps, hfit⟩ := hm
  obtain ⟨p', hp', -, hpath, hin⟩ := h base p hp
  obtain ⟨q', hq', hkind', hpath', hin'⟩ := h m q hq
  exact ⟨p', q', steps, hp', hq', hin.trans hbase, hkind'.trans hkind, hin'.trans hlive, by rw [hpath, hpath', hsteps],
    hfit⟩

theorem Extends.stays (h : Extends t t') : Stays t t' := fun x p hp => by
  obtain ⟨p', hp', hout⟩ := h x p hp
  obtain ⟨-, hkind, -, -, -, hpath, hin⟩ := Place.outline_eq hout
  exact ⟨p', hp', hkind, hpath, hin⟩

theorem Extends.matches (h : Extends t t') {s : Selector} {base : NodeId} (hm : t.Matches s base m) :
    t'.Matches s base m :=
  h.stays.matches hm

/-- A field that is read is read by the same formulas in the larger tree. -/
theorem Extends.feeds (h : Extends t t') (hfeeds : t.Feeds m c) : t'.Feeds m c := by
  obtain ⟨s, base, hmem, hmatch⟩ := hfeeds
  refine ⟨s, base, ?_, h.matches hmatch⟩
  rwa [h.selectionsAt]
  cases hc : t.place? c with
  | none => simp [FieldTree.selectionsAt, hc] at hmem
  | some q => rfl

theorem Extends.path_eq (h : Extends t t') (hx : (t.place? n).isSome) : t'.path n = t.path n := by
  obtain ⟨p, hp⟩ := Option.isSome_iff_exists.1 hx
  obtain ⟨p', hp', hout⟩ := h n p hp
  obtain ⟨-, -, -, -, -, hpath, -⟩ := Place.outline_eq hout
  rw [path_of_place? hp, path_of_place? hp', hpath]

/-- A circle in the smaller tree is one in the larger tree. -/
theorem Extends.acyclic (h : Extends t t') (hacyclic : t'.Acyclic) : t.Acyclic := fun n hn =>
  hacyclic n (Relation.TransGen.mono (fun _ _ => h.feeds) _ _ hn)

theorem acyclic_congr (h : t'.blank = t.blank) : t'.Acyclic ↔ t.Acyclic :=
  ⟨(extends_of_blank h).acyclic, (extends_of_blank h.symm).acyclic⟩

/-- Two trees have the same nodes, up to their values. -/
def SameOutlines (t t' : FieldTree) : Prop :=
  ∀ x, (t'.place? x).map Place.outline = (t.place? x).map Place.outline

theorem sameOutlines_of_blank (h : t'.blank = t.blank) : SameOutlines t t' :=
  outline_of_blank h

namespace SameOutlines

theorem symm (h : SameOutlines t t') : SameOutlines t' t :=
  fun x => (h x).symm

theorem toExtends (h : SameOutlines t t') : Extends t t' := fun x p hp => by
  have hx := h x
  rwa [hp, Option.map_some, Option.map_eq_some_iff] at hx

theorem matches_iff (h : SameOutlines t t') {s : Selector} {base : NodeId} :
    t'.Matches s base m ↔ t.Matches s base m :=
  ⟨h.symm.toExtends.matches, h.toExtends.matches⟩

theorem selectionsAt (h : SameOutlines t t') (c : NodeId) : t'.selectionsAt c = t.selectionsAt c := by
  cases hc : t.place? c with
  | some q => exact h.toExtends.selectionsAt (by rw [hc]; rfl)
  | none =>
    have hc' : t'.place? c = none := by
      have hx := h c
      rwa [hc, Option.map_none, Option.map_eq_none_iff] at hx
    simp [FieldTree.selectionsAt, hc, hc']

end SameOutlines

section Children

/-- All handles in use are below the next one. -/
def Bounded (t : FieldTree) : Prop :=
  0 < t.next ∧ ∀ x ∈ t.fields.ids, x < t.next

theorem WellFormed.bounded (h : t.WellFormed) : t.Bounded :=
  ⟨h.next_pos, h.lt_next⟩

/-- A tree with one more child for each of some nodes. -/
def withEach (t : FieldTree) (parents : List NodeId) (key : Step) (kind : Kind) (formula : Option String) :
    FieldTree :=
  parents.foldl (fun t parent => t.withNew parent key kind formula) t

theorem next_lt_withNew : t.next < (t.withNew parent key kind formula).next := by
  show t.next < if kind = .array then t.next + 2 else t.next + 1
  split
  · exact Nat.lt_add_of_pos_right (Nat.succ_pos 1)
  · exact Nat.lt_succ_self _

/-- The handles of new nodes follow those in use. -/
theorem mem_ids_newNode {x : NodeId} (parent : NodeId) (hx : x ∈ (newNode t.next key kind formula).ids) :
    t.next ≤ x ∧ x < (t.withNew parent key kind formula).next := by
  show _ ∧ x < if kind = .array then t.next + 2 else t.next + 1
  rw [ids_newNode] at hx
  split at hx
  next hkind =>
    rw [if_pos hkind]
    rcases List.mem_pair.1 hx with rfl | rfl
    · exact ⟨Nat.le_refl _, Nat.lt_add_of_pos_right (Nat.succ_pos 1)⟩
    · exact ⟨Nat.le_succ _, Nat.lt_succ_self _⟩
  next hkind =>
    rw [if_neg hkind]
    obtain rfl := List.mem_singleton.1 hx
    exact ⟨Nat.le_refl _, Nat.lt_succ_self _⟩

theorem Bounded.withNew (h : t.Bounded) : (t.withNew parent key kind formula).Bounded := by
  refine ⟨Nat.lt_trans h.1 next_lt_withNew, fun x hx => ?_⟩
  rcases mem_ids_graft.1 hx with hold | ⟨-, hnew⟩
  · exact Nat.lt_trans (h.2 x hold) next_lt_withNew
  · exact (mem_ids_newNode parent hnew).2

theorem Bounded.extends_withNew (h : t.Bounded) : Extends t (t.withNew parent key kind formula) := by
  intro x p hp
  refine ⟨p, ?_, rfl⟩
  show (t.graft parent (newNode t.next key kind formula)).place? x = some p
  rw [place?_graft_of_not_mem, hp]
  intro hnew
  have hlt : x < t.next := by
    by_cases hx : x = rootId
    · exact hx ▸ h.1
    · exact h.2 x (mem_ids_of_place? hx hp)
  exact Nat.not_lt.2 (mem_ids_newNode parent hnew).1 hlt

theorem Bounded.withEach (h : t.Bounded) : (t.withEach parents key kind formula).Bounded := by
  induction parents generalizing t with
  | nil => exact h
  | cons parent parents ih => exact ih h.withNew

theorem withEach_append (t : FieldTree) (parents parents' : List NodeId) :
    t.withEach (parents ++ parents') key kind formula =
      (t.withEach parents key kind formula).withEach parents' key kind formula :=
  List.foldl_append

theorem Bounded.extends_withEach (h : t.Bounded) : Extends t (t.withEach parents key kind formula) := by
  induction parents generalizing t with
  | nil => exact .refl t
  | cons parent parents ih => exact h.extends_withNew.trans (ih h.withNew)

end Children

end LiveForm.FieldTree
