import LiveForm.Proofs.Form.Edits
import LiveForm.Proofs.Tree.Intact

/-!
# How a tree evolves

Whatever an edit does to the tree, unless it removes an element, is made of a few kinds of changes. So what each of these
keeps is kept by every edit, whether it succeeds or fails half-way.
-/

set_option autoImplicit false

namespace LiveForm.FieldTree

open Relation

variable {t t' t'' : FieldTree} {x : NodeId}

/-- A node that is in the tree or has been, and that is no element of an array. -/
structure Apart (t : FieldTree) (x : NodeId) : Prop where
  used : x < t.next
  parent : ∀ q parent p, t.place? x = some q → q.parent = some parent → t.place? parent = some p →
    p.node.kind ≠ .array

/-- What an edit does to a tree step by step, unless it removes an element. -/
inductive Change (t : FieldTree) : FieldTree → Prop where
  | values {t' : FieldTree} (h : t'.blank = t.blank) : Change t t'
  | used {n : NodeId} (h : t.next ≤ n) : Change t (t.withNext n)
  | entered (id : NodeId) (value : Value) : Change t (t.modify id fun n => { n with value })
  | inserted {parent : NodeId} {p : Place} {name : String} {kind : Kind} {formula : Option String}
      (hp : t.place? parent = some p) (hgroup : p.node.kind = .group)
      (hcheck : t.checkInsert parent (.name name) = .ok ()) (hformula : formula.isSome → kind = .field) :
      Change t (t.withNew parent (.name name) kind formula)
  | copied {source parent : NodeId} {p : Place} {name : String} {created : List NodeId} {t' : FieldTree}
      (hp : t.place? parent = some p) (hgroup : p.node.kind = .group)
      (hcopy : t.copySubtree source parent (.name name) = .ok (created, t')) : Change t t'
  | pushed {array template : NodeId} {p q : Place} {created : List NodeId} {t' : FieldTree}
      (hp : t.place? array = some p) (harray : p.node.kind = .array) (hq : t.place? template = some q)
      (hparent : q.parent = some array)
      (hcopy : t.copySubtree template array (.index (Form.nextIndex t array)) = .ok (created, t')) : Change t t'
  | dropped {id : NodeId} (hid : id ≠ rootId) (hapart : t.Apart id) : Change t (t.without id)

/-- Any number of such changes. -/
abbrev Evolves : FieldTree → FieldTree → Prop :=
  ReflTransGen Change

/-- A tree stays in order. -/
theorem Intact.change (h : t.Intact) (hchange : Change t t') : t'.Intact := by
  cases hchange with
  | values hblank => exact h.of_blank hblank
  | used hn => exact h.withNext hn
  | entered id value => exact h.entered id value
  | inserted hp hgroup hcheck hformula => exact h.withNew hp hgroup hcheck hformula
  | copied hp hgroup hcopy => exact h.copySubtree hp hcopy fun harray => by simp [hgroup] at harray
  | pushed hp harray hq hparent hcopy =>
    refine h.copySubtree hp hcopy fun _ => ⟨Form.isSlot_nextIndex h.shaped h.wellFormed hp harray, fun q' hq' => ?_⟩
    obtain rfl := Option.some.inj (hq.symm.trans hq')
    exact h.shaped.group h.wellFormed hp harray hq hparent
  | dropped hid => exact h.without hid

theorem Intact.evolves (h : t.Intact) (hevolves : t.Evolves t') : t'.Intact := by
  induction hevolves with
  | refl => exact h
  | tail _ hchange ih => exact ih.change hchange

/-- What is apart stays so if all nodes that have been used before keep their places, up to the paths. -/
theorem Apart.of_place? (h : t.Apart x) (ht : t.Intact) (hnext : t.next ≤ t'.next)
    (hplace : ∀ y q, t'.place? y = some q → y < t.next → ∃ q', t.place? y = some q' ∧ q'.parent = q.parent ∧
      q'.node.kind = q.node.kind) : t'.Apart x := by
  refine ⟨Nat.lt_of_lt_of_le h.used hnext, fun q parent p hq hparent hp => ?_⟩
  obtain ⟨q', hq', hqparent, -⟩ := hplace x q hq h.used
  obtain ⟨parent', p₀, key, hparent', hp₀, -⟩ :=
    exists_place?_parent ht.wellFormed.keyed (ne_root_of_parent hq' (hqparent.trans hparent)) hq'
  obtain rfl := Option.some.inj ((hqparent.trans hparent).symm.trans hparent')
  obtain ⟨p', hp', -, hkind⟩ := hplace parent p hp (lt_next_of_place? ht.wellFormed hp₀)
  rw [← hkind]
  exact h.parent q' parent p' hq' (hqparent.trans hparent) hp'

theorem Grafts.apart {parent : NodeId} {new : Forest} (hgraft : Grafts t parent new t') (h : t.Apart x) (ht : t.Intact) :
    t'.Apart x := by
  refine h.of_place? ht hgraft.next fun y q hq hy => ⟨q, ?_, rfl, rfl⟩
  rwa [hgraft.place?_old ht.wellFormed fun hmem => Nat.not_lt.2 (hgraft.fresh y hmem) hy] at hq

theorem Apart.change (h : t.Apart x) (ht : t.Intact) (hchange : Change t t') : t'.Apart x := by
  cases hchange with
  | values hblank =>
    refine h.of_place? ht (Nat.le_of_eq (next_of_blank hblank).symm) fun y q hq _ => ?_
    obtain ⟨q', hq', hqq⟩ := place?_of_blank hblank.symm hq
    exact ⟨q', hq', show q'.blank.parent = q.blank.parent by rw [hqq], (Place.blank_eq hqq).2.2.1⟩
  | used hn => exact h.of_place? ht hn fun y q hq _ => ⟨q, hq, rfl, rfl⟩
  | entered id value =>
    refine h.of_place? ht (Nat.le_of_eq next_modify.symm) fun y q hq _ => ?_
    rw [place?_modify (f := fun n => { n with value }) (fun _ => rfl), Option.map_eq_some_iff] at hq
    obtain ⟨q', hq', rfl⟩ := hq
    refine ⟨q', hq', rfl, ?_⟩
    dsimp only
    split <;> rfl
  | inserted hp hgroup hcheck hformula =>
    exact (grafts_withNew ht.wellFormed hcheck hformula).apart h ht
  | copied hp hgroup hcopy =>
    obtain ⟨l, -, -, hgraft, -⟩ := copySubtree_ok ht.wellFormed hcopy
    exact hgraft.apart h ht
  | pushed hp harray hq hparent hcopy =>
    obtain ⟨l, -, -, hgraft, -⟩ := copySubtree_ok ht.wellFormed hcopy
    exact hgraft.apart h ht
  | dropped hid =>
    exact h.of_place? ht (Nat.le_refl _) fun y q hq _ => ⟨q, (place?_of_place?_without ht.wellFormed.keyed hid hq).1, rfl, rfl⟩

theorem Apart.evolves (h : t.Apart x) (ht : t.Intact) (hevolves : t.Evolves t') : t'.Apart x := by
  induction hevolves with
  | refl => exact h
  | tail hbefore hchange ih => exact ih.change (ht.evolves hbefore) hchange

/-- A node that was put under a group is apart. -/
theorem Grafts.apart_root {parent : NodeId} {p : Place} {key : Step} {node : Node} {children : Forest}
    (hgraft : Grafts t parent (.cons t.next key node children .nil) t') (ht : t.Intact)
    (hp : t.place? parent = some p) (hgroup : p.node.kind = .group) : t'.Apart t.next := by
  have hold : parent ∉ (Forest.cons t.next key node children .nil).ids := fun hmem =>
    Nat.not_lt.2 (hgraft.fresh parent hmem) (lt_next_of_place? ht.wellFormed hp)
  have hp' := (hgraft.place?_old ht.wellFormed hold).trans hp
  refine ⟨hgraft.bound _ (by simp [Forest.ids]), fun q parent' p' hq' hparent' hp'' => ?_⟩
  obtain rfl := Option.some.inj ((hgraft.place?_root ht.wellFormed hp).symm.trans hq')
  obtain rfl := Option.some.inj hparent'
  obtain rfl := Option.some.inj (hp'.symm.trans hp'')
  simp [hgroup]

end LiveForm.FieldTree
