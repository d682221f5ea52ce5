import LiveForm.Proofs.Tree.Insertion

/-!
# Additions on top of each other

A tree that grows below one node step by step, at first by new nodes there and then by nodes below or beside these, has
grown by one forest in the end.
-/

set_option autoImplicit false

namespace LiveForm

namespace Forest

variable {P : Node → Prop} {f g new : Forest} {target : NodeId}

theorem graft_nil (f : Forest) (target : NodeId) : f.graft target .nil = f := by
  induction f with
  | nil => rfl
  | cons id key node children siblings ihc ihs => simp only [Forest.graft, ihc, ihs, append_nil, ite_self]

theorem Holds.append (hf : f.Holds P) (hg : g.Holds P) : (f.append g).Holds P := by
  induction f with
  | nil => exact hg
  | cons id key node children siblings _ ihs => exact ⟨hf.1, hf.2.1, ihs hf.2.2⟩

theorem Holds.graft (hf : f.Holds P) (hnew : new.Holds P) : (f.graft target new).Holds P := by
  induction f with
  | nil => trivial
  | cons id key node children siblings ihc ihs =>
    refine ⟨hf.1, ?_, ihs hf.2.2⟩
    split
    · exact (ihc hf.2.1).append hnew
    · exact ihc hf.2.1

theorem Holds.modify (hf : f.Holds P) {m : Node → Node} (hm : ∀ n, P n → P (m n)) : (f.modify target m).Holds P := by
  induction f with
  | nil => trivial
  | cons id key node children siblings ihc ihs =>
    refine ⟨?_, ihc hf.2.1, ihs hf.2.2⟩
    split
    · exact hm node hf.1
    · exact hf.1

end Forest

namespace FieldTree.Grafts

variable {t t₁ t₂ : FieldTree} {parent x : NodeId} {new more g body : Forest} {key : Step} {node : Node}

/-- Nothing may be added. -/
theorem nil {p : Place} (hp : t.place? parent = some p) : Grafts t parent .nil t where
  eq := by rw [FieldTree.graft, Forest.append_nil, Forest.graft_nil, ite_self]
  placed := ⟨p, hp⟩
  fresh := by simp [Forest.ids]
  bound := by simp [Forest.ids]
  next := Nat.le_refl _
  nodup := List.nodup_nil
  keys := trivial
  free := by simp [Forest.heads]
  formulas := trivial

theorem rootKey (h : Grafts t parent new t₁) : t₁.rootKey = t.rootKey := by
  rw [h.eq]
  exact rootKey_graft t parent new

theorem root (h : Grafts t parent new t₁) : t₁.root = t.root := by
  rw [h.eq]
  exact root_graft t parent new

/-- The root of a new subtree stands above the rest of it. -/
theorem root_not_mem (h : Grafts t parent (.cons x key node body .nil) t₁) : x ∉ body.ids := by
  have hnodup := h.nodup
  simp only [Forest.ids, List.append_nil, List.nodup_cons] at hnodup
  exact hnodup.1

section Reading

variable (h : Grafts t parent new t₁) (ht : t.WellFormed)

include h ht

theorem parent_not_mem : parent ∉ new.ids := by
  obtain ⟨p, hp⟩ := h.placed
  exact fun hm => Nat.lt_irrefl _ (Nat.lt_of_lt_of_le (lt_next_of_place? ht hp) (h.fresh parent hm))

/-- The new nodes come behind what has been below the parent. -/
theorem below?_parent (hg : t.below? parent = some g) : t₁.below? parent = some (g.append new) := by
  rw [h.eq]
  exact below?_graft_self ht.keyed hg

/-- What is below a new node is what the new forest has there. -/
theorem below?_new (hx : x ∈ new.ids) : t₁.below? x = new.below? x := by
  obtain ⟨p, hp⟩ := h.placed
  rw [h.eq]
  exact below?_graft_new ht.keyed hp (h.fresh x hx)

/-- What is below a node that does not lie above the parent stays what it was. -/
theorem below?_old (hg : t.below? x = some g) (hx : x ≠ rootId) (hpx : parent ≠ x) (hpg : parent ∉ g.ids) :
    t₁.below? x = some g := by
  obtain ⟨q, hq⟩ := exists_place?_of_below? hg
  have hnew : x ∉ new.ids := fun hm =>
    Nat.lt_irrefl _ (Nat.lt_of_lt_of_le (lt_next_of_place? ht hq) (h.fresh x hm))
  rw [h.eq]
  exact below?_graft_other hg hx hpx hpg hnew

end Reading

section Stacking

variable (h : Grafts t parent new t₁) (ht : t.WellFormed)

include h ht

/-- What is added to one node after another is added together. -/
theorem append (h' : Grafts t₁ parent more t₂) : Grafts t parent (new.append more) t₂ where
  eq := by
    have heq : t₁ = (t.graft parent new).withNext t₁.next := h.eq
    calc
      t₂ = (t₁.graft parent more).withNext t₂.next := h'.eq
      _ = (((t.graft parent new).withNext t₁.next).graft parent more).withNext t₂.next := by rw [← heq]
      _ = ((t.graft parent (new.append more)).withNext t₁.next).withNext t₂.next := by
        rw [graft_withNext, graft_graft_same (h.parent_not_mem ht)]
  placed := h.placed
  fresh y hy := by
    rw [Forest.ids_append, List.mem_append] at hy
    exact hy.elim (h.fresh y) fun hy => Nat.le_trans h.next (h'.fresh y hy)
  bound y hy := by
    rw [Forest.ids_append, List.mem_append] at hy
    exact hy.elim (fun hy => Nat.lt_of_lt_of_le (h.bound y hy) h'.next) (h'.bound y)
  next := Nat.le_trans h.next h'.next
  nodup := by
    rw [Forest.ids_append]
    refine List.nodup_append.2 ⟨h.nodup, h'.nodup, fun y hy z hz he => ?_⟩
    exact Nat.lt_irrefl _ (Nat.lt_of_lt_of_le (h.bound y hy) (he ▸ h'.fresh z hz))
  keys := by
    obtain ⟨p, hp⟩ := h.placed
    obtain ⟨g, hg⟩ := exists_below? hp
    refine Forest.distinctKeys_append h.keys h'.keys fun c hc => h'.free _ (h.below?_parent ht hg) c ?_
    rw [Forest.heads_append]
    exact List.mem_append_right _ hc
  free g hg c hc c' hc' := by
    rw [Forest.heads_append, List.mem_append] at hc'
    refine hc'.elim (h.free g hg c hc c') (h'.free _ (h.below?_parent ht hg) c ?_ c')
    rw [Forest.heads_append]
    exact List.mem_append_left _ hc
  formulas := h.formulas.append h'.formulas

/-- What is added to a node that was added has been added with it. -/
theorem into (h' : Grafts t₁ x more t₂) (hx : x ∈ new.ids) : Grafts t parent (new.graft x more) t₂ where
  eq := by
    obtain ⟨hunused, hroot⟩ := ht.unused (h.fresh x hx)
    have heq : t₁ = (t.graft parent new).withNext t₁.next := h.eq
    calc
      t₂ = (t₁.graft x more).withNext t₂.next := h'.eq
      _ = (((t.graft parent new).withNext t₁.next).graft x more).withNext t₂.next := by rw [← heq]
      _ = ((t.graft parent (new.graft x more)).withNext t₁.next).withNext t₂.next := by
        rw [graft_withNext, graft_graft hunused hroot]
  placed := h.placed
  fresh y hy :=
    (Forest.mem_ids_graft.1 hy).elim (h.fresh y) fun hy => Nat.le_trans h.next (h'.fresh y hy.2)
  bound y hy :=
    (Forest.mem_ids_graft.1 hy).elim (fun hy => Nat.lt_of_lt_of_le (h.bound y hy) h'.next) fun hy => h'.bound y hy.2
  next := Nat.le_trans h.next h'.next
  nodup := Forest.nodup_ids_graft h.nodup h'.nodup fun y hy hy' =>
    Nat.lt_irrefl _ (Nat.lt_of_lt_of_le (h.bound y hy) (h'.fresh y hy'))
  keys := Forest.distinctKeys_graft h.nodup h.keys h'.keys fun g hg => h'.free g ((h.below?_new ht hx).trans hg)
  free g hg c hc c' hc' := h.free g hg c hc c' (by rwa [Forest.heads_graft] at hc')
  formulas := h.formulas.graft h'.formulas

/-- What is done to a node that was added has been done before. -/
theorem modify {m : Node → Node} (hm : ∀ n, (n.formula.isSome → n.kind = .field) →
    ((m n).formula.isSome → (m n).kind = .field)) (hx : x ∈ new.ids) :
    Grafts t parent (new.modify x m) (t₁.modify x m) where
  eq := by
    obtain ⟨hunused, hroot⟩ := ht.unused (h.fresh x hx)
    have heq : t₁ = (t.graft parent new).withNext t₁.next := h.eq
    rw [next_modify]
    calc
      t₁.modify x m = ((t.graft parent new).withNext t₁.next).modify x m := by rw [← heq]
      _ = (t.graft parent (new.modify x m)).withNext t₁.next := by
        rw [modify_withNext, modify_graft hunused hroot]
  placed := h.placed
  fresh y hy := h.fresh y (by rwa [Forest.ids_modify] at hy)
  bound y hy := by
    rw [next_modify]
    exact h.bound y (by rwa [Forest.ids_modify] at hy)
  next := by
    rw [next_modify]
    exact h.next
  nodup := by
    rw [Forest.ids_modify]
    exact h.nodup
  keys := Forest.distinctKeys_modify h.keys
  free g hg c hc c' hc' := by
    have hkey : c'.key ∈ (new.modify x m).heads.map Child.key := List.mem_map_of_mem hc'
    rw [Forest.keys_heads_modify, List.mem_map] at hkey
    obtain ⟨c'', hc'', he⟩ := hkey
    exact he ▸ h.free g hg c hc c'' hc''
  formulas := h.formulas.modify hm

end Stacking

end FieldTree.Grafts

end LiveForm
