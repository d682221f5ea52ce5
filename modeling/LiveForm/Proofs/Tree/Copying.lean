import LiveForm.Proofs.Tree.Growth
import LiveForm.Proofs.Tree.Removal
import LiveForm.Proofs.Tree.Values

/-!
# Copies of a forest, and forests that come and go

A copy has new handles, the same keys and the same data, except that nothing in it has been evaluated. A forest
that is added and removed again leaves no trace.
-/

set_option autoImplicit false

namespace LiveForm

namespace Forest

variable {f g : Forest} {rename : NodeId → NodeId} {target x : NodeId}

theorem ids_copy (f : Forest) : (f.copy rename).ids = f.ids.map rename := by
  induction f with
  | nil => rfl
  | cons id key node children siblings ihc ihs => simp [copy, ids, ihc, ihs]

theorem heads_copy (f : Forest) :
    (f.copy rename).heads = f.heads.map fun c => ⟨rename c.id, c.key, c.node.forCopy⟩ := by
  induction f with
  | nil => rfl
  | cons id key node children siblings _ ihs => simp [copy, heads, ihs]

theorem distinctKeys_copy (h : f.DistinctKeys) : (f.copy rename).DistinctKeys := by
  induction f with
  | nil => trivial
  | cons id key node children siblings ihc ihs =>
    refine ⟨fun c hc => ?_, ihc h.2.1, ihs h.2.2⟩
    rw [heads_copy] at hc
    obtain ⟨c', hc', rfl⟩ := List.mem_map.1 hc
    exact h.1 c' hc'

/-- Each node of the forest satisfies a condition. -/
def Holds (P : Node → Prop) : Forest → Prop
  | nil => True
  | cons _ _ node children siblings => P node ∧ children.Holds P ∧ siblings.Holds P

variable {P Q : Node → Prop}

theorem Holds.spot? (h : f.Holds P) {s : Spot} (hs : f.spot? x = some s) : P s.node := by
  induction f generalizing s with
  | nil => simp [Forest.spot?] at hs
  | cons id key node children siblings ihc ihs =>
    rcases spot?_cases hs with ⟨-, rfl⟩ | ⟨-, u, hu, rfl⟩ | ⟨-, -, hs⟩
    · exact h.1
    · have hnode : P u.node := ihc h.2.1 hu
      exact hnode
    · exact ihs h.2.2 hs

theorem holds_of_spot? (hn : f.ids.Nodup) (h : ∀ x s, f.spot? x = some s → P s.node) :
    f.Holds P := by
  induction f with
  | nil => trivial
  | cons id key node children siblings ihc ihs =>
    obtain ⟨-, -, hnc, hns, -⟩ := nodup_ids_cons hn
    refine ⟨?_, ihc hnc fun x s hs => ?_, ihs hns fun x s hs => ?_⟩
    · exact h id _ (by rw [spot?, if_pos rfl])
    · exact h x (s.beneath id key node) (spot?_of_mem_children hn hs)
    · exact h x s (spot?_of_mem_siblings hn hs)

theorem holds_copy (h : f.Holds P) (hcopy : ∀ n, P n → Q n.forCopy) : (f.copy rename).Holds Q := by
  induction f with
  | nil => trivial
  | cons id key node children siblings ihc ihs =>
    exact ⟨hcopy node h.1, ihc h.2.1, ihs h.2.2⟩

/-- Copies are made in the order of the forest, but for the siblings, of which the last one comes first. -/
theorem copyOrder_cons {id : NodeId} {key : Step} {node : Node} {children siblings : Forest} :
    (cons id key node children siblings).copyOrder = id :: (siblings.copyOrder ++ children.copyOrder) := by
  simp [copyOrder, copyOrderBelow, heads]

/-- One copy is made of every node. -/
theorem perm_copyOrder (f : Forest) : f.copyOrder.Perm f.ids := by
  induction f with
  | nil => exact .nil
  | cons id key node children siblings ihc ihs =>
    rw [copyOrder_cons, ids]
    exact (List.perm_append_comm.trans (ihc.append ihs)).cons id

theorem mem_copyOrder {f : Forest} : x ∈ f.copyOrder ↔ x ∈ f.ids :=
  f.perm_copyOrder.mem_iff

theorem append_nil (f : Forest) : f.append .nil = f := by
  induction f with
  | nil => rfl
  | cons id key node children siblings _ ihs => rw [append, ihs]

theorem append_assoc (f g h : Forest) : (f.append g).append h = f.append (g.append h) := by
  induction f with
  | nil => rfl
  | cons id key node children siblings _ ihs => simp only [append, ihs]

theorem graft_append (f g : Forest) {new : Forest} :
    (f.append g).graft target new = (f.graft target new).append (g.graft target new) := by
  induction f with
  | nil => rfl
  | cons id key node children siblings _ ihs => simp [append, graft, ihs]

theorem modify_append (f g : Forest) (h : Node → Node) :
    (f.append g).modify target h = (f.modify target h).append (g.modify target h) := by
  induction f with
  | nil => rfl
  | cons id key node children siblings _ ihs => simp [append, modify, ihs]

theorem modify_of_not_mem {f : Forest} (hf : target ∉ f.ids) (h : Node → Node) :
    f.modify target h = f := by
  induction f with
  | nil => rfl
  | cons id key node children siblings ihc ihs =>
    simp only [ids, List.mem_cons, List.mem_append, not_or] at hf
    rw [modify, if_neg (Ne.symm hf.1), ihc hf.2.1, ihs hf.2.2]

section Leaving

variable {parent id : NodeId} {key : Step} {node : Node} {children : Forest}

theorem erase_append (f g : Forest) :
    (f.append g).erase target = (f.erase target).append (g.erase target) := by
  induction f with
  | nil => rfl
  | cons id key node children siblings _ ihs =>
    simp only [append, erase]
    split
    · exact ihs
    · simp [append, ihs]

/-- What is added and removed again has never been there. -/
theorem erase_graft_self (f : Forest) (h : id ∉ f.ids) :
    (f.graft parent (.cons id key node children .nil)).erase id = f := by
  induction f with
  | nil => rfl
  | cons a k n below siblings ihc ihs =>
    simp only [ids, List.mem_cons, List.mem_append, not_or] at h
    obtain ⟨ha, hc, hs⟩ := h
    simp only [graft, erase, if_neg (Ne.symm ha), ihs hs]
    split
    · rw [erase_append, ihc hc, erase, if_pos rfl]
      simp [erase, append_nil]
    · rw [ihc hc]

/-- What is added elsewhere stays when a node is removed. -/
theorem erase_graft_comm (f : Forest) {new : Forest} (h : target ∉ new.ids) :
    (f.graft parent new).erase target = (f.erase target).graft parent new := by
  induction f with
  | nil => rfl
  | cons a k n below siblings ihc ihs =>
    simp only [graft, erase]
    split
    · exact ihs
    · simp only [graft, ihs]
      split
      · rw [erase_append, ihc, erase_of_not_mem h]
      · rw [ihc]

/-- What is added to a node that was added has been added with it. -/
theorem graft_graft (f : Forest) (h : id ∉ f.ids) {new more : Forest} :
    (f.graft parent new).graft id more = f.graft parent (new.graft id more) := by
  induction f with
  | nil => rfl
  | cons a k n below siblings ihc ihs =>
    simp only [ids, List.mem_cons, List.mem_append, not_or] at h
    obtain ⟨ha, hc, hs⟩ := h
    simp only [graft, if_neg (Ne.symm ha), ihs hs]
    split
    · rw [graft_append, ihc hc]
    · rw [ihc hc]

/-- What is done to a node that was added has been done before. -/
theorem modify_graft (f : Forest) (h : id ∉ f.ids) {new : Forest} (g : Node → Node) :
    (f.graft parent new).modify id g = f.graft parent (new.modify id g) := by
  induction f with
  | nil => rfl
  | cons a k n below siblings ihc ihs =>
    simp only [ids, List.mem_cons, List.mem_append, not_or] at h
    obtain ⟨ha, hb, hs⟩ := h
    simp only [graft, modify, if_neg (Ne.symm ha), ihs hs]
    split
    · rw [modify_append, ihc hb]
    · rw [ihc hb]

/-- What is added to one node after another is added together. -/
theorem graft_graft_same (f : Forest) {new more : Forest} (h : parent ∉ new.ids) :
    (f.graft parent new).graft parent more = f.graft parent (new.append more) := by
  induction f with
  | nil => rfl
  | cons a k n below siblings ihc ihs =>
    simp only [graft, ihs]
    split
    · rw [graft_append, ihc, graft_of_not_mem h, append_assoc]
    · rw [ihc]

end Leaving

end Forest

end LiveForm
