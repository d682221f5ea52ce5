import LiveForm.Proofs.Tree.Growth
import LiveForm.Proofs.Tree.Rekeying
import LiveForm.Proofs.Tree.Removal

/-!
# What fits below a node

A condition on the keys and the data of nodes that depends on the kind of the node above holds throughout a forest, or it
does not. Which changes of a forest keep it is the same for all such conditions.
-/

set_option autoImplicit false

namespace LiveForm

namespace Forest

variable {C : Kind → Step → Node → Prop} {f g new : Forest} {above : Kind} {target x : NodeId}

/-- In a forest below a node of some kind, all keys and data meet the condition that the kind of the parent asks for. -/
def Fits (C : Kind → Step → Node → Prop) (above : Kind) : Forest → Prop
  | nil => True
  | cons _ key node children siblings => C above key node ∧ children.Fits C node.kind ∧ siblings.Fits C above

theorem fits_append : (f.append g).Fits C above ↔ f.Fits C above ∧ g.Fits C above := by
  induction f with
  | nil => simp only [append, Fits, true_and]
  | cons id key node children siblings _ ihs => simp only [append, Fits, ihs, and_assoc]

theorem fits_copy (hcopy : ∀ above key node, C above key node → C above key node.forCopy) (rename : NodeId → NodeId)
    (h : f.Fits C above) : (f.copy rename).Fits C above := by
  induction f generalizing above with
  | nil => trivial
  | cons id key node children siblings ihc ihs =>
    obtain ⟨hnode, hchildren, hsiblings⟩ := h
    exact ⟨hcopy _ _ _ hnode, ihc hchildren, ihs hsiblings⟩

theorem fits_erase (h : f.Fits C above) : (f.erase target).Fits C above := by
  induction f generalizing above with
  | nil => trivial
  | cons id key node children siblings ihc ihs =>
    obtain ⟨hnode, hchildren, hsiblings⟩ := h
    rw [erase]
    split
    · exact ihs hsiblings
    · exact ⟨hnode, ihc hchildren, ihs hsiblings⟩

theorem fits_modify {change : Node → Node} (hkind : ∀ n, (change n).kind = n.kind)
    (hchange : ∀ above key node, C above key node → C above key (change node)) (h : f.Fits C above) :
    (f.modify target change).Fits C above := by
  induction f generalizing above with
  | nil => trivial
  | cons id key node children siblings ihc ihs =>
    obtain ⟨hnode, hchildren, hsiblings⟩ := h
    have hsame : (if id = target then change node else node).kind = node.kind := by
      split
      · exact hkind node
      · rfl
    refine ⟨?_, hsame ▸ ihc hchildren, ihs hsiblings⟩
    split
    · exact hchange _ _ _ hnode
    · exact hnode

/-- A forest fits below a node of the forest if it fits below nodes of that kind. -/
theorem fits_graft (hn : f.ids.Nodup) : (f.graft target new).Fits C above ↔
    f.Fits C above ∧ ∀ s, f.spot? target = some s → new.Fits C s.node.kind := by
  induction f generalizing above with
  | nil => simp [graft, Fits, spot?]
  | cons id key node children siblings ihc ihs =>
    obtain ⟨hic, his, hnc, hns, hdisj⟩ := nodup_ids_cons hn
    simp only [graft, Fits, ihs hns]
    by_cases hid : id = target
    · have hspots : siblings.spot? target = none := spot?_eq_none.2 (hid ▸ his)
      simp only [hid, if_true, graft_of_not_mem (hid ▸ hic), fits_append, spot?, hspots]
      simp only [reduceCtorEq, false_imp_iff, implies_true, and_true, Option.some.injEq, forall_eq']
      grind
    · simp only [hid, if_false, ihc hnc]
      constructor
      · rintro ⟨hnode, ⟨hchildren, hc⟩, hsiblings, hs⟩
        refine ⟨⟨hnode, hchildren, hsiblings⟩, fun s hspot => ?_⟩
        rcases spot?_cases hspot with ⟨he, -⟩ | ⟨-, u, hu, rfl⟩ | ⟨-, -, hspot⟩
        · exact absurd he hid
        · exact hc u hu
        · exact hs s hspot
      · rintro ⟨⟨hnode, hchildren, hsiblings⟩, hnew⟩
        have hc (s : Spot) (hs : children.spot? target = some s) : new.Fits C (s.beneath id key node).node.kind :=
          hnew _ (spot?_of_mem_children hn hs)
        exact ⟨hnode, ⟨hchildren, hc⟩, hsiblings, fun s hs => hnew s (spot?_of_mem_siblings hn hs)⟩

/-- A node may be given a key that meets the condition wherever the old key does. -/
theorem fits_rekey {newKey : Step} (h : f.Fits C above) (hn : f.ids.Nodup)
    (hkey : ∀ s, f.spot? target = some s → ∀ a, C a s.key s.node → C a newKey s.node) :
    (f.rekey target newKey).Fits C above := by
  induction f generalizing above with
  | nil => trivial
  | cons id key node children siblings ihc ihs =>
    obtain ⟨-, -, hnc, hns, -⟩ := nodup_ids_cons hn
    obtain ⟨hnode, hchildren, hsiblings⟩ := h
    have hsib : (siblings.rekey target newKey).Fits C above :=
      ihs hsiblings hns fun s hs => hkey s (spot?_of_mem_siblings hn hs)
    have hbelow : (children.rekey target newKey).Fits C node.kind :=
      ihc hchildren hnc fun s hs => hkey (s.beneath id key node) (spot?_of_mem_children hn hs)
    refine ⟨?_, hbelow, hsib⟩
    split
    next hid => exact hkey _ (by rw [spot?, if_pos hid]) above hnode
    · exact hnode

/-- What is below a node fits the kind of the node. -/
theorem Fits.below? (h : f.Fits C above) (hn : f.ids.Nodup) {s : Spot} (hs : f.spot? x = some s)
    (hg : f.below? x = some g) : g.Fits C s.node.kind := by
  induction f generalizing above s with
  | nil => cases hs
  | cons id key node children siblings ihc ihs =>
    obtain ⟨-, -, hnc, hns, -⟩ := nodup_ids_cons hn
    obtain ⟨-, hchildren, hsiblings⟩ := h
    rcases spot?_cases hs with ⟨rfl, rfl⟩ | ⟨-, u, hu, rfl⟩ | ⟨-, -, hs⟩
    · rw [Forest.below?, if_pos rfl] at hg
      obtain rfl := Option.some.inj hg
      exact hchildren
    · have hkind : g.Fits C u.node.kind :=
        ihc hchildren hnc hu ((below?_of_mem_children hn (mem_ids_of_spot? hu)).symm.trans hg)
      exact hkind
    · exact ihs hsiblings hns hs ((below?_of_mem_siblings hn (mem_ids_of_spot? hs)).symm.trans hg)

/-- The nodes of the forest itself fit below the node that the forest stands below. -/
theorem Fits.head (h : f.Fits C above) {c : Child} (hc : c ∈ f.heads) : C above c.key c.node := by
  induction f with
  | nil => cases hc
  | cons id key node children siblings _ ihs =>
    obtain ⟨hnode, -, hsiblings⟩ := h
    rcases List.mem_cons.1 hc with rfl | hc
    · exact hnode
    · exact ihs hsiblings hc

/-- A forest fits if the nodes of the forest itself do, and all that is below one of its nodes fits below that node. -/
theorem fits_of_heads (hn : f.ids.Nodup) (htop : ∀ c ∈ f.heads, C above c.key c.node)
    (hlow : ∀ x s g, f.spot? x = some s → f.below? x = some g → ∀ c ∈ g.heads, C s.node.kind c.key c.node) :
    f.Fits C above := by
  induction f generalizing above with
  | nil => trivial
  | cons id key node children siblings ihc ihs =>
    obtain ⟨-, -, hnc, hns, -⟩ := nodup_ids_cons hn
    obtain ⟨hnode, hsib⟩ := List.forall_mem_cons.1 htop
    refine ⟨hnode, ihc hnc ?_ fun x s g hs hg => ?_, ihs hns hsib fun x s g hs hg => ?_⟩
    · exact hlow id _ children (by rw [Forest.spot?, if_pos rfl]) (by rw [Forest.below?, if_pos rfl])
    · exact hlow x (s.beneath id key node) g (spot?_of_mem_children hn hs)
        ((below?_of_mem_children hn (mem_ids_of_spot? hs)).trans hg)
    · exact hlow x s g (spot?_of_mem_siblings hn hs) ((below?_of_mem_siblings hn (mem_ids_of_spot? hs)).trans hg)

end Forest

namespace FieldTree

variable {C : Kind → Step → Node → Prop} {t : FieldTree} {new : Forest} {id parent x : NodeId} {p q : Place}

/-- All nodes of a tree but the root meet what the kind of their parent asks for. -/
def Fits (C : Kind → Step → Node → Prop) (t : FieldTree) : Prop :=
  t.fields.Fits C t.root.kind

/-- What is below a node fits the kind of the node. -/
theorem Fits.below? (h : t.Fits C) (hn : t.fields.ids.Nodup) {g : Forest} (hp : t.place? x = some p)
    (hg : t.below? x = some g) : g.Fits C p.node.kind := by
  by_cases hx : x = rootId
  · subst hx
    rw [place?_root] at hp
    rw [below?_root] at hg
    obtain rfl := Option.some.inj hp
    obtain rfl := Option.some.inj hg
    exact h
  · rw [place?_of_ne_root t hx, Option.map_eq_some_iff] at hp
    obtain ⟨s, hs, rfl⟩ := hp
    rw [below?_of_ne_root t hx] at hg
    exact Forest.Fits.below? h hn hs hg

/-- A node meets what its parent asks for. -/
theorem Fits.child (h : t.Fits C) (ht : t.Keyed) (hq : t.place? x = some q) (hparent : q.parent = some parent)
    (hp : t.place? parent = some p) : ∃ key, q.key = some key ∧ C p.node.kind key q.node := by
  obtain ⟨g, hg⟩ := exists_below? hp
  obtain ⟨-, -, key, -, -, hkey, -⟩ := exists_place?_parent ht (ne_root_of_parent hq hparent) hq
  have hmem : ⟨x, key, q.node⟩ ∈ g.heads := (mem_heads_below? ht hg).2 ⟨q, hq, hparent, hkey, rfl⟩
  exact ⟨key, hkey, (h.below? ht.nodup hp hg).head hmem⟩

/-- A forest may be added below a node if it fits the kind of the node. -/
theorem fits_graft (hn : t.fields.ids.Nodup) (hp : t.place? parent = some p) :
    (t.graft parent new).Fits C ↔ t.Fits C ∧ new.Fits C p.node.kind := by
  unfold FieldTree.graft
  split
  next hroot =>
    rw [hroot, place?_root] at hp
    obtain rfl := Option.some.inj hp
    exact Forest.fits_append
  next hroot =>
    rw [place?_of_ne_root t hroot, Option.map_eq_some_iff] at hp
    obtain ⟨s, hs, rfl⟩ := hp
    refine (Forest.fits_graft hn).trans (and_congr_right fun _ => ?_)
    rw [hs]
    exact ⟨fun h => h s rfl, fun h s' hs' => Option.some.inj hs' ▸ h⟩

theorem Fits.without (h : t.Fits C) (id : NodeId) : (t.without id).Fits C :=
  Forest.fits_erase h

theorem Fits.modify (h : t.Fits C) {change : Node → Node} (hkind : ∀ n, (change n).kind = n.kind)
    (hchange : ∀ above key node, C above key node → C above key (change node)) : (t.modify id change).Fits C := by
  unfold FieldTree.modify
  split
  · show t.fields.Fits C (change t.root).kind
    rw [hkind]
    exact h
  · exact Forest.fits_modify hkind hchange h

/-- A node may be given a key that meets the condition wherever the old key does. -/
theorem Fits.withKey (h : t.Fits C) (hn : t.fields.ids.Nodup) (hid : id ≠ rootId) (hq : t.place? id = some q)
    {newKey : Step} (hkey : ∀ key a, q.key = some key → C a key q.node → C a newKey q.node) :
    (t.withKey id newKey).Fits C := by
  refine Forest.fits_rekey h hn fun s hs a => ?_
  rw [place?_of_ne_root t hid, hs] at hq
  obtain rfl := Option.some.inj hq
  exact hkey s.key a rfl

end FieldTree

end LiveForm
