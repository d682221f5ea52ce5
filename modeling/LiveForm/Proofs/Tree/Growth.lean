import LiveForm.Proofs.Tree.Children
import LiveForm.Tree.Edit

/-!
# Growing a tree

New nodes under a parent leave all places alone that were there before. The places of the new nodes are
their spots in the forest that is added, seen from the parent.
-/

set_option autoImplicit false

namespace LiveForm

namespace Forest

theorem ids_append (f g : Forest) : (f.append g).ids = f.ids ++ g.ids := by
  induction f with
  | nil => rfl
  | cons id key node children siblings _ ihs => simp [append, ids, ihs]

theorem heads_append (f g : Forest) : (f.append g).heads = f.heads ++ g.heads := by
  induction f with
  | nil => rfl
  | cons id key node children siblings _ ihs => simp [append, heads, ihs]

theorem spot?_append (x : NodeId) (f g : Forest) :
    (f.append g).spot? x = (f.spot? x).or (g.spot? x) := by
  induction f with
  | nil => rfl
  | cons id key node children siblings _ ihs =>
    simp only [append, spot?]
    split
    · rfl
    · rw [ihs, Option.or_assoc]

theorem below?_append (x : NodeId) (f g : Forest) :
    (f.append g).below? x = (f.below? x).or (g.below? x) := by
  induction f with
  | nil => rfl
  | cons id key node children siblings _ ihs =>
    simp only [append, below?]
    split
    · rfl
    · rw [ihs, Option.or_assoc]

theorem distinctKeys_append {f g : Forest} (hf : f.DistinctKeys) (hg : g.DistinctKeys)
    (h : ∀ c ∈ f.heads, ∀ c' ∈ g.heads, c'.key ≠ c.key) : (f.append g).DistinctKeys := by
  induction f with
  | nil => exact hg
  | cons id key node children siblings _ ihs =>
    obtain ⟨hkh, hkc, hks⟩ := hf
    simp only [heads, List.forall_mem_cons] at h
    refine ⟨?_, hkc, ihs hks h.2⟩
    simp only [heads_append, List.forall_mem_append]
    exact ⟨hkh, h.1⟩

variable {target : NodeId} {new : Forest}

theorem heads_graft (f : Forest) : (f.graft target new).heads = f.heads := by
  induction f with
  | nil => rfl
  | cons id key node children siblings _ ihs => simp [graft, heads, ihs]

/-- Nothing is added where the parent is not found. -/
theorem graft_of_not_mem {f : Forest} (h : target ∉ f.ids) : f.graft target new = f := by
  induction f with
  | nil => rfl
  | cons id key node children siblings ihc ihs =>
    simp only [ids, List.mem_cons, List.mem_append, not_or] at h
    simp [graft, ihc h.2.1, ihs h.2.2, Ne.symm h.1]

/-- The new handles are added where the parent stands. -/
theorem mem_ids_graft {f : Forest} {x : NodeId} :
    x ∈ (f.graft target new).ids ↔ x ∈ f.ids ∨ target ∈ f.ids ∧ x ∈ new.ids := by
  induction f with
  | nil => simp [graft, ids]
  | cons id key node children siblings ihc ihs =>
    simp only [graft, ids, List.mem_cons, List.mem_append, ihs]
    by_cases hid : id = target
    · simp only [if_pos hid, ids_append, List.mem_append, ihc]
      simp only [hid, true_or, true_and]
      grind
    · simp only [if_neg hid, ihc, Ne.symm hid, false_or]
      grind

theorem nodup_ids_graft {f : Forest} (hf : f.ids.Nodup) (hn : new.ids.Nodup)
    (hdisj : ∀ x ∈ f.ids, x ∉ new.ids) : (f.graft target new).ids.Nodup := by
  induction f with
  | nil => simp [graft, ids]
  | cons id key node children siblings ihc ihs =>
    obtain ⟨hic, his, hnc, hns, hcs⟩ := nodup_ids_cons hf
    simp only [ids, List.forall_mem_cons, List.forall_mem_append] at hdisj
    obtain ⟨hid, hdc, hds⟩ := hdisj
    by_cases ht : id = target
    · subst ht
      have hc : children.graft id new = children := graft_of_not_mem hic
      have hs : siblings.graft id new = siblings := graft_of_not_mem his
      simp only [graft, if_true, hc, hs, ids, ids_append, List.nodup_cons, List.nodup_append,
        List.mem_append, not_or]
      refine ⟨⟨⟨hic, hid⟩, his⟩, ⟨hnc, hn, ?_⟩, hns, ?_⟩
      · exact fun x hx y hy he => hdc x hx (he ▸ hy)
      · rintro x (hx | hx) y hy he
        · exact hcs x hx (he ▸ hy)
        · exact hds y hy (he ▸ hx)
    · simp only [graft, if_neg ht, ids, List.nodup_cons, List.nodup_append, List.mem_append, not_or,
        mem_ids_graft]
      refine ⟨⟨⟨hic, fun h => hid h.2⟩, his, fun h => hid h.2⟩, ihc hnc hdc, ihs hns hds, ?_⟩
      rintro x (hx | ⟨hxt, hx⟩) y (hy | ⟨hyt, hy⟩) rfl
      · exact hcs x hx hy
      · exact hdc x hx hy
      · exact hds x hy hx
      · exact hcs target hxt hyt

/-- The places of the old nodes stay what they were. -/
theorem spot?_graft_of_not_mem {f : Forest} {x : NodeId} (h : x ∉ new.ids) :
    (f.graft target new).spot? x = f.spot? x := by
  induction f with
  | nil => rfl
  | cons id key node children siblings ihc ihs =>
    simp only [graft, spot?, ihs]
    split
    · rfl
    · split
      · rw [spot?_append, spot?_eq_none.2 h, Option.or_none, ihc]
      · rw [ihc]

/-- The places of the new nodes continue that of the parent. -/
theorem spot?_graft_of_mem {f : Forest} {x : NodeId} {u : Spot} (hf : f.ids.Nodup)
    (hu : f.spot? target = some u) (hxf : x ∉ f.ids) :
    (f.graft target new).spot? x = (new.spot? x).map (·.under target u) := by
  induction f generalizing u with
  | nil => simp [spot?] at hu
  | cons id key node children siblings ihc ihs =>
    obtain ⟨hic, his, hnc, hns, hcs⟩ := nodup_ids_cons hf
    simp only [ids, List.mem_cons, List.mem_append, not_or] at hxf
    obtain ⟨hxi, hxc, hxs⟩ := hxf
    simp only [graft, spot?, if_neg (Ne.symm hxi)]
    rcases spot?_cases hu with ⟨rfl, rfl⟩ | ⟨ht, v, hv, rfl⟩ | ⟨ht, htc, hu⟩
    · rw [if_pos rfl, graft_of_not_mem hic, graft_of_not_mem his, spot?_append,
        spot?_eq_none.2 hxc, spot?_eq_none.2 hxs, Option.none_or, Option.or_none]
      cases new.spot? x with
      | none => rfl
      | some s => simp [Spot.beneath, Spot.under]
    · have hts : target ∉ siblings.ids := hcs _ (mem_ids_of_spot? hv)
      rw [if_neg ht, graft_of_not_mem hts, spot?_eq_none.2 hxs, Option.or_none, ihc hnc hv hxc]
      cases new.spot? x with
      | none => rfl
      | some s => simp [Spot.beneath, Spot.under, Bool.or_assoc]
    · rw [if_neg ht, graft_of_not_mem htc, spot?_eq_none.2 hxc, Option.map_none, Option.none_or]
      exact ihs hns hu hxs

/-- What is below the new nodes is what the new forest has there. -/
theorem below?_graft_of_mem {f : Forest} {x : NodeId} (hf : f.ids.Nodup) (ht : target ∈ f.ids)
    (hxf : x ∉ f.ids) : (f.graft target new).below? x = new.below? x := by
  induction f with
  | nil => simp [ids] at ht
  | cons id key node children siblings ihc ihs =>
    obtain ⟨hic, his, hnc, hns, hcs⟩ := nodup_ids_cons hf
    simp only [ids, List.mem_cons, List.mem_append, not_or] at hxf ht
    obtain ⟨hxi, hxc, hxs⟩ := hxf
    simp only [graft, below?, if_neg (Ne.symm hxi)]
    by_cases hid : id = target
    · subst hid
      rw [if_pos rfl, graft_of_not_mem hic, graft_of_not_mem his, below?_append, below?_eq_none.2 hxc,
        below?_eq_none.2 hxs, Option.none_or, Option.or_none]
    · rw [if_neg hid]
      rcases ht with rfl | htc | hts
      · exact absurd rfl hid
      · rw [graft_of_not_mem (hcs _ htc), ihc hnc htc hxc, below?_eq_none.2 hxs, Option.or_none]
      · have htc : target ∉ children.ids := fun hc => hcs _ hc hts
        rw [graft_of_not_mem htc, below?_eq_none.2 hxc, Option.none_or]
        exact ihs hns hts hxs

/-- What is below a node changes only by what is added there. -/
theorem below?_graft_of_ne {x : NodeId} (f : Forest) (hx : x ∉ new.ids) (ht : target ≠ x) :
    (f.graft target new).below? x = (f.below? x).map (·.graft target new) := by
  have hnew : new.below? x = none := below?_eq_none.2 hx
  induction f with
  | nil => rfl
  | cons id key node children siblings ihc ihs =>
    simp only [graft, below?]
    by_cases hid : id = x
    · rw [if_pos hid, if_pos hid, if_neg fun he => ht (he.symm.trans hid)]
      rfl
    · rw [if_neg hid, if_neg hid, ihs]
      have hc : (if id = target then (children.graft target new).append new
          else children.graft target new).below? x = (children.below? x).map (·.graft target new) := by
        split
        · rw [below?_append, hnew, Option.or_none, ihc]
        · exact ihc
      rw [hc]
      cases children.below? x <;> rfl

/-- The forest below the parent is prolonged by the new one. -/
theorem below?_graft {f g : Forest} (hf : f.ids.Nodup) (hg : f.below? target = some g) :
    (f.graft target new).below? target = some (g.append new) := by
  induction f with
  | nil => simp [below?] at hg
  | cons id key node children siblings ihc ihs =>
    obtain ⟨hic, -, hnc, hns, -⟩ := nodup_ids_cons hf
    rw [graft, below?]
    rcases below?_cases hg with ⟨rfl, rfl⟩ | ⟨ht, hg⟩ | ⟨ht, htc, hg⟩
    · rw [if_pos rfl, if_pos rfl, graft_of_not_mem hic]
    · rw [if_neg ht, if_neg ht, ihc hnc hg, Option.some_or]
    · rw [if_neg ht, if_neg ht, graft_of_not_mem htc, below?_eq_none.2 htc, Option.none_or, ihs hns hg]

theorem distinctKeys_graft {f : Forest} (hf : f.ids.Nodup) (hk : f.DistinctKeys)
    (hnew : new.DistinctKeys)
    (h : ∀ g, f.below? target = some g → ∀ c ∈ g.heads, ∀ c' ∈ new.heads, c'.key ≠ c.key) :
    (f.graft target new).DistinctKeys := by
  induction f with
  | nil => exact hk
  | cons id key node children siblings ihc ihs =>
    obtain ⟨hic, -, hnc, hns, -⟩ := nodup_ids_cons hf
    obtain ⟨hkh, hkc, hks⟩ := hk
    refine ⟨by rwa [heads_graft], ?_, ?_⟩
    · by_cases ht : id = target
      · subst ht
        rw [if_pos rfl, graft_of_not_mem hic]
        exact distinctKeys_append hkc hnew (h children (by rw [below?, if_pos rfl]))
      · rw [if_neg ht]
        exact ihc hnc hkc fun g hg => h g ((below?_of_mem_children hf (mem_of_below? hg)).trans hg)
    · exact ihs hns hks fun g hg => h g ((below?_of_mem_siblings hf (mem_of_below? hg)).trans hg)

end Forest

namespace FieldTree

variable {t : FieldTree} {parent : NodeId} {new : Forest} {p : Place}

theorem root_graft (t : FieldTree) (parent : NodeId) (new : Forest) : (t.graft parent new).root = t.root := by
  unfold graft
  split <;> rfl

theorem rootKey_graft (t : FieldTree) (parent : NodeId) (new : Forest) : (t.graft parent new).rootKey = t.rootKey := by
  unfold graft
  split <;> rfl

theorem mem_ids_graft {x : NodeId} : x ∈ (t.graft parent new).fields.ids ↔
    x ∈ t.fields.ids ∨ (parent = rootId ∨ parent ∈ t.fields.ids) ∧ x ∈ new.ids := by
  unfold graft
  split
  next hp => simp [Forest.ids_append, hp]
  next hp => simp [Forest.mem_ids_graft, hp]

theorem nodup_ids_graft (h : t.fields.ids.Nodup) (hn : new.ids.Nodup) (hnot : ∀ x ∈ t.fields.ids, x ∉ new.ids) :
    (t.graft parent new).fields.ids.Nodup := by
  unfold graft
  split
  · rw [Forest.ids_append]
    exact List.nodup_append.2 ⟨h, hn, fun x hx y hy he => hnot x hx (he ▸ hy)⟩
  · exact Forest.nodup_ids_graft h hn hnot

/-- The children of the parent are told apart from the new ones by their keys. -/
theorem distinctKeys_graft (h : t.Keyed) (hk : new.DistinctKeys)
    (hkeys : ∀ g, t.below? parent = some g → ∀ c ∈ g.heads, ∀ c' ∈ new.heads, c'.key ≠ c.key) :
    (t.graft parent new).fields.DistinctKeys := by
  unfold graft
  split
  next hp =>
    rw [hp, below?_root] at hkeys
    exact Forest.distinctKeys_append h.keys hk (hkeys _ rfl)
  next hp =>
    rw [below?_of_ne_root t hp] at hkeys
    exact Forest.distinctKeys_graft h.nodup h.keys hk hkeys

/-- The forest that stands below a node once another one has been added there. -/
theorem below?_graft_self (h : t.Keyed) {g : Forest} (hg : t.below? parent = some g) :
    (t.graft parent new).below? parent = some (g.append new) := by
  by_cases hp : parent = rootId
  · subst hp
    rw [below?_root] at hg
    obtain rfl := Option.some.inj hg
    rw [graft, if_pos rfl, below?_root]
  · rw [below?_of_ne_root t hp] at hg
    rw [graft, if_neg hp, below?_of_ne_root _ hp]
    exact Forest.below?_graft h.nodup hg

/-- What is below a node does not change if nothing is added there. -/
theorem below?_graft_other {x : NodeId} {g : Forest} (hg : t.below? x = some g)
    (hx : x ≠ rootId) (hpx : parent ≠ x) (hpg : parent ∉ g.ids) (hnew : x ∉ new.ids) :
    (t.graft parent new).below? x = some g := by
  rw [below?_of_ne_root t hx] at hg
  rw [below?_of_ne_root _ hx, graft]
  split
  · rw [Forest.below?_append, hg]
    rfl
  · rw [Forest.below?_graft_of_ne _ hnew hpx, hg, Option.map_some, Forest.graft_of_not_mem hpg]

/-- A node has the same children if none are added to it. -/
theorem children_graft {x : NodeId} (hpx : parent ≠ x) (hnew : x ∉ new.ids) :
    (t.graft parent new).children x = t.children x := by
  rw [children_eq, children_eq]
  by_cases hx : x = rootId
  · subst hx
    rw [below?_root, below?_root, graft, if_neg hpx]
    simp [Forest.heads_graft]
  · rw [below?_of_ne_root t hx, below?_of_ne_root _ hx, graft]
    split
    · rw [Forest.below?_append, Forest.below?_eq_none.2 hnew, Option.or_none]
    · rw [Forest.below?_graft_of_ne _ hnew hpx]
      cases t.fields.below? x with
      | none => rfl
      | some g => simp [Forest.heads_graft]

/-- An array has the same elements if none are added to it. -/
theorem elements_graft {array : NodeId} (hpx : parent ≠ array) (hnew : array ∉ new.ids) :
    (t.graft parent new).elements array = t.elements array := by
  unfold elements
  rw [children_graft hpx hnew]

theorem below?_graft_new (h : t.Keyed) (hp : t.place? parent = some p) {x : NodeId}
    (hx : t.next ≤ x) : (t.graft parent new).below? x = new.below? x := by
  have hxr : x ≠ rootId := Nat.ne_of_gt (Nat.lt_of_lt_of_le h.next_pos hx)
  have hxf : x ∉ t.fields.ids := fun hm => Nat.not_lt.2 hx (h.lt_next x hm)
  rw [below?_of_ne_root _ hxr, graft]
  split
  · rw [Forest.below?_append, Forest.below?_eq_none.2 hxf, Option.none_or]
  next hpr => exact Forest.below?_graft_of_mem h.nodup (mem_ids_of_place? hpr hp) hxf

/-- The old places are what they were, and the new ones continue that of the parent. -/
theorem place?_graft (h : t.Keyed) (hp : t.place? parent = some p)
    (hfresh : ∀ x ∈ new.ids, t.next ≤ x) (x : NodeId) :
    (t.graft parent new).place? x =
      if x ∈ new.ids then (new.spot? x).map (·.place parent p.path p.inTemplate) else t.place? x := by
  have hne (hx : x ∈ new.ids) : x ≠ rootId :=
    Nat.ne_of_gt (Nat.lt_of_lt_of_le h.next_pos (hfresh x hx))
  have hnot (hx : x ∈ new.ids) : x ∉ t.fields.ids := fun hm =>
    absurd (h.lt_next x hm) (Nat.not_lt.2 (hfresh x hx))
  by_cases hpr : parent = rootId
  · subst hpr
    rw [place?_root] at hp
    obtain rfl := Option.some.inj hp
    rw [graft, if_pos rfl]
    by_cases hx : x ∈ new.ids
    · rw [if_pos hx, place?_of_ne_root _ (hne hx), Forest.spot?_append, Forest.spot?_eq_none.2 (hnot hx),
        Option.none_or]
      rfl
    · rw [if_neg hx]
      by_cases hroot : x = rootId
      · subst hroot
        rw [place?_root, place?_root]
        rfl
      · rw [place?_of_ne_root _ hroot, place?_of_ne_root t hroot, Forest.spot?_append,
          Forest.spot?_eq_none.2 hx, Option.or_none]
        rfl
  · rw [graft, if_neg hpr]
    rw [place?_of_ne_root t hpr, Option.map_eq_some_iff] at hp
    obtain ⟨u, hu, rfl⟩ := hp
    by_cases hx : x ∈ new.ids
    · rw [if_pos hx, place?_of_ne_root _ (hne hx), Forest.spot?_graft_of_mem h.nodup hu (hnot hx)]
      cases new.spot? x with
      | none => rfl
      | some s => simp [Spot.place, Spot.under, rootPlace, locatedRoot, Located.place, Bool.or_assoc]
    · rw [if_neg hx]
      by_cases hroot : x = rootId
      · subst hroot
        rw [place?_root, place?_root]
        rfl
      · rw [place?_of_ne_root _ hroot, place?_of_ne_root t hroot, Forest.spot?_graft_of_not_mem hx]
        rfl

/-- A tree stays well-formed when a forest is added whose handles and keys are new. -/
theorem WellFormed.graft (h : t.WellFormed) (hp : t.place? parent = some p)
    (hfresh : ∀ x ∈ new.ids, t.next ≤ x) {next : NodeId} (hnext : ∀ x ∈ new.ids, x < next)
    (hle : t.next ≤ next) (hn : new.ids.Nodup) (hk : new.DistinctKeys)
    (hkeys : ∀ g, t.below? parent = some g → ∀ c ∈ g.heads, ∀ c' ∈ new.heads, c'.key ≠ c.key)
    (hformulas : ∀ x s, new.spot? x = some s → s.node.formula.isSome → s.node.kind = .field) :
    ({ t.graft parent new with next := next } : FieldTree).WellFormed := by
  have hnot (x : NodeId) (hx : x ∈ t.fields.ids) : x ∉ new.ids := fun hm =>
    Nat.not_lt.2 (hfresh x hm) (h.lt_next x hx)
  have hmem {x : NodeId} (hx : x ∈ (t.graft parent new).fields.ids) : x ∈ t.fields.ids ∨ x ∈ new.ids :=
    (mem_ids_graft.1 hx).imp_right And.right
  refine
    { nodup := nodup_ids_graft h.nodup hn hnot
      ne_root := fun x hx => ?_
      lt_next := fun x hx => ?_
      next_pos := Nat.lt_of_lt_of_le h.next_pos hle
      keys := distinctKeys_graft h.keyed hk hkeys
      root_group := (congrArg Node.kind (root_graft t parent new)).trans h.root_group
      root_live := (congrArg Node.isTemplate (root_graft t parent new)).trans h.root_live
      formulas := fun x q hq => ?_ }
  · rcases hmem hx with hx | hx
    · exact h.ne_root x hx
    · exact Nat.ne_of_gt (Nat.lt_of_lt_of_le h.next_pos (hfresh x hx))
  · rcases hmem hx with hx | hx
    · exact Nat.lt_of_lt_of_le (h.lt_next x hx) hle
    · exact hnext x hx
  · have hq' : (t.graft parent new).place? x = some q := hq
    rw [place?_graft h.keyed hp hfresh] at hq'
    split at hq'
    · obtain ⟨s, hs, rfl⟩ := Option.map_eq_some_iff.1 hq'
      exact hformulas x s hs
    · exact h.formulas x q hq'

end FieldTree

end LiveForm
