import LiveForm.Proofs.Tree.WellFormed

/-!
# Children

The children of a node are the nodes that name it as their parent. What an array has as elements and as
its template, and which child has some key, is therefore a matter of places.
-/

set_option autoImplicit false

namespace LiveForm

namespace Forest

/-- The parent of a node belongs to the forest, unless the node is one of the forest's own nodes. -/
theorem mem_ids_of_parent {x p : NodeId} {f : Forest} {s : Spot} (h : f.spot? x = some s)
    (hp : s.parent = some p) : p ∈ f.ids := by
  induction f generalizing s with
  | nil => simp [spot?] at h
  | cons id key node children siblings ihc ihs =>
    rcases spot?_cases h with ⟨-, rfl⟩ | ⟨-, v, hv, rfl⟩ | ⟨-, -, h⟩
    · simp at hp
    · cases hparent : v.parent with
      | none => simp_all [Spot.beneath, ids]
      | some q =>
        have : q = p := by simpa [Spot.beneath, hparent] using hp
        simp [ids, ihc hv (hparent.trans (congrArg some this))]
    · simp [ids, ihs h hp]

/-- A node stands below its parent. -/
theorem mem_ids_of_parent_below? {x p : NodeId} {f g : Forest} {s : Spot} (hn : f.ids.Nodup)
    (h : f.spot? x = some s) (hp : s.parent = some p) (hg : f.below? p = some g) : x ∈ g.ids := by
  induction f generalizing s with
  | nil => simp [spot?] at h
  | cons id key node children siblings ihc ihs =>
    obtain ⟨-, -, hnc, hns, -⟩ := nodup_ids_cons hn
    rcases spot?_cases h with ⟨-, rfl⟩ | ⟨-, v, hv, rfl⟩ | ⟨-, -, h⟩
    · simp at hp
    · cases hparent : v.parent with
      | none =>
        obtain rfl : id = p := by simpa [Spot.beneath, hparent] using hp
        rw [below?, if_pos rfl] at hg
        exact Option.some.inj hg ▸ mem_ids_of_spot? hv
      | some q =>
        obtain rfl : q = p := by simpa [Spot.beneath, hparent] using hp
        rw [below?_of_mem_children hn (mem_ids_of_parent hv hparent)] at hg
        exact ihc hnc hv hparent hg
    · rw [below?_of_mem_siblings hn (mem_ids_of_parent h hp)] at hg
      exact ihs hns h hp hg

/-- A node without a parent in the forest is one step away from where the forest stands. -/
theorem steps_of_parent_none {x : NodeId} {f : Forest} {s : Spot} (h : f.spot? x = some s)
    (hp : s.parent = none) : s.steps = [s.key] ∧ s.inTemplate = s.node.isTemplate := by
  induction f generalizing s with
  | nil => simp [spot?] at h
  | cons id key node children siblings ihc ihs =>
    rcases spot?_cases h with ⟨-, rfl⟩ | ⟨-, v, -, rfl⟩ | ⟨-, -, h⟩
    · exact ⟨rfl, rfl⟩
    · simp [Spot.beneath] at hp
    · exact ihs h hp

/-- A node is one step away from its parent. -/
theorem spot?_of_parent {x p : NodeId} {f : Forest} {s : Spot} (hn : f.ids.Nodup)
    (h : f.spot? x = some s) (hp : s.parent = some p) : ∃ u, f.spot? p = some u ∧
      s.steps = u.steps ++ [s.key] ∧ s.inTemplate = (u.inTemplate || s.node.isTemplate) := by
  induction f generalizing s with
  | nil => simp [spot?] at h
  | cons id key node children siblings ihc ihs =>
    obtain ⟨-, -, hnc, hns, -⟩ := nodup_ids_cons hn
    rcases spot?_cases h with ⟨-, rfl⟩ | ⟨-, v, hv, rfl⟩ | ⟨-, -, h⟩
    · simp at hp
    · cases hparent : v.parent with
      | none =>
        obtain ⟨hsteps, hin⟩ := steps_of_parent_none hv hparent
        have hip : id = p := by simpa [Spot.beneath, hparent] using hp
        refine ⟨_, if_pos hip, ?_, ?_⟩
        · simp [Spot.beneath, hsteps]
        · simp [Spot.beneath, hin]
      | some q =>
        obtain rfl : q = p := by simpa [Spot.beneath, hparent] using hp
        obtain ⟨u, hu, hsteps, hin⟩ := ihc hnc hv hparent
        refine ⟨u.beneath id key node, spot?_of_mem_children hn hu, ?_, ?_⟩
        · simp [Spot.beneath, hsteps]
        · simp [Spot.beneath, hin, Bool.or_assoc]
    · obtain ⟨u, hu, hrest⟩ := ihs hns h hp
      exact ⟨u, spot?_of_mem_siblings hn hu, hrest⟩

/-- The forest's own nodes are those without a parent in it. -/
theorem mem_heads_iff {f : Forest} (hn : f.ids.Nodup) {c : Child} :
    c ∈ f.heads ↔ ∃ s, f.spot? c.id = some s ∧ s.parent = none ∧ s.key = c.key ∧ s.node = c.node := by
  induction f with
  | nil => simp [heads, spot?]
  | cons id key node children siblings ihc ihs =>
    obtain ⟨-, his, -, hns, -⟩ := nodup_ids_cons hn
    rw [heads, List.mem_cons, ihs hns]
    constructor
    · rintro (rfl | ⟨s, hs, h⟩)
      · exact ⟨_, if_pos rfl, rfl, rfl, rfl⟩
      · exact ⟨s, spot?_of_mem_siblings hn hs, h⟩
    · rintro ⟨s, hs, hp, hkey, hnode⟩
      rcases spot?_cases hs with ⟨hid, rfl⟩ | ⟨-, v, -, rfl⟩ | ⟨-, -, hs⟩
      · obtain ⟨cid, ckey, cnode⟩ := c
        exact .inl (by simp_all)
      · simp [Spot.beneath] at hp
      · exact .inr ⟨s, hs, hp, hkey, hnode⟩

/-- Looking for a key, only the forest's own nodes are looked at. -/
theorem childByKey?_congr {f g : Forest} {key : Step} (h : f.heads = g.heads) :
    f.childByKey? key = g.childByKey? key := by
  induction f generalizing g with
  | nil =>
    cases g with
    | nil => rfl
    | cons => simp [heads] at h
  | cons id k node children siblings _ ihs =>
    cases g with
    | nil => simp [heads] at h
    | cons id' k' node' children' siblings' =>
      simp only [heads, List.cons.injEq, Child.mk.injEq] at h
      obtain ⟨⟨rfl, rfl, rfl⟩, hrest⟩ := h
      simp only [childByKey?, ihs hrest]

/-- A node of the forest's own is found by its key if the keys are distinct. -/
theorem childByKey?_eq_some {f : Forest} (hk : f.DistinctKeys) {key : Step} {id : NodeId} :
    f.childByKey? key = some id ↔ ∃ node, ⟨id, key, node⟩ ∈ f.heads := by
  induction f with
  | nil => simp [childByKey?, heads]
  | cons id' key' node children siblings _ ihs =>
    obtain ⟨hkh, _, hks⟩ := hk
    simp only [childByKey?, heads, List.mem_cons, Child.mk.injEq]
    by_cases h : key' = key
    · subst h
      rw [if_pos rfl, Option.some.injEq]
      constructor
      · rintro rfl
        exact ⟨node, .inl ⟨rfl, rfl, rfl⟩⟩
      · rintro ⟨n, ⟨rfl, -, -⟩ | hmem⟩
        · rfl
        · exact absurd rfl (hkh _ hmem)
    · rw [if_neg h, ihs hks]
      constructor
      · rintro ⟨n, hn⟩
        exact ⟨n, .inr hn⟩
      · rintro ⟨n, ⟨-, rfl, -⟩ | hmem⟩
        · exact absurd rfl h
        · exact ⟨n, hmem⟩

end Forest

namespace FieldTree

variable {t : FieldTree}

theorem children_eq (t : FieldTree) (id : NodeId) :
    t.children id = ((t.below? id).map Forest.heads).getD [] := by
  simp [children, below?, Function.comp_def]

theorem exists_below? {id : NodeId} {p : Place} (h : t.place? id = some p) :
    ∃ g, t.below? id = some g := by
  obtain ⟨l, hl, _⟩ := exists_locate? h
  exact ⟨_, (locate?_eq_some hl).2.1⟩

theorem exists_place?_of_below? {id : NodeId} {g : Forest} (h : t.below? id = some g) :
    ∃ p, t.place? id = some p := by
  obtain ⟨l, hl, _⟩ := Option.map_eq_some_iff.1 h
  exact ⟨_, (locate?_eq_some hl).1⟩

/-- What is below a node in a template is in the template as well. -/
theorem inTemplate_of_within (h : t.Keyed) {upper x : NodeId} (hx : t.Within upper x) {p q : Place}
    (hp : t.place? upper = some p) (hin : p.inTemplate = true) (hq : t.place? x = some q) : q.inTemplate = true := by
  obtain ⟨g, hg⟩ := exists_below? hp
  rcases (within_iff h hg).1 hx with rfl | hx
  · exact Option.some.inj (hp.symm.trans hq) ▸ hin
  · rw [place?_below h hp hg hx, Option.map_eq_some_iff] at hq
    obtain ⟨s, -, rfl⟩ := hq
    simp [Spot.place, hin]

/-- Only the root has no parent, and every other node is one step away from its parent. -/
theorem exists_place?_parent (h : t.Keyed) {x : NodeId} {q : Place} (hx : x ≠ rootId)
    (hq : t.place? x = some q) : ∃ parent p key, q.parent = some parent ∧
      t.place? parent = some p ∧ q.key = some key ∧ q.path = p.path.child key ∧
      q.inTemplate = (p.inTemplate || q.node.isTemplate) := by
  rw [place?_of_ne_root t hx, Option.map_eq_some_iff] at hq
  obtain ⟨s, hs, rfl⟩ := hq
  cases hp : s.parent with
  | none =>
    obtain ⟨hsteps, hin⟩ := Forest.steps_of_parent_none hs hp
    refine ⟨rootId, t.rootPlace, s.key, ?_, place?_root t, rfl, ?_, ?_⟩
    · simp [Spot.place, hp]
    · simp [Spot.place, hsteps, Path.child]
    · simp [Spot.place, hin, rootPlace, Located.place, locatedRoot]
  | some parent =>
    obtain ⟨u, hu, hsteps, hin⟩ := Forest.spot?_of_parent h.nodup hs hp
    have hne : parent ≠ rootId := h.ne_root _ (Forest.mem_ids_of_spot? hu)
    refine ⟨parent, u.place rootId t.rootPlace.path t.root.isTemplate, s.key, ?_, ?_, rfl, ?_, ?_⟩
    · simp [Spot.place, hp]
    · rw [place?_of_ne_root t hne, hu, Option.map_some]
    · simp [Spot.place, hsteps, Path.child]
    · simp [Spot.place, hin, Bool.or_assoc]

/-- A template is in a template: itself. -/
theorem inTemplate_of_isTemplate (h : t.Keyed) {x : NodeId} {p : Place} (hp : t.place? x = some p)
    (htemplate : p.node.isTemplate = true) : p.inTemplate = true := by
  by_cases hroot : x = rootId
  · subst hroot
    rw [place?_root] at hp
    obtain rfl := Option.some.inj hp
    exact htemplate
  · obtain ⟨-, above, -, -, -, -, -, hin⟩ := exists_place?_parent h hroot hp
    rw [hin, htemplate, Bool.or_true]

theorem ne_root_of_parent {x parent : NodeId} {q : Place} (hq : t.place? x = some q)
    (hparent : q.parent = some parent) : x ≠ rootId := by
  rintro rfl
  rw [place?_root] at hq
  obtain rfl := Option.some.inj hq
  simp [rootPlace, locatedRoot, Located.place] at hparent

/-- A node is not above its parent. -/
theorem not_within_parent (h : t.Keyed) {x parent : NodeId} {q : Place} (hq : t.place? x = some q)
    (hparent : q.parent = some parent) : ¬ t.Within x parent := by
  intro hw
  obtain ⟨_, _, key, hparent', hp, -, hpath, -⟩ := exists_place?_parent h (ne_root_of_parent hq hparent) hq
  obtain rfl := Option.some.inj (hparent.symm.trans hparent')
  obtain ⟨u, v, hu, hv, hpre⟩ := hw
  obtain rfl := Option.some.inj (hq.symm.trans hu)
  obtain rfl := Option.some.inj (hp.symm.trans hv)
  have hle := hpre.length_le
  rw [hpath, Path.child, List.length_append, List.length_singleton] at hle
  omega

/-- The parent of a node is in the tree. -/
theorem exists_below?_parent (h : t.Keyed) {x parent : NodeId} {q : Place}
    (hq : t.place? x = some q) (hparent : q.parent = some parent) :
    ∃ g, t.below? parent = some g := by
  obtain ⟨parent', p, _, hparent', hp, -⟩ :=
    exists_place?_parent h (ne_root_of_parent hq hparent) hq
  obtain rfl := Option.some.inj (hparent.symm.trans hparent')
  exact exists_below? hp

/-- The base of a selector that a live node uses is live. -/
theorem exists_place?_base (h : t.Keyed) (s : Selector) {anchor : NodeId} {q : Place}
    (hq : t.place? anchor = some q) (hlive : q.inTemplate = false) :
    ∃ p, t.place? (s.base t anchor) = some p ∧ p.inTemplate = false := by
  have hroot : ∃ p, t.place? rootId = some p ∧ p.inTemplate = false :=
    ⟨_, place?_root t, h.root_live⟩
  rw [base_eq]
  split
  · by_cases ha : anchor = rootId
    · rw [ha, place?_root]
      exact hroot
    · obtain ⟨parent, p, key, hparent, hp, -, -, hin⟩ := exists_place?_parent h ha hq
      rw [hq, Option.bind_some, hparent, Option.getD_some]
      refine ⟨p, hp, ?_⟩
      rw [hlive] at hin
      exact (Bool.or_eq_false_iff.1 hin.symm).1
  · exact hroot

/-- The children of a node are the nodes that name it as their parent. -/
theorem mem_heads_below? (h : t.Keyed) {parent : NodeId} {g : Forest} {c : Child}
    (hg : t.below? parent = some g) : c ∈ g.heads ↔
      ∃ q, t.place? c.id = some q ∧ q.parent = some parent ∧ q.key = some c.key ∧ q.node = c.node := by
  obtain ⟨p, hp⟩ := exists_place?_of_below? hg
  obtain ⟨hnodup, hnot⟩ := nodup_below? h hg
  rw [Forest.mem_heads_iff hnodup]
  constructor
  · rintro ⟨s, hs, hparent, hkey, hnode⟩
    have hplace := place?_below h hp hg (Forest.mem_ids_of_spot? hs)
    rw [hs, Option.map_some] at hplace
    exact ⟨_, hplace, by simp [Spot.place, hparent], by simp [Spot.place, hkey], hnode⟩
  · rintro ⟨q, hq, hparent, hkey, hnode⟩
    -- the parent's path is the initial part of the child's path
    have hmem : c.id ∈ g.ids := by
      by_cases hroot : c.id = rootId
      · rw [hroot, place?_root] at hq
        rw [← Option.some.inj hq] at hparent
        simp [rootPlace, Located.place, locatedRoot] at hparent
      · rw [place?_of_ne_root t hroot, Option.map_eq_some_iff] at hq
        obtain ⟨s, hs, rfl⟩ := hq
        by_cases hpr : parent = rootId
        · rw [hpr, below?_root] at hg
          exact Option.some.inj hg ▸ Forest.mem_ids_of_spot? hs
        · rw [below?_of_ne_root t hpr] at hg
          cases hsp : s.parent with
          | none =>
            rw [Spot.place, hsp] at hparent
            exact absurd (Option.some.inj hparent).symm hpr
          | some parent' =>
            have he : parent' = parent := by simpa [Spot.place, hsp] using hparent
            exact Forest.mem_ids_of_parent_below? h.nodup hs (hsp.trans (congrArg some he)) hg
    have hplace := place?_below h hp hg hmem
    obtain ⟨s, hs⟩ := Option.isSome_iff_exists.1 ((Forest.isSome_spot? _ _).2 hmem)
    rw [hs, Option.map_some, hq] at hplace
    obtain rfl := Option.some.inj hplace
    refine ⟨s, hs, ?_, by simpa [Spot.place] using hkey, hnode⟩
    cases hsp : s.parent with
    | none => rfl
    | some p' =>
      have he : p' = parent := by simpa [Spot.place, hsp] using hparent
      exact absurd (he ▸ Forest.mem_ids_of_parent hs hsp) hnot

end FieldTree

end LiveForm
