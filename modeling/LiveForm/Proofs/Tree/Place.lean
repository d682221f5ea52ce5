import LiveForm.Selector.Match

/-!
# Places of nodes

What a tree says about one of its nodes, without what is below it: the key, the data, the parent, the
path, and whether the node lies in a template. Selectors, edits and the dependency graph ask for no more
than that, so an edit of a tree is described by the places that it changes.

Inside a forest a place is counted from the top of the forest (`Spot`). This makes the facts about
forests independent of where the forest stands.
-/

set_option autoImplicit false

namespace LiveForm

/-- What a tree says about one of its nodes. -/
structure Place where
  key : Option Step
  node : Node
  parent : Option NodeId
  path : Path
  inTemplate : Bool

/-- The place of a node, without what is below the node. -/
def Located.place (l : Located) : Place :=
  { key := l.key, node := l.node, parent := l.parent, path := l.path, inTemplate := l.inTemplate }

/-- The place of a node, counted from the top of a forest. -/
structure Spot where
  key : Step
  node : Node
  /-- The parent; the nodes of the forest itself have none. -/
  parent : Option NodeId
  /-- The steps that lead to the node from above the forest. -/
  steps : List Step
  /-- Whether the node is a template or lies below one, as far as the forest shows it. -/
  inTemplate : Bool

namespace Spot

/-- The spot of a node among the children of another one, counted from where the latter stands. -/
def beneath (s : Spot) (id : NodeId) (key : Step) (node : Node) : Spot :=
  { s with
    parent := some (s.parent.getD id)
    steps := key :: s.steps
    inTemplate := node.isTemplate || s.inTemplate }

/-- The spot of a node below another one, whose own spot is given. -/
def under (s : Spot) (id : NodeId) (upper : Spot) : Spot :=
  { s with
    parent := some (s.parent.getD id)
    steps := upper.steps ++ s.steps
    inTemplate := upper.inTemplate || s.inTemplate }

/-- The place of a node in a forest that stands below the node `parent`. -/
def place (s : Spot) (parent : NodeId) (above : Path) (inTemplate : Bool) : Place :=
  { key := some s.key
    node := s.node
    parent := some (s.parent.getD parent)
    path := ⟨above.steps ++ s.steps⟩
    inTemplate := inTemplate || s.inTemplate }

end Spot

namespace Forest

/-- The spot of a node, found by its handle. -/
def spot? (target : NodeId) : Forest → Option Spot
  | nil => none
  | cons id key node children siblings =>
    if id = target then
      some { key, node, parent := none, steps := [key], inTemplate := node.isTemplate }
    else
      ((children.spot? target).map (·.beneath id key node)).or (siblings.spot? target)

/-- The forest below a node. -/
def below? (target : NodeId) : Forest → Option Forest
  | nil => none
  | cons id _ _ children siblings =>
    if id = target then some children else (children.below? target).or (siblings.below? target)

/-- Whether no two nodes under one parent have the same key. -/
def DistinctKeys : Forest → Prop
  | nil => True
  | cons _ key _ children siblings =>
    (∀ c ∈ siblings.heads, c.key ≠ key) ∧ children.DistinctKeys ∧ siblings.DistinctKeys

/-- The place that a walk finds is the spot in the forest, seen from where the forest stands. -/
theorem map_place_locate? (target parent : NodeId) (above : Path) (inTemplate : Bool) (f : Forest) :
    (f.locate? target parent above inTemplate).map Located.place =
      (f.spot? target).map (·.place parent above inTemplate) := by
  induction f generalizing parent above inTemplate with
  | nil => rfl
  | cons id key node children siblings ihc ihs =>
    simp only [locate?, spot?]
    by_cases h : id = target
    · simp [h, Located.place, Spot.place, Path.child]
    · rw [if_neg h, if_neg h, Option.map_or, Option.map_or, ihc, ihs]
      congr 1
      cases children.spot? target with
      | none => rfl
      | some s => simp [Spot.place, Spot.beneath, Path.child, Bool.or_assoc]

/-- The forest that a walk finds below a node. -/
theorem map_children_locate? (target parent : NodeId) (above : Path) (inTemplate : Bool)
    (f : Forest) :
    (f.locate? target parent above inTemplate).map Located.children = f.below? target := by
  induction f generalizing parent above inTemplate with
  | nil => rfl
  | cons id key node children siblings ihc ihs =>
    simp only [locate?, below?]
    by_cases h : id = target
    · simp [h]
    · rw [if_neg h, if_neg h, Option.map_or, ihc, ihs]

/-- A walk returns the handle that it looked for. -/
theorem id_of_locate? {target parent : NodeId} {above : Path} {inTemplate : Bool} {f : Forest}
    {l : Located} (h : f.locate? target parent above inTemplate = some l) : l.id = target := by
  induction f generalizing parent above inTemplate with
  | nil => simp [locate?] at h
  | cons id key node children siblings ihc ihs =>
    simp only [locate?] at h
    by_cases hid : id = target
    · rw [if_pos hid] at h
      rw [← Option.some.inj h]
      exact hid
    · rw [if_neg hid, Option.or_eq_some_iff] at h
      rcases h with h | ⟨_, h⟩
      · exact ihc h
      · exact ihs h

/-- The nodes with a spot are those of the forest. -/
theorem isSome_spot? (target : NodeId) (f : Forest) :
    (f.spot? target).isSome ↔ target ∈ f.ids := by
  induction f with
  | nil => simp [spot?, ids]
  | cons id key node children siblings ihc ihs =>
    simp only [spot?, ids, List.mem_cons, List.mem_append]
    by_cases h : id = target
    · simp [h]
    · rw [if_neg h, Option.isSome_or, Bool.or_eq_true, Option.isSome_map, ihc, ihs]
      simp [Ne.symm h]

theorem mem_ids_of_spot? {target : NodeId} {f : Forest} {s : Spot} (h : f.spot? target = some s) :
    target ∈ f.ids :=
  (isSome_spot? target f).1 (by simp [h])

theorem spot?_eq_none {target : NodeId} {f : Forest} : f.spot? target = none ↔ target ∉ f.ids := by
  rw [← isSome_spot?, Option.not_isSome_iff_eq_none]

/-- A node has a spot exactly if there is a forest below it. -/
theorem isSome_below? (target : NodeId) (f : Forest) :
    (f.below? target).isSome ↔ target ∈ f.ids := by
  induction f with
  | nil => simp [below?, ids]
  | cons id key node children siblings ihc ihs =>
    simp only [below?, ids, List.mem_cons, List.mem_append]
    by_cases h : id = target
    · simp [h]
    · rw [if_neg h, Option.isSome_or, Bool.or_eq_true, ihc, ihs]
      simp [Ne.symm h]

theorem exists_below? {target : NodeId} {f : Forest} (h : target ∈ f.ids) :
    ∃ g, f.below? target = some g :=
  Option.isSome_iff_exists.1 ((isSome_below? target f).2 h)

theorem below?_eq_none {target : NodeId} {f : Forest} : f.below? target = none ↔ target ∉ f.ids := by
  rw [← isSome_below?, Option.not_isSome_iff_eq_none]

/-- A node with a forest below it belongs to the forest. -/
theorem mem_of_below? {target : NodeId} {f g : Forest} (h : f.below? target = some g) : target ∈ f.ids :=
  (isSome_below? target f).1 (Option.isSome_of_eq_some h)

section Cases

variable {id x : NodeId} {key : Step} {node : Node} {children siblings : Forest}

/-- A node of a forest is the first one, or it is below the first one, or else beside it. -/
theorem spot?_cases {s : Spot} (h : (cons id key node children siblings).spot? x = some s) :
    (id = x ∧ s = { key, node, parent := none, steps := [key], inTemplate := node.isTemplate }) ∨
      (id ≠ x ∧ ∃ v, children.spot? x = some v ∧ s = v.beneath id key node) ∨
      (id ≠ x ∧ x ∉ children.ids ∧ siblings.spot? x = some s) := by
  rw [spot?] at h
  by_cases hid : id = x
  · rw [if_pos hid] at h
    exact .inl ⟨hid, (Option.some.inj h).symm⟩
  · rw [if_neg hid, Option.or_eq_some_iff] at h
    rcases h with h | ⟨hnone, h⟩
    · obtain ⟨v, hv, rfl⟩ := Option.map_eq_some_iff.1 h
      exact .inr (.inl ⟨hid, v, hv, rfl⟩)
    · exact .inr (.inr ⟨hid, spot?_eq_none.1 (Option.map_eq_none_iff.1 hnone), h⟩)

theorem below?_cases {g : Forest} (h : (cons id key node children siblings).below? x = some g) :
    (id = x ∧ g = children) ∨ (id ≠ x ∧ children.below? x = some g) ∨
      (id ≠ x ∧ x ∉ children.ids ∧ siblings.below? x = some g) := by
  rw [below?] at h
  by_cases hid : id = x
  · rw [if_pos hid] at h
    exact .inl ⟨hid, (Option.some.inj h).symm⟩
  · rw [if_neg hid, Option.or_eq_some_iff] at h
    rcases h with h | ⟨hnone, h⟩
    · exact .inr (.inl ⟨hid, h⟩)
    · exact .inr (.inr ⟨hid, below?_eq_none.1 hnone, h⟩)

end Cases

/-- The steps to a node start with the key of one of the forest's own nodes. -/
theorem steps_of_spot? {target : NodeId} {f : Forest} {s : Spot} (h : f.spot? target = some s) :
    ∃ c ∈ f.heads, ∃ rest, s.steps = c.key :: rest := by
  induction f generalizing s with
  | nil => simp [spot?] at h
  | cons id key node children siblings ihc ihs =>
    rcases spot?_cases h with ⟨-, rfl⟩ | ⟨-, v, -, rfl⟩ | ⟨-, -, h⟩
    · exact ⟨⟨id, key, node⟩, by simp [heads], [], rfl⟩
    · exact ⟨⟨id, key, node⟩, by simp [heads], v.steps, rfl⟩
    · obtain ⟨c, hc, rest, hs⟩ := ihs h
      exact ⟨c, by simp [heads, hc], rest, hs⟩

theorem steps_ne_nil {target : NodeId} {f : Forest} {s : Spot} (h : f.spot? target = some s) :
    s.steps ≠ [] := by
  obtain ⟨c, _, rest, hs⟩ := steps_of_spot? h
  simp [hs]

/-- The forest's own nodes are nodes of the forest. -/
theorem mem_ids_of_mem_heads {f : Forest} {c : Child} (h : c ∈ f.heads) : c.id ∈ f.ids := by
  induction f with
  | nil => simp [heads] at h
  | cons id key node children siblings _ ihs =>
    simp only [heads, List.mem_cons] at h
    rcases h with rfl | h
    · simp [ids]
    · simp [ids, ihs h]

/-- What is below a node belongs to the forest. -/
theorem mem_ids_of_below? {target x : NodeId} {f g : Forest} (hg : f.below? target = some g)
    (hx : x ∈ g.ids) : x ∈ f.ids := by
  induction f with
  | nil => simp [below?] at hg
  | cons id key node children siblings ihc ihs =>
    rcases below?_cases hg with ⟨-, rfl⟩ | ⟨-, hg⟩ | ⟨-, -, hg⟩
    · simp [ids, hx]
    · simp [ids, ihc hg]
    · simp [ids, ihs hg]

theorem nodup_ids_cons {id : NodeId} {key : Step} {node : Node} {children siblings : Forest}
    (h : (cons id key node children siblings).ids.Nodup) :
    id ∉ children.ids ∧ id ∉ siblings.ids ∧ children.ids.Nodup ∧ siblings.ids.Nodup ∧
      ∀ x ∈ children.ids, x ∉ siblings.ids := by
  simp only [ids, List.nodup_cons, List.nodup_append, List.mem_append, not_or] at h
  obtain ⟨⟨hc, hs⟩, hnc, hns, hdisj⟩ := h
  exact ⟨hc, hs, hnc, hns, fun x hx hx' => hdisj x hx x hx' rfl⟩

section Spots

variable {id x : NodeId} {key : Step} {node : Node} {children siblings : Forest} {s : Spot}
  (hn : (cons id key node children siblings).ids.Nodup)

include hn

/-- A node below the first one is looked for there. -/
theorem spot?_cons_of_mem_children (hx : x ∈ children.ids) :
    (cons id key node children siblings).spot? x = (children.spot? x).map (·.beneath id key node) := by
  obtain ⟨hic, -, -, -, hdisj⟩ := nodup_ids_cons hn
  have hne : id ≠ x := fun he => hic (he ▸ hx)
  rw [spot?, if_neg hne, spot?_eq_none.2 (hdisj x hx), Option.or_none]

/-- A node that is not the first one nor below it is looked for beside it. -/
theorem spot?_cons_of_mem_siblings (hx : x ∈ siblings.ids) :
    (cons id key node children siblings).spot? x = siblings.spot? x := by
  obtain ⟨-, his, -, -, hdisj⟩ := nodup_ids_cons hn
  have hne : id ≠ x := fun he => his (he ▸ hx)
  rw [spot?, if_neg hne, spot?_eq_none.2 fun hc => hdisj x hc hx, Option.map_none, Option.none_or]

/-- The spot of a node below the first one. -/
theorem spot?_of_mem_children (hs : children.spot? x = some s) :
    (cons id key node children siblings).spot? x = some (s.beneath id key node) := by
  rw [spot?_cons_of_mem_children hn (mem_ids_of_spot? hs), hs, Option.map_some]

/-- The spot of a node that is not the first one nor below it. -/
theorem spot?_of_mem_siblings (hs : siblings.spot? x = some s) :
    (cons id key node children siblings).spot? x = some s := by
  rw [spot?_cons_of_mem_siblings hn (mem_ids_of_spot? hs), hs]

/-- What is below a node among the children of the first node. -/
theorem below?_of_mem_children (hx : x ∈ children.ids) :
    (cons id key node children siblings).below? x = children.below? x := by
  obtain ⟨hic, -, -, -, hdisj⟩ := nodup_ids_cons hn
  have hne : id ≠ x := fun he => hic (he ▸ hx)
  rw [below?, if_neg hne, below?_eq_none.2 (hdisj x hx), Option.or_none]

/-- What is below a node that is not the first one nor below it. -/
theorem below?_of_mem_siblings (hx : x ∈ siblings.ids) :
    (cons id key node children siblings).below? x = siblings.below? x := by
  obtain ⟨-, his, -, -, hdisj⟩ := nodup_ids_cons hn
  have hne : id ≠ x := fun he => his (he ▸ hx)
  rw [below?, if_neg hne, below?_eq_none.2 fun hc => hdisj x hc hx, Option.none_or]

end Spots

/-- The handles below a node are distinct as well. -/
theorem nodup_below? {target : NodeId} {f g : Forest} (hn : f.ids.Nodup)
    (hg : f.below? target = some g) : g.ids.Nodup ∧ target ∉ g.ids := by
  induction f with
  | nil => simp [below?] at hg
  | cons id key node children siblings ihc ihs =>
    obtain ⟨hc, _, hnc, hns, _⟩ := nodup_ids_cons hn
    rcases below?_cases hg with ⟨rfl, rfl⟩ | ⟨-, hg⟩ | ⟨-, -, hg⟩
    · exact ⟨hnc, hc⟩
    · exact ihc hnc hg
    · exact ihs hns hg

/-- The keys of the nodes of the forest itself are distinct. -/
theorem nodup_keys {f : Forest} (h : f.DistinctKeys) : (f.heads.map Child.key).Nodup := by
  induction f with
  | nil => exact List.nodup_nil
  | cons id key node children siblings _ ihs =>
    refine List.nodup_cons.2 ⟨fun hmem => ?_, ihs h.2.2⟩
    obtain ⟨c, hc, hkey⟩ := List.mem_map.1 hmem
    exact h.1 c hc hkey

/-- Keys are distinct below every node. -/
theorem DistinctKeys.below? {target : NodeId} {f g : Forest} (hk : f.DistinctKeys)
    (hg : f.below? target = some g) : g.DistinctKeys := by
  induction f with
  | nil => simp [Forest.below?] at hg
  | cons id key node children siblings ihc ihs =>
    obtain ⟨_, hkc, hks⟩ := hk
    rcases below?_cases hg with ⟨-, rfl⟩ | ⟨-, hg⟩ | ⟨-, -, hg⟩
    · exact hkc
    · exact ihc hkc hg
    · exact ihs hks hg

/-- The spot of a node below another one. -/
theorem spot?_of_below? {upper x : NodeId} {f g : Forest} {u : Spot} (hn : f.ids.Nodup)
    (hu : f.spot? upper = some u) (hg : f.below? upper = some g) (hx : x ∈ g.ids) :
    f.spot? x = (g.spot? x).map (·.under upper u) := by
  induction f generalizing u with
  | nil => simp [spot?] at hu
  | cons id key node children siblings ihc ihs =>
    obtain ⟨-, -, hnc, hns, -⟩ := nodup_ids_cons hn
    rcases below?_cases hg with ⟨rfl, rfl⟩ | ⟨-, hg⟩ | ⟨-, -, hg⟩
    · rw [spot?, if_pos rfl] at hu
      obtain rfl := Option.some.inj hu
      rw [spot?_cons_of_mem_children hn hx]
      cases g.spot? x with
      | none => rfl
      | some s => simp [Spot.beneath, Spot.under]
    · obtain ⟨v, hv⟩ := Option.isSome_iff_exists.1 ((isSome_spot? upper children).2 (mem_of_below? hg))
      obtain rfl := Option.some.inj ((spot?_of_mem_children hn hv).symm.trans hu)
      rw [spot?_cons_of_mem_children hn (mem_ids_of_below? hg hx), ihc hnc hv hg]
      cases g.spot? x with
      | none => rfl
      | some s => simp [Spot.beneath, Spot.under, Bool.or_assoc]
    · rw [spot?_cons_of_mem_siblings hn (mem_of_below? hg)] at hu
      rw [spot?_cons_of_mem_siblings hn (mem_ids_of_below? hg hx), ihs hns hu hg]

end Forest

end LiveForm
