import LiveForm.Proofs.Tree.Place
import Mathlib.Tactic.ByContra

/-!
# Well-formed trees

In a well-formed tree no two nodes share a handle and no two siblings share a key. A node is then
determined by its path, and the nodes below another one are those whose paths continue its path.
-/

set_option autoImplicit false

namespace LiveForm

namespace Forest

/-- Where keys are distinct, a path that continues the path of a node leads to that node or below it. -/
theorem mem_below?_of_steps {upper x : NodeId} {f : Forest} {u s : Spot} {rest : List Step}
    (hk : f.DistinctKeys) (hn : f.ids.Nodup) (hu : f.spot? upper = some u)
    (hs : f.spot? x = some s) (h : s.steps = u.steps ++ rest) :
    (rest = [] ∧ x = upper) ∨ ∃ g, f.below? upper = some g ∧ x ∈ g.ids := by
  induction f generalizing u s with
  | nil => simp [spot?] at hu
  | cons id key node children siblings ihc ihs =>
    obtain ⟨hkh, hkc, hks⟩ := hk
    obtain ⟨-, -, hnc, hns, -⟩ := nodup_ids_cons hn
    -- a node beside the first one has a path that starts with another key
    have hstart {y : NodeId} {v : Spot} (hv : siblings.spot? y = some v) (tail : List Step) :
        v.steps ≠ key :: tail := by
      obtain ⟨c, hc, rest, hrest⟩ := steps_of_spot? hv
      rw [hrest]
      intro he
      exact hkh c hc (List.cons.inj he).1
    rcases spot?_cases hu with ⟨rfl, rfl⟩ | ⟨-, u', hu', rfl⟩ | ⟨-, -, hu'⟩
    · rcases spot?_cases hs with ⟨rfl, rfl⟩ | ⟨-, s', hs', rfl⟩ | ⟨-, -, hs'⟩
      · exact .inl ⟨by simpa using h, rfl⟩
      · exact .inr ⟨children, if_pos rfl, mem_ids_of_spot? hs'⟩
      · exact absurd h (hstart hs' rest)
    · rcases spot?_cases hs with ⟨rfl, rfl⟩ | ⟨-, s', hs', rfl⟩ | ⟨-, -, hs'⟩
      · simp [Spot.beneath, steps_ne_nil hu'] at h
      · rcases ihc hkc hnc hu' hs' (by simpa [Spot.beneath] using h) with h | ⟨g, hg, hx⟩
        · exact .inl h
        · exact .inr ⟨g, (below?_of_mem_children hn (mem_of_below? hg)).trans hg, hx⟩
      · exact absurd h (hstart hs' _)
    · obtain ⟨k, tail, hsteps⟩ := List.exists_cons_of_ne_nil (steps_ne_nil hu')
      have hother : k ≠ key := by
        rintro rfl
        exact hstart hu' tail hsteps
      rcases spot?_cases hs with ⟨rfl, rfl⟩ | ⟨-, s', hs', rfl⟩ | ⟨-, -, hs'⟩
      · rw [hsteps] at h
        exact absurd (List.cons.inj h).1.symm hother
      · rw [hsteps] at h
        exact absurd (List.cons.inj h).1.symm hother
      · rcases ihs hks hns hu' hs' h with h | ⟨g, hg, hx⟩
        · exact .inl h
        · exact .inr ⟨g, (below?_of_mem_siblings hn (mem_of_below? hg)).trans hg, hx⟩

theorem matching_nil (f : Forest) : f.matching [] = [] := by
  cases f <;> rfl

/-- A pattern leads to the first node, below it, or beside it. -/
theorem mem_matching_cons {x id : NodeId} {key : Step} {node : Node} {children siblings : Forest} {part : PatternStep}
    {pattern : List PatternStep} :
    x ∈ (cons id key node children siblings).matching (part :: pattern) ↔
      (node.isTemplate = false ∧ part.fits key = true ∧
        (pattern = [] ∧ node.kind = .field ∧ x = id ∨ x ∈ children.matching pattern)) ∨
      x ∈ siblings.matching (part :: pattern) := by
  rw [matching, List.mem_append]
  refine or_congr_left ?_
  by_cases ht : node.isTemplate
  · simp [ht]
  by_cases hp : part.fits key
  · cases pattern with
    | nil => by_cases hkind : node.kind = .field <;> simp [ht, hp, hkind, matching_nil]
    | cons part' pattern => simp [ht, hp]
  · simp [hp]

/-- The fields that a pattern leads to are those whose steps fit it. -/
theorem mem_matching {x : NodeId} {pattern : List PatternStep} {f : Forest} (hn : f.ids.Nodup) :
    x ∈ f.matching pattern ↔ ∃ s, f.spot? x = some s ∧ s.node.kind = .field ∧
      s.inTemplate = false ∧ fitsSteps pattern s.steps = true := by
  induction f generalizing pattern with
  | nil => simp [matching, spot?]
  | cons id key node children siblings ihc ihs =>
    obtain ⟨-, -, hnc, hns, -⟩ := nodup_ids_cons hn
    cases pattern with
    | nil =>
      simp only [matching_nil, List.not_mem_nil, false_iff]
      rintro ⟨s, hs, -, -, hfit⟩
      obtain ⟨k, tail, hk⟩ := List.exists_cons_of_ne_nil (steps_ne_nil hs)
      simp [hk, fitsSteps] at hfit
    | cons part pattern =>
      rw [mem_matching_cons, ihc hnc, ihs hns]
      constructor
      · rintro (⟨hlive, hfits, ⟨rfl, hkind, rfl⟩ | ⟨s, hs, hkind, hin, hfit⟩⟩ | ⟨s, hs, h⟩)
        · exact ⟨_, if_pos rfl, hkind, hlive, by simp [fitsSteps, hfits]⟩
        · exact ⟨_, spot?_of_mem_children hn hs, hkind, by simp [Spot.beneath, hlive, hin],
            by simp [Spot.beneath, fitsSteps, hfits, hfit]⟩
        · exact ⟨s, spot?_of_mem_siblings hn hs, h⟩
      · rintro ⟨s, hs, hkind, hin, hfit⟩
        rcases spot?_cases hs with ⟨rfl, rfl⟩ | ⟨-, v, hv, rfl⟩ | ⟨-, -, hs⟩
        · obtain ⟨hfits, hrest⟩ := Bool.and_eq_true_iff.1 hfit
          cases pattern with
          | nil => exact .inl ⟨hin, hfits, .inl ⟨rfl, hkind, rfl⟩⟩
          | cons => simp [fitsSteps] at hrest
        · obtain ⟨hlive, hin⟩ := Bool.or_eq_false_iff.1 hin
          obtain ⟨hfits, hrest⟩ := Bool.and_eq_true_iff.1 hfit
          exact .inl ⟨hlive, hfits, .inr ⟨v, hv, hkind, hin, hrest⟩⟩
        · exact .inr ⟨s, hs, hkind, hin, hfit⟩

/-- The children of a node among all nodes. -/
theorem ids_eq_map_located (parent : NodeId) (above : Path) (inTemplate : Bool) (f : Forest) :
    (f.located parent above inTemplate).map Located.id = f.ids := by
  induction f generalizing parent above inTemplate with
  | nil => rfl
  | cons id key node children siblings ihc ihs => simp [located, ids, ihc, ihs]

/-- The nodes that a walk lists are those that it finds. -/
theorem mem_located {parent : NodeId} {above : Path} {inTemplate : Bool} {f : Forest} {l : Located}
    (hn : f.ids.Nodup) : l ∈ f.located parent above inTemplate ↔
      f.locate? l.id parent above inTemplate = some l := by
  induction f generalizing parent above inTemplate with
  | nil => simp [located, locate?]
  | cons id key node children siblings ihc ihs =>
    obtain ⟨hic, his, hnc, hns, hdisj⟩ := nodup_ids_cons hn
    have hmem {g : Forest} {p : NodeId} {a : Path} {w : Bool} (h : l ∈ g.located p a w) :
        l.id ∈ g.ids := by
      rw [← ids_eq_map_located p a w g]
      exact List.mem_map_of_mem h
    have hfind {g : Forest} {p : NodeId} {a : Path} {w : Bool} (h : l.id ∉ g.ids) :
        g.locate? l.id p a w = none := by
      have := map_place_locate? l.id p a w g
      rwa [spot?_eq_none.2 h, Option.map_none, Option.map_eq_none_iff] at this
    simp only [located, locate?, List.mem_cons, List.mem_append, ihc hnc, ihs hns]
    by_cases hid : id = l.id
    · have hc : children.locate? l.id id (above.child key) (inTemplate || node.isTemplate) = none :=
        hfind (hid ▸ hic)
      have hs : siblings.locate? l.id parent above inTemplate = none := hfind (hid ▸ his)
      rw [if_pos hid, hc, hs]
      simp [eq_comm]
    · rw [if_neg hid, Option.or_eq_some_iff]
      constructor
      · rintro (h | h | h)
        · exact absurd (congrArg Located.id h).symm hid
        · exact .inl h
        · refine .inr ⟨hfind ?_, h⟩
          intro hc
          exact hdisj l.id hc (hmem ((ihs hns).2 h))
      · rintro (h | ⟨_, h⟩)
        · exact .inr (.inl h)
        · exact .inr (.inr h)

theorem mem_postorder {x : NodeId} {f : Forest} :
    x ∈ f.postorder ↔ x ∈ f.ids := by
  induction f with
  | nil => simp [postorder, ids]
  | cons id key node children siblings ihc ihs =>
    simp only [postorder, ids, List.mem_append, List.mem_cons, ihc, ihs]
    grind

end Forest

namespace FieldTree

/-- The place of a node, found by its handle. -/
def place? (t : FieldTree) (id : NodeId) : Option Place :=
  (t.locate? id).map Located.place

/-- The place of the root. -/
def rootPlace (t : FieldTree) : Place :=
  t.locatedRoot.place

/-- What every tree is that operations have built: handles and keys are distinct, and only fields have
formulas. -/
structure WellFormed (t : FieldTree) : Prop where
  nodup : t.fields.ids.Nodup
  ne_root : ∀ id ∈ t.fields.ids, id ≠ rootId
  lt_next : ∀ id ∈ t.fields.ids, id < t.next
  next_pos : rootId < t.next
  keys : t.fields.DistinctKeys
  root_group : t.root.kind = .group
  root_live : t.root.isTemplate = false
  formulas : ∀ id p, t.place? id = some p → p.node.formula.isSome → p.node.kind = .field

/-- What every tree is that operations have built if they may give any node a formula. -/
structure Keyed (t : FieldTree) : Prop where
  nodup : t.fields.ids.Nodup
  ne_root : ∀ id ∈ t.fields.ids, id ≠ rootId
  lt_next : ∀ id ∈ t.fields.ids, id < t.next
  next_pos : rootId < t.next
  keys : t.fields.DistinctKeys
  root_group : t.root.kind = .group
  root_live : t.root.isTemplate = false

theorem WellFormed.keyed {t : FieldTree} (h : t.WellFormed) : t.Keyed :=
  { h with }

theorem place?_root (t : FieldTree) : t.place? rootId = some t.rootPlace := by
  simp [place?, locate?, rootPlace]

theorem place?_of_ne_root (t : FieldTree) {id : NodeId} (h : id ≠ rootId) :
    t.place? id =
      (t.fields.spot? id).map (·.place rootId t.rootPlace.path t.root.isTemplate) := by
  rw [place?, locate?, if_neg h, Forest.map_place_locate?]
  rfl

theorem contains_eq (t : FieldTree) (id : NodeId) : t.contains id = (t.place? id).isSome := by
  simp [contains, place?]

theorem get?_eq (t : FieldTree) (id : NodeId) : t.get? id = (t.place? id).map Place.node := by
  simp [get?, place?, Located.place, Function.comp_def]

theorem path_eq (t : FieldTree) (id : NodeId) :
    t.path id = ((t.place? id).map Place.path).getD .root := by
  simp [path, place?, Located.place, Function.comp_def]

theorem inTemplate_eq (t : FieldTree) (id : NodeId) :
    t.inTemplate id = ((t.place? id).map Place.inTemplate).getD false := by
  simp [inTemplate, place?, Located.place, Function.comp_def]

theorem path_of_place? {t : FieldTree} {id : NodeId} {p : Place} (h : t.place? id = some p) :
    t.path id = p.path := by
  simp [path_eq, h]

/-- The base of a selector depends on the parent of the anchor only. -/
theorem base_eq (s : Selector) (t : FieldTree) (anchor : NodeId) :
    s.base t anchor =
      if s.relative then ((t.place? anchor).bind Place.parent).getD rootId else rootId := by
  simp only [Selector.base, place?]
  cases t.locate? anchor <;> rfl

variable {t : FieldTree}

theorem place?_eq_none {id : NodeId} :
    t.place? id = none ↔ id ≠ rootId ∧ id ∉ t.fields.ids := by
  by_cases hid : id = rootId
  · simp [hid, place?_root]
  · rw [place?_of_ne_root t hid, Option.map_eq_none_iff, Forest.spot?_eq_none]
    simp [hid]

/-- Every node but the root stands in the forest below the root. -/
theorem mem_ids_of_place? {id : NodeId} {p : Place} (hid : id ≠ rootId) (h : t.place? id = some p) :
    id ∈ t.fields.ids := by
  rw [place?_of_ne_root t hid, Option.map_eq_some_iff] at h
  obtain ⟨s, hs, _⟩ := h
  exact Forest.mem_ids_of_spot? hs

theorem lt_next_of_place? (h : t.WellFormed) {id : NodeId} {p : Place} (hp : t.place? id = some p) :
    id < t.next := by
  by_cases hid : id = rootId
  · exact hid ▸ h.next_pos
  · exact h.lt_next id (mem_ids_of_place? hid hp)

/-- The handle of the next node is not in use. -/
theorem place?_next (h : t.WellFormed) {id : NodeId} (hid : t.next ≤ id) : t.place? id = none := by
  by_contra hne
  obtain ⟨p, hp⟩ := Option.ne_none_iff_exists'.1 hne
  exact absurd (lt_next_of_place? h hp) (Nat.not_lt.2 hid)

/-- A node lies at or below another one if its path continues the path of the other one. -/
def Within (t : FieldTree) (upper x : NodeId) : Prop :=
  ∃ p q, t.place? upper = some p ∧ t.place? x = some q ∧ p.path.steps <+: q.path.steps

theorem within_refl {id : NodeId} {p : Place} (h : t.place? id = some p) : t.Within id id :=
  ⟨p, p, h, h, List.prefix_refl _⟩

theorem Within.exists_place? {upper x : NodeId} (h : t.Within upper x) : ∃ q, t.place? x = some q := by
  obtain ⟨_, q, _, hq, _⟩ := h
  exact ⟨q, hq⟩

theorem Within.trans {a b c : NodeId} (hab : t.Within a b) (hbc : t.Within b c) : t.Within a c := by
  obtain ⟨p, q, hp, hq, hpq⟩ := hab
  obtain ⟨q', r, hq', hr, hqr⟩ := hbc
  obtain rfl := Option.some.inj (hq.symm.trans hq')
  exact ⟨p, r, hp, hr, hpq.trans hqr⟩

/-- The forest below a node. -/
def below? (t : FieldTree) (id : NodeId) : Option Forest :=
  (t.locate? id).map Located.children

theorem below?_root (t : FieldTree) : t.below? rootId = some t.fields := by
  simp [below?, locate?, locatedRoot]

theorem below?_of_ne_root (t : FieldTree) {id : NodeId} (h : id ≠ rootId) :
    t.below? id = t.fields.below? id := by
  rw [below?, locate?, if_neg h, Forest.map_children_locate?]

/-- A node is found together with its place and the forest below it. -/
theorem locate?_eq_some {id : NodeId} {l : Located} (h : t.locate? id = some l) :
    t.place? id = some l.place ∧ t.below? id = some l.children ∧ l.id = id := by
  refine ⟨by simp [place?, h], by simp [below?, h], ?_⟩
  by_cases hid : id = rootId
  · rw [locate?, if_pos hid] at h
    rw [← Option.some.inj h, hid]
    rfl
  · rw [locate?, if_neg hid] at h
    exact Forest.id_of_locate? h

theorem exists_locate? {id : NodeId} {p : Place} (h : t.place? id = some p) :
    ∃ l, t.locate? id = some l ∧ l.place = p := by
  simpa [place?, Option.map_eq_some_iff] using h

/-- What stands below a node, by the spots in the forest below it. -/
theorem place?_below (h : t.Keyed) {upper x : NodeId} {p : Place} {g : Forest}
    (hp : t.place? upper = some p) (hg : t.below? upper = some g) (hx : x ∈ g.ids) :
    t.place? x = (g.spot? x).map (·.place upper p.path p.inTemplate) := by
  by_cases hu : upper = rootId
  · subst hu
    rw [below?_root] at hg
    rw [place?_root] at hp
    obtain rfl := Option.some.inj hg
    obtain rfl := Option.some.inj hp
    rw [place?_of_ne_root t (h.ne_root x hx)]
    rfl
  · rw [below?_of_ne_root t hu] at hg
    have hxt : x ∈ t.fields.ids := Forest.mem_ids_of_below? hg hx
    rw [place?_of_ne_root t hu, Option.map_eq_some_iff] at hp
    obtain ⟨u, hu', rfl⟩ := hp
    rw [place?_of_ne_root t (h.ne_root x hxt), Forest.spot?_of_below? h.nodup hu' hg hx]
    cases g.spot? x with
    | none => rfl
    | some s => simp [Spot.place, Spot.under, Bool.or_assoc]

theorem nodup_below? (h : t.Keyed) {id : NodeId} {g : Forest} (hg : t.below? id = some g) :
    g.ids.Nodup ∧ id ∉ g.ids := by
  by_cases hid : id = rootId
  · subst hid
    rw [below?_root] at hg
    obtain rfl := Option.some.inj hg
    exact ⟨h.nodup, fun hm => h.ne_root _ hm rfl⟩
  · rw [below?_of_ne_root t hid] at hg
    exact Forest.nodup_below? h.nodup hg

theorem distinctKeys_below? (h : t.Keyed) {id : NodeId} {g : Forest}
    (hg : t.below? id = some g) : g.DistinctKeys := by
  by_cases hid : id = rootId
  · subst hid
    rw [below?_root] at hg
    obtain rfl := Option.some.inj hg
    exact h.keys
  · rw [below?_of_ne_root t hid] at hg
    exact h.keys.below? hg

/-- The nodes at or below a node are the node itself and those of the forest below it. -/
theorem within_iff (h : t.Keyed) {upper x : NodeId} {g : Forest} (hg : t.below? upper = some g) :
    t.Within upper x ↔ x = upper ∨ x ∈ g.ids := by
  obtain ⟨l, hl, rfl⟩ := Option.map_eq_some_iff.1 hg
  have hp : t.place? upper = some l.place := by simp [place?, hl]
  constructor
  · rintro ⟨p, q, hp', hq, rest, hrest⟩
    by_cases hu : upper = rootId
    · subst hu
      rw [below?_root] at hg
      by_cases hx : x = rootId
      · exact .inl hx
      · exact .inr (Option.some.inj hg ▸ mem_ids_of_place? hx hq)
    · rw [below?_of_ne_root t hu] at hg
      rw [place?_of_ne_root t hu, Option.map_eq_some_iff] at hp'
      obtain ⟨u, hu', rfl⟩ := hp'
      by_cases hx : x = rootId
      · subst hx
        rw [place?_root] at hq
        obtain rfl := Option.some.inj hq
        have hne := Forest.steps_ne_nil hu'
        have hlen := congrArg List.length hrest
        have hpos := List.length_pos_iff.2 hne
        simp only [Spot.place, List.length_append] at hlen
        omega
      · rw [place?_of_ne_root t hx, Option.map_eq_some_iff] at hq
        obtain ⟨s, hs, rfl⟩ := hq
        have hsteps : s.steps = u.steps ++ rest := by
          simpa [Spot.place, List.append_assoc, eq_comm] using hrest
        rcases Forest.mem_below?_of_steps h.keys h.nodup hu' hs hsteps with ⟨_, rfl⟩ | ⟨g', hg', hx'⟩
        · exact .inl rfl
        · exact .inr (Option.some.inj (hg.symm.trans hg') ▸ hx')
  · rintro (rfl | hx)
    · exact within_refl hp
    · have hplace := place?_below h hp hg hx
      obtain ⟨s, hs⟩ := Option.isSome_iff_exists.1 ((Forest.isSome_spot? x l.children).2 hx)
      rw [hs, Option.map_some] at hplace
      exact ⟨_, _, hp, hplace, List.prefix_append _ _⟩

/-- Every node is at or below the root. -/
theorem within_root (h : t.Keyed) {x : NodeId} {p : Place} (hp : t.place? x = some p) : t.Within rootId x := by
  rw [within_iff h (below?_root t)]
  by_cases hx : x = rootId
  · exact .inl hx
  · exact .inr (mem_ids_of_place? hx hp)

/-- A node is determined by its path. -/
theorem eq_of_path_eq (h : t.Keyed) {x y : NodeId} {p q : Place} (hp : t.place? x = some p)
    (hq : t.place? y = some q) (hpath : p.path = q.path) : x = y := by
  obtain ⟨l, hl, rfl⟩ := exists_locate? hp
  obtain ⟨l', hl', rfl⟩ := exists_locate? hq
  obtain ⟨_, hg, _⟩ := locate?_eq_some hl
  have hxy : t.Within x y := ⟨_, _, hp, hq, hpath ▸ List.prefix_refl _⟩
  have hyx : t.Within y x := ⟨_, _, hq, hp, hpath ▸ List.prefix_refl _⟩
  rcases (within_iff h hg).1 hxy with hxy | hxy
  · exact hxy.symm
  · -- a node cannot lie strictly below a node that has the same path
    have hplace := place?_below h hp hg hxy
    obtain ⟨s, hs⟩ := Option.isSome_iff_exists.1 ((Forest.isSome_spot? y l.children).2 hxy)
    rw [hs, Option.map_some, hq] at hplace
    have hsteps := congrArg (fun p : Place => p.path.steps) (Option.some.inj hplace)
    rw [← hpath] at hsteps
    exact absurd (List.self_eq_append_right.1 hsteps) (Forest.steps_ne_nil hs)

/-- No two nodes of a tree have the same path. -/
theorem path_injOn (ht : t.Keyed) {x y : NodeId} (hx : t.contains x = true)
    (hy : t.contains y = true) (hpath : t.path x = t.path y) : x = y := by
  rw [contains_eq, Option.isSome_iff_exists] at hx hy
  obtain ⟨p, hp⟩ := hx
  obtain ⟨q, hq⟩ := hy
  rw [path_of_place? hp, path_of_place? hq] at hpath
  exact eq_of_path_eq ht hp hq hpath

/-- The handles that a walk from a node comes by are those of the nodes at or below it. -/
theorem mem_preorderFrom (h : t.Keyed) {id x : NodeId} :
    x ∈ t.preorderFrom id ↔ t.Within id x := by
  simp only [preorderFrom]
  cases hl : t.locate? id with
  | none =>
    simp only [List.not_mem_nil, false_iff]
    rintro ⟨p, _, hp, _⟩
    simp [place?, hl] at hp
  | some l => rw [within_iff h (locate?_eq_some hl).2.1, List.mem_cons]

/-- The same for the order in which children come first. -/
theorem mem_postorderFrom (h : t.Keyed) {id x : NodeId} :
    x ∈ t.postorderFrom id ↔ t.Within id x := by
  rw [← mem_preorderFrom h]
  simp only [postorderFrom, preorderFrom]
  cases t.locate? id with
  | none => rfl
  | some l => simp [Forest.mem_postorder, or_comm]

end FieldTree

end LiveForm
