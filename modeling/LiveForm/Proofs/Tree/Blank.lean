import LiveForm.Proofs.Tree.Arrays
import LiveForm.Proofs.Tree.Carrying

/-!
# Trees without the values of formulas

Recomputing changes nothing in a tree but the values of formulas. So trees are compared after these have been taken
out.
-/

set_option autoImplicit false

namespace LiveForm

/-- The data of a node without the value of its formula. -/
def Node.blank (n : Node) : Node :=
  { n with formulaValue := none }

/-- A forest without the values of formulas. -/
def Forest.blank : Forest → Forest
  | nil => nil
  | cons id key node children siblings => cons id key node.blank children.blank siblings.blank

/-- A tree without the values of formulas. -/
def FieldTree.blank (t : FieldTree) : FieldTree :=
  { t with root := t.root.blank, fields := t.fields.blank }

/-- A place without the value of the formula. -/
def Place.blank (p : Place) : Place :=
  { p with node := p.node.blank }

/-- Nodes that differ in the values of their formulas only are equal if these are. -/
theorem Node.eq_of_blank {n n' : Node} (h : n'.blank = n.blank) (hvalue : n'.formulaValue = n.formulaValue) :
    n' = n := by
  obtain ⟨kind, value, formula, formulaValue, isTemplate⟩ := n
  obtain ⟨kind', value', formula', formulaValue', isTemplate'⟩ := n'
  simp only [blank, Node.mk.injEq] at h hvalue ⊢
  grind

namespace Forest

variable {f new : Forest} {above : Kind} {x target : NodeId}

theorem heads_blank (f : Forest) : f.blank.heads = f.heads.map fun c => { c with node := c.node.blank } := by
  induction f with
  | nil => rfl
  | cons id key node children siblings _ ihs => simp [blank, heads, ihs]

theorem ids_blank (f : Forest) : f.blank.ids = f.ids := by
  induction f with
  | nil => rfl
  | cons id key node children siblings ihc ihs => simp [blank, ids, ihc, ihs]

/-- Forests that differ in the values of formulas only are equal if their nodes are. -/
theorem eq_of_blank {f g : Forest} (hn : f.ids.Nodup) (hblank : g.blank = f.blank)
    (hnode : ∀ x ∈ f.ids, (g.spot? x).map Spot.node = (f.spot? x).map Spot.node) : g = f := by
  have hids : g.ids = f.ids := by rw [← ids_blank, hblank, ids_blank]
  induction f generalizing g with
  | nil =>
    cases g with
    | nil => rfl
    | cons => simp [blank] at hblank
  | cons id key node children siblings ihc ihs =>
    cases g with
    | nil => simp [blank] at hblank
    | cons id' key' node' children' siblings' =>
      simp only [blank, cons.injEq] at hblank
      obtain ⟨rfl, rfl, -, hc, hs⟩ := hblank
      have hidc : children'.ids = children.ids := by rw [← ids_blank, hc, ids_blank]
      have hids' : siblings'.ids = siblings.ids := by rw [← ids_blank, hs, ids_blank]
      obtain ⟨hic, his, hnc, hns, hdisj⟩ := nodup_ids_cons hn
      have hfirst := hnode id' (by simp [ids])
      simp only [spot?, if_true, Option.map_some, Option.some.injEq] at hfirst
      have hchildren : children' = children := by
        refine ihc hnc hc (fun x hx => ?_) hidc
        have hxid : id' ≠ x := fun he => hic (he ▸ hx)
        obtain ⟨s, hsp⟩ := Option.isSome_iff_exists.1 ((isSome_spot? x children).2 hx)
        obtain ⟨s', hsp'⟩ := Option.isSome_iff_exists.1 ((isSome_spot? x children').2 (hidc ▸ hx))
        have hx' := hnode x (by simp [ids, hx])
        simpa [spot?, hxid, hsp, hsp', Spot.beneath] using hx'
      have hsiblings : siblings' = siblings := by
        refine ihs hns hs (fun x hx => ?_) hids'
        have hxid : id' ≠ x := fun he => his (he ▸ hx)
        have hnone : children.spot? x = none := spot?_eq_none.2 fun hxc => hdisj x hxc hx
        have hnone' : children'.spot? x = none := spot?_eq_none.2 fun hxc => hdisj x (hidc ▸ hxc) hx
        have hx' := hnode x (by simp [ids, hx])
        simpa [spot?, hxid, hnone, hnone'] using hx'
      rw [hfirst, hchildren, hsiblings]

theorem distinctKeys_blank : f.blank.DistinctKeys ↔ f.DistinctKeys := by
  induction f with
  | nil => rfl
  | cons id key node children siblings ihc ihs => simp [blank, DistinctKeys, heads_blank, ihc, ihs]

theorem shaped_blank : f.blank.Shaped above ↔ f.Shaped above := by
  induction f generalizing above with
  | nil => rfl
  | cons id key node children siblings ihc ihs => simp [blank, Shaped, ihc, ihs, Node.blank]

theorem spot?_blank (x : NodeId) (f : Forest) :
    f.blank.spot? x = (f.spot? x).map fun s => { s with node := s.node.blank } := by
  induction f with
  | nil => rfl
  | cons id key node children siblings ihc ihs =>
    simp only [blank, spot?]
    split
    · rfl
    · rw [ihc, ihs]
      cases children.spot? x <;> cases siblings.spot? x <;> rfl

theorem blank_modify {m : Node → Node} (hm : ∀ n, (m n).blank = n.blank) (f : Forest) :
    (f.modify target m).blank = f.blank := by
  induction f with
  | nil => rfl
  | cons id key node children siblings ihc ihs =>
    simp only [modify, blank, ihc, ihs]
    split
    · rw [hm]
    · rfl

end Forest

namespace FieldTree

variable {t t' : FieldTree} {x : NodeId}

theorem place?_blank (t : FieldTree) (x : NodeId) :
    t.blank.place? x = (t.place? x).map Place.blank := by
  by_cases hx : x = rootId
  · subst hx
    rw [place?_root, place?_root]
    rfl
  · rw [place?_of_ne_root _ hx, place?_of_ne_root t hx]
    show (t.fields.blank.spot? x).map _ = _
    rw [Forest.spot?_blank]
    cases t.fields.spot? x <;> rfl

theorem blank_modify {m : Node → Node} (hm : ∀ n, (m n).blank = n.blank) (id : NodeId) :
    (t.modify id m).blank = t.blank := by
  unfold FieldTree.modify blank
  split
  · simp only [hm]
  · simp only [Forest.blank_modify hm]

/-- A node keeps all but the value of its formula. -/
theorem place?_of_blank (h : t'.blank = t.blank) {p : Place} (hp : t.place? x = some p) :
    ∃ p', t'.place? x = some p' ∧ p'.blank = p.blank := by
  have hx : (t'.place? x).map Place.blank = (t.place? x).map Place.blank := by
    rw [← place?_blank, ← place?_blank, h]
  rwa [hp, Option.map_some, Option.map_eq_some_iff] at hx

theorem outline_of_blank (h : t'.blank = t.blank) (x : NodeId) :
    (t'.place? x).map Place.outline = (t.place? x).map Place.outline := by
  have hx : (t'.place? x).map Place.blank = (t.place? x).map Place.blank := by
    rw [← place?_blank, ← place?_blank, h]
  have hout : Place.outline = Place.outline ∘ Place.blank := rfl
  rw [hout, ← Option.map_map, ← Option.map_map, hx]

theorem path_of_blank (h : t'.blank = t.blank) (x : NodeId) : t'.path x = t.path x := by
  have hx : (t'.place? x).map Place.blank = (t.place? x).map Place.blank := by
    rw [← place?_blank, ← place?_blank, h]
  have hpath : Place.path = Place.path ∘ Place.blank := rfl
  rw [path_eq, path_eq, hpath, ← Option.map_map, ← Option.map_map, hx]

theorem value_of_blank (h : t'.blank = t.blank) (x : NodeId) :
    (t'.get? x).map Node.value = (t.get? x).map Node.value := by
  have hx : (t'.place? x).map Place.blank = (t.place? x).map Place.blank := by
    rw [← place?_blank, ← place?_blank, h]
  have hvalue : Node.value ∘ Place.node = (Node.value ∘ Place.node) ∘ Place.blank := rfl
  rw [get?_eq, get?_eq, Option.map_map, Option.map_map, hvalue, ← Option.map_map, hx, Option.map_map]

theorem contains_of_blank (h : t'.blank = t.blank) (x : NodeId) : t'.contains x = t.contains x := by
  have hx : (t'.place? x).map Place.blank = (t.place? x).map Place.blank := by
    rw [← place?_blank, ← place?_blank, h]
  rw [contains_eq, contains_eq, ← Option.isSome_map (f := Place.blank), hx, Option.isSome_map]

theorem next_of_blank (h : t'.blank = t.blank) : t'.next = t.next := by
  have hnext : t'.blank.next = t.blank.next := by rw [h]
  exact hnext

end FieldTree

theorem Place.blank_eq {p q : Place} (h : p.blank = q.blank) :
    p.path = q.path ∧ p.inTemplate = q.inTemplate ∧ p.node.kind = q.node.kind ∧
      p.node.value = q.node.value ∧ p.node.formula = q.node.formula := by
  obtain ⟨key, ⟨kind, value, formula, formulaValue, isTemplate⟩, parent, path, inTemplate⟩ := p
  obtain ⟨key', ⟨kind', value', formula', formulaValue', isTemplate'⟩, parent', path', inTemplate'⟩ := q
  simp only [blank, Node.blank, Place.mk.injEq, Node.mk.injEq] at h
  grind

namespace FieldTree

variable {t t' : FieldTree}

theorem fields_of_blank (h : t'.blank = t.blank) : t'.fields.blank = t.fields.blank :=
  congrArg FieldTree.fields h

theorem root_of_blank (h : t'.blank = t.blank) :
    t'.root.kind = t.root.kind ∧ t'.root.isTemplate = t.root.isTemplate := by
  have hroot : t'.root.blank = t.root.blank := congrArg FieldTree.root h
  exact ⟨show t'.root.blank.kind = t.root.blank.kind by rw [hroot],
    show t'.root.blank.isTemplate = t.root.blank.isTemplate by rw [hroot]⟩

/-- Trees that differ in the values of formulas only are equal if their nodes are. -/
theorem eq_of_blank (hnodup : t.fields.ids.Nodup) (hroot : rootId ∉ t.fields.ids) (hblank : t'.blank = t.blank)
    (hnode : ∀ x, t'.get? x = t.get? x) : t' = t := by
  have hfields : t'.fields = t.fields := by
    refine Forest.eq_of_blank hnodup (fields_of_blank hblank) fun x hx => ?_
    have hx' := hnode x
    have hne : x ≠ rootId := fun he => hroot (he ▸ hx)
    rw [get?_eq, get?_eq, place?_of_ne_root t' hne, place?_of_ne_root t hne, Option.map_map, Option.map_map] at hx'
    exact hx'
  have hrootNode : t'.root = t.root := by
    have hx := hnode rootId
    rw [get?_eq, get?_eq, place?_root, place?_root] at hx
    exact Option.some.inj hx
  obtain ⟨rootKey, root, fields, next⟩ := t
  obtain ⟨rootKey', root', fields', next'⟩ := t'
  simp only [blank, FieldTree.mk.injEq] at hblank hfields hrootNode ⊢
  grind

/-- The values of formulas do not matter for handles and keys. -/
theorem Keyed.of_blank (h : t.Keyed) (hblank : t'.blank = t.blank) : t'.Keyed := by
  have hids : t'.fields.ids = t.fields.ids := by
    rw [← Forest.ids_blank, ← Forest.ids_blank t.fields, fields_of_blank hblank]
  obtain ⟨hkind, hlive⟩ := root_of_blank hblank
  refine ⟨hids ▸ h.nodup, hids ▸ h.ne_root, by rw [hids, next_of_blank hblank]; exact h.lt_next,
    by rw [next_of_blank hblank]; exact h.next_pos, ?_, hkind.trans h.root_group, hlive.trans h.root_live⟩
  rw [← Forest.distinctKeys_blank, fields_of_blank hblank, Forest.distinctKeys_blank]
  exact h.keys

theorem WellFormed.of_blank (h : t.WellFormed) (hblank : t'.blank = t.blank) : t'.WellFormed :=
  { h.keyed.of_blank hblank with
    formulas := fun x p hp hsome => by
      obtain ⟨p', hp', hpp⟩ := place?_of_blank hblank.symm hp
      obtain ⟨-, -, hkind, -, hformula⟩ := Place.blank_eq hpp
      rw [← hkind]
      exact h.formulas x p' hp' (by rw [hformula]; exact hsome) }

theorem Shaped.of_blank (h : t.Shaped) (hblank : t'.blank = t.blank) : t'.Shaped := by
  have hkind := (root_of_blank hblank).1
  unfold FieldTree.Shaped at h ⊢
  rw [← Forest.shaped_blank, fields_of_blank hblank, Forest.shaped_blank, hkind]
  exact h

end FieldTree

/-- The values of formulas do not matter for what a selector accepts. -/
theorem Selector.accepts_of_blank {t t' : FieldTree} {s : Selector} (h : t'.blank = t.blank) {basePath : Path} {field : NodeId}
    (haccepts : s.accepts t basePath field = true) : s.accepts t' basePath field = true := by
  unfold accepts at haccepts ⊢
  cases hl : t.locate? field with
  | none => simp [hl] at haccepts
  | some l =>
    obtain ⟨p', hp', hpp⟩ := FieldTree.place?_of_blank h (FieldTree.locate?_eq_some hl).1
    rw [FieldTree.place?, Option.map_eq_some_iff] at hp'
    obtain ⟨l', hl', rfl⟩ := hp'
    have hpath : l'.path = l.path := (Place.blank_eq hpp).1
    have htemplate : l'.inTemplate = l.inTemplate := (Place.blank_eq hpp).2.1
    have hkind : l'.node.kind = l.node.kind := (Place.blank_eq hpp).2.2.1
    simp only [hl] at haccepts
    simp only [hl', hpath, htemplate, hkind]
    exact haccepts

end LiveForm
