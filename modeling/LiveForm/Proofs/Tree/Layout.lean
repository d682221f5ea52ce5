import LiveForm.Proofs.Tree.Blank
import LiveForm.Proofs.Tree.Finding

/-!
# Layouts

What is left of a forest once the handles of its nodes and the values of their formulas are forgotten: which nodes there
are, in which order, under which keys, and what has been entered at them. A copy has the layout of the original.
-/

set_option autoImplicit false

namespace LiveForm

/-- Nodes under one parent without handles, in order, with everything below them. -/
inductive Layout where
  | nil
  | cons (key : Step) (node : Node) (children siblings : Layout)

namespace Layout

/-- The nodes of the first layout, followed by those of the second. -/
def append : Layout → Layout → Layout
  | nil, other => other
  | cons key node children siblings, other => cons key node children (siblings.append other)

/-- The node that the steps lead to. -/
def get? : Layout → List Step → Option Node
  | nil, _ => none
  | cons _ _ _ _, [] => none
  | cons key node children siblings, step :: rest =>
    if key = step then
      if rest.isEmpty then some node else children.get? rest
    else siblings.get? (step :: rest)

/-- Enters a value at the node that the steps lead to. -/
def setValue (value : Value) : Layout → List Step → Layout
  | nil, _ => nil
  | cons key node children siblings, [] => cons key node children siblings
  | cons key node children siblings, step :: rest =>
    if key = step then
      if rest.isEmpty then cons key { node with value } children siblings
      else cons key node (children.setValue value rest) siblings
    else cons key node children (siblings.setValue value (step :: rest))

theorem get?_nil (l : Layout) : l.get? [] = none := by
  cases l <;> rfl

/-- A value that is entered at a node changes the value of that node and nothing else. -/
theorem get?_setValue (value : Value) (l : Layout) (at? steps : List Step) : (l.setValue value at?).get? steps =
    (l.get? steps).map fun n => if steps = at? then { n with value } else n := by
  induction l generalizing at? steps with
  | nil => rfl
  | cons key node children siblings ihc ihs =>
    match at?, steps with
    | _, [] => rw [get?_nil, get?_nil, Option.map_none]
    | [], step :: rest => simp [setValue]
    | first :: more, step :: rest =>
      simp only [setValue]
      by_cases hfirst : key = first
      · subst hfirst
        rw [if_pos rfl]
        by_cases hstep : key = step
        · subst hstep
          cases more <;> cases rest <;> simp [get?, ihc]
        · have hne : step :: rest ≠ key :: more := fun he => hstep (List.cons.inj he).1.symm
          cases more <;> simp [get?, hstep, hne]
      · rw [if_neg hfirst]
        by_cases hstep : key = step
        · subst hstep
          have hne : key :: rest ≠ first :: more := fun he => hfirst (List.cons.inj he).1
          cases rest <;> simp [get?, hne]
        · simp only [get?, if_neg hstep]
          exact ihs _ _

end Layout

namespace Forest

variable {f g : Forest} {x : NodeId} {steps : List Step}

/-- A forest without handles and without the values of formulas. -/
def layout : Forest → Layout
  | nil => .nil
  | cons _ key node children siblings => .cons key node.blank children.layout siblings.layout

theorem layout_append (f g : Forest) : (f.append g).layout = f.layout.append g.layout := by
  induction f with
  | nil => rfl
  | cons id key node children siblings _ ihs => simp only [append, layout, Layout.append, ihs]

/-- A copy has the layout of the original. -/
theorem layout_copy (f : Forest) (rename : NodeId → NodeId) : (f.copy rename).layout = f.layout := by
  induction f with
  | nil => rfl
  | cons id key node children siblings ihc ihs =>
    simp only [copy, layout, ihc, ihs]
    rfl

theorem layout_blank (f : Forest) : f.blank.layout = f.layout := by
  induction f with
  | nil => rfl
  | cons id key node children siblings ihc ihs =>
    simp only [blank, layout, ihc, ihs]
    rfl

/-- The values of formulas do not matter for layouts. -/
theorem layout_of_blank (h : g.blank = f.blank) : g.layout = f.layout := by
  rw [← layout_blank, h, layout_blank]

theorem get?_layout_of_none (h : f.find? steps = none) : f.layout.get? steps = none := by
  induction f generalizing steps with
  | nil => rfl
  | cons id key node children siblings ihc ihs =>
    cases steps with
    | nil => rfl
    | cons step rest =>
      rw [find?] at h
      rw [layout, Layout.get?]
      split at h
      next hkey =>
        rw [if_pos hkey]
        split at h
        · cases h
        next hrest =>
          rw [if_neg hrest]
          exact ihc h
      next hkey =>
        rw [if_neg hkey]
        exact ihs h

/-- The node that some steps lead to, in the forest and in its layout. -/
theorem get?_layout (hn : f.ids.Nodup) (h : f.find? steps = some x) {s : Spot} (hs : f.spot? x = some s) :
    f.layout.get? steps = some s.node.blank := by
  induction f generalizing steps s with
  | nil => cases h
  | cons id key node children siblings ihc ihs =>
    obtain ⟨-, -, hnc, hns, -⟩ := nodup_ids_cons hn
    cases steps with
    | nil => cases h
    | cons step rest =>
      rw [find?] at h
      rw [layout, Layout.get?]
      split at h
      next hkey =>
        rw [if_pos hkey]
        split at h
        next hrest =>
          obtain rfl := Option.some.inj h
          rw [spot?, if_pos rfl] at hs
          obtain rfl := Option.some.inj hs
          rw [if_pos hrest]
        next hrest =>
          obtain ⟨u, hu, -⟩ := spot?_of_find? hnc h
          obtain rfl := Option.some.inj ((spot?_of_mem_children hn hu).symm.trans hs)
          rw [if_neg hrest]
          have hnode : children.layout.get? rest = some u.node.blank := ihc hnc h hu
          exact hnode
      next hkey =>
        obtain ⟨u, hu, -⟩ := spot?_of_find? hns h
        rw [spot?_cons_of_mem_siblings hn (mem_ids_of_spot? hu)] at hs
        rw [if_neg hkey]
        exact ihs hns h hs

/-- A value that is entered at a node, in the forest and in its layout. -/
theorem layout_modify (hn : f.ids.Nodup) (h : f.find? steps = some x) (value : Value) :
    (f.modify x fun n => { n with value }).layout = f.layout.setValue value steps := by
  induction f generalizing steps with
  | nil => cases h
  | cons id key node children siblings ihc ihs =>
    obtain ⟨hic, his, hnc, hns, hdisj⟩ := nodup_ids_cons hn
    cases steps with
    | nil => cases h
    | cons step rest =>
      rw [find?] at h
      rw [modify, layout, layout, Layout.setValue]
      split at h
      next hkey =>
        rw [if_pos hkey]
        split at h
        next hrest =>
          obtain rfl := Option.some.inj h
          rw [if_pos rfl, if_pos hrest, modify_of_not_mem hic, modify_of_not_mem his]
          rfl
        next hrest =>
          obtain ⟨u, hu, -⟩ := spot?_of_find? hnc h
          have hx := mem_ids_of_spot? hu
          have hne : id ≠ x := fun he => hic (he ▸ hx)
          rw [if_neg hne, if_neg hrest, modify_of_not_mem (hdisj x hx), ihc hnc h]
      next hkey =>
        obtain ⟨u, hu, -⟩ := spot?_of_find? hns h
        have hx := mem_ids_of_spot? hu
        have hne : id ≠ x := fun he => his (he ▸ hx)
        have hxc : x ∉ children.ids := fun hc => hdisj x hc hx
        rw [if_neg hne, if_neg hkey, modify_of_not_mem hxc, ihs hns h]

end Forest

namespace FieldTree

variable {t t' : FieldTree} {upper : NodeId} {p : Place} {g : Forest} {l : Layout}

/-- A tree consists of the root and of nodes below it that have a layout. -/
structure Shows (t : FieldTree) (l : Layout) : Prop where
  rootKey : t.rootKey = none
  root : t.root.blank = { kind := .group }
  fields : t.fields.layout = l

theorem Shows.of_blank (h : t.Shows l) (hblank : t'.blank = t.blank) :
    t'.Shows l where
  rootKey := (congrArg FieldTree.rootKey hblank : t'.blank.rootKey = t.blank.rootKey).trans h.rootKey
  root := (congrArg FieldTree.root hblank : t'.root.blank = t.root.blank).trans h.root
  fields := (Forest.layout_of_blank (fields_of_blank hblank)).trans h.fields

/-- From a node on, a path leads on as in the forest below the node. -/
theorem find?_below (h : t.Keyed) (hroot : t.rootKey = none) (hp : t.place? upper = some p)
    (hg : t.below? upper = some g) (rest : List Step) :
    t.find? ⟨p.path.steps ++ rest⟩ = if rest.isEmpty then some upper else g.find? rest := by
  split
  next hrest =>
    rw [List.isEmpty_iff.1 hrest, List.append_nil]
    exact (find?_eq_some h hroot).2 ⟨p, hp, rfl⟩
  next hrest =>
    have hne : rest ≠ [] := fun he => hrest (by rw [he]; rfl)
    ext x
    constructor
    · intro hx
      obtain ⟨q, hq, hpath⟩ := (find?_eq_some h hroot).1 hx
      have hwithin : t.Within upper x := ⟨p, q, hp, hq, rest, by rw [hpath]⟩
      rcases (within_iff h hg).1 hwithin with rfl | hmem
      · obtain rfl := Option.some.inj (hp.symm.trans hq)
        exact absurd (List.self_eq_append_right.1 (congrArg Path.steps hpath)) hne
      · obtain ⟨s, hs⟩ := Option.isSome_iff_exists.1 ((Forest.isSome_spot? x g).2 hmem)
        rw [place?_below h hp hg hmem, hs] at hq
        obtain rfl := Option.some.inj hq
        have hsteps : s.steps = rest := List.append_cancel_left (congrArg Path.steps hpath)
        exact hsteps ▸ Forest.find?_of_spot? (distinctKeys_below? h hg) hs
    · intro hx
      obtain ⟨s, hs, rfl⟩ := Forest.spot?_of_find? (nodup_below? h hg).1 hx
      refine (find?_eq_some h hroot).2 ⟨s.place upper p.path p.inTemplate, ?_, rfl⟩
      rw [place?_below h hp hg (Forest.mem_ids_of_spot? hs), hs, Option.map_some]

end FieldTree

end LiveForm
