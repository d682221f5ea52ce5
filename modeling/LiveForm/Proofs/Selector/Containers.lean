import LiveForm.Proofs.Selector.Ordering
import LiveForm.Proofs.Tree.Arrays
import LiveForm.Proofs.Tree.Shifting
import LiveForm.Proofs.Tree.Walks

/-!
# Columns of a table

The containers whose paths fit a pattern, in the order of the indices that stand for its wildcards. Each selector
that prolongs the pattern by a name lists one child of every container, in this very order, since the order of
paths with the same names is the order of their indices. So two such selectors list their fields side by side.
-/

set_option autoImplicit false

namespace LiveForm

/-- The indices in some steps where a pattern has a wildcard. -/
def indicesAt : List PatternStep → List Step → List Int
  | .anyIndex :: pattern, .index i :: steps => i :: indicesAt pattern steps
  | _ :: pattern, _ :: steps => indicesAt pattern steps
  | _, _ => []

section Steps

variable {pattern : List PatternStep} {steps steps' : List Step} {key : String}

theorem length_of_fitsSteps (h : fitsSteps pattern steps = true) : steps.length = pattern.length := by
  induction pattern generalizing steps with
  | nil =>
    cases steps with
    | nil => rfl
    | cons step steps => cases h
  | cons part pattern ih =>
    cases steps with
    | nil => cases h
    | cons step steps =>
      rw [fitsSteps, Bool.and_eq_true] at h
      exact congrArg (· + 1) (ih h.2)

/-- Steps that fit the same pattern are ordered as their indices at its wildcards. -/
theorem compare_of_fitsSteps (h : fitsSteps pattern steps = true) (h' : fitsSteps pattern steps' = true) :
    compare steps steps' = compare (indicesAt pattern steps) (indicesAt pattern steps') := by
  induction pattern generalizing steps steps' with
  | nil =>
    obtain rfl := List.length_eq_zero_iff.1 (length_of_fitsSteps h)
    obtain rfl := List.length_eq_zero_iff.1 (length_of_fitsSteps h')
    rfl
  | cons part pattern ih =>
    cases steps with
    | nil => cases h
    | cons step steps =>
      cases steps' with
      | nil => cases h'
      | cons step' steps' =>
        rw [fitsSteps, Bool.and_eq_true] at h h'
        obtain ⟨hstep, hrest⟩ := h
        obtain ⟨hstep', hrest'⟩ := h'
        have hsame := ih hrest hrest'
        rw [List.compare_cons_cons]
        cases part with
        | name a =>
          have hequal : step = step' := by
            cases step <;> cases step' <;> simp_all [PatternStep.fits]
          rw [hequal, Std.compare_self, Ordering.eq_then]
          exact hsame
        | index i =>
          have hequal : step = step' := by
            cases step <;> cases step' <;> simp_all [PatternStep.fits]
          rw [hequal, Std.compare_self, Ordering.eq_then]
          exact hsame
        | anyIndex =>
          cases step with
          | name a => cases hstep
          | index i =>
            cases step' with
            | name a => cases hstep'
            | index j =>
              rw [indicesAt, indicesAt, List.compare_cons_cons, Step.compare_index, hsame]

/-- The steps that fit a pattern with a name at its end. -/
theorem fitsSteps_append_name :
    fitsSteps (pattern ++ [.name key]) steps = true ↔
      ∃ upper, steps = upper ++ [.name key] ∧ fitsSteps pattern upper = true := by
  induction pattern generalizing steps with
  | nil =>
    constructor
    · intro h
      cases steps with
      | nil => cases h
      | cons step rest =>
        rw [List.nil_append, fitsSteps, Bool.and_eq_true] at h
        obtain ⟨hstep, hrest⟩ := h
        obtain rfl := List.length_eq_zero_iff.1 (length_of_fitsSteps hrest)
        cases step with
        | name a =>
          obtain rfl := beq_iff_eq.1 hstep
          exact ⟨[], rfl, rfl⟩
        | index i => cases hstep
    · rintro ⟨upper, rfl, hupper⟩
      obtain rfl := List.length_eq_zero_iff.1 (length_of_fitsSteps hupper)
      simp [fitsSteps, PatternStep.fits]
  | cons part pattern ih =>
    cases steps with
    | nil => simp [fitsSteps]
    | cons step rest =>
      rw [List.cons_append, fitsSteps, Bool.and_eq_true, ih]
      constructor
      · rintro ⟨hstep, upper, rfl, hupper⟩
        exact ⟨step :: upper, rfl, by rw [fitsSteps, hstep, hupper]; rfl⟩
      · rintro ⟨upper, hsteps, hupper⟩
        cases upper with
        | nil => cases hupper
        | cons first upper =>
          obtain ⟨rfl, rfl⟩ := List.cons.inj hsteps
          rw [fitsSteps, Bool.and_eq_true] at hupper
          exact ⟨hupper.1, upper, rfl, hupper.2⟩

end Steps

namespace FieldTree

/-- Whether a node is a container outside templates whose path fits a pattern. -/
def isContainerAt (t : FieldTree) (pattern : List PatternStep) (x : NodeId) : Bool :=
  match t.locate? x with
  | none => false
  | some l =>
    l.node.kind ≠ .field && !l.inTemplate &&
      match l.path.below? (t.path rootId) with
      | some steps => fitsSteps pattern steps
      | none => false

/-- The indices in the path of a node where a pattern has a wildcard. -/
def indicesOf (t : FieldTree) (pattern : List PatternStep) (x : NodeId) : List Int :=
  match (t.path x).below? (t.path rootId) with
  | some steps => indicesAt pattern steps
  | none => []

/-- The containers outside templates whose paths fit a pattern, in lexicographic order of their indices at its
wildcards. -/
def containersAt (t : FieldTree) (pattern : List PatternStep) : List NodeId :=
  ((t.preorderFrom rootId).filter (t.isContainerAt pattern)).mergeSort fun x y =>
    (compare (t.indicesOf pattern x) (t.indicesOf pattern y)).isLE

variable {t : FieldTree} {pattern : List PatternStep} {x y field : NodeId} {key : String}

/-- A container and the steps that lead to it. -/
def StandsAt (t : FieldTree) (pattern : List PatternStep) (x : NodeId) (steps : List Step) : Prop :=
  ∃ p, t.place? x = some p ∧ p.node.kind ≠ .field ∧ p.inTemplate = false ∧
    p.path.steps = (t.path rootId).steps ++ steps ∧ fitsSteps pattern steps = true

theorem isContainerAt_iff : t.isContainerAt pattern x = true ↔ ∃ steps, t.StandsAt pattern x steps := by
  unfold isContainerAt StandsAt
  cases hl : t.locate? x with
  | none =>
    apply iff_of_false Bool.false_ne_true
    rintro ⟨-, p, hp, -⟩
    simp [place?, hl] at hp
  | some l =>
    have hplace : t.place? x = some l.place := (locate?_eq_some hl).1
    simp only [Bool.and_eq_true, decide_eq_true_eq, Bool.not_eq_true']
    constructor
    · rintro ⟨⟨hkind, hlive⟩, hfits⟩
      split at hfits
      next steps hsteps => exact ⟨steps, l.place, hplace, hkind, hlive, Path.below?_eq_some.1 hsteps, hfits⟩
      next => cases hfits
    · rintro ⟨steps, p, hp, hkind, hlive, hsteps, hfits⟩
      obtain rfl := Option.some.inj (hplace.symm.trans hp)
      have hbelow : l.path.below? (t.path rootId) = some steps := Path.below?_eq_some.2 hsteps
      rw [hbelow]
      exact ⟨⟨hkind, hlive⟩, hfits⟩

theorem mem_containersAt (ht : t.Keyed) : x ∈ t.containersAt pattern ↔ ∃ steps, t.StandsAt pattern x steps := by
  unfold containersAt
  rw [List.mem_mergeSort, List.mem_filter, mem_preorderFrom ht, isContainerAt_iff]
  constructor
  · rintro ⟨-, hstands⟩
    exact hstands
  · rintro ⟨steps, hstands⟩
    have hstands' := hstands
    obtain ⟨p, hp, -⟩ := hstands'
    exact ⟨within_root ht hp, steps, hstands⟩

theorem indicesOf_eq {steps : List Step} (h : t.StandsAt pattern x steps) :
    t.indicesOf pattern x = indicesAt pattern steps := by
  obtain ⟨p, hp, -, -, hsteps, -⟩ := h
  have hbelow : (t.path x).below? (t.path rootId) = some steps := by
    rw [path_of_place? hp]
    exact Path.below?_eq_some.2 hsteps
  rw [indicesOf, hbelow]

/-- Containers are told apart by their indices, so their order is strict. -/
theorem pairwise_containersAt (ht : t.Keyed) (pattern : List PatternStep) : (t.containersAt pattern).Pairwise fun x y =>
    compare (t.indicesOf pattern x) (t.indicesOf pattern y) = .lt := by
  apply pairwise_mergeSort_of_nodup
  apply List.Nodup.map_on _ ((nodup_preorderFrom ht rootId).filter _)
  intro x hx y hy hindices
  obtain ⟨steps, hstands⟩ := isContainerAt_iff.1 (List.mem_filter.1 hx).2
  obtain ⟨steps', hstands'⟩ := isContainerAt_iff.1 (List.mem_filter.1 hy).2
  rw [indicesOf_eq hstands, indicesOf_eq hstands'] at hindices
  obtain ⟨p, hp, -, -, hpath, hfits⟩ := hstands
  obtain ⟨q, hq, -, -, hpath', hfits'⟩ := hstands'
  have hsteps : steps = steps' := by
    apply Std.LawfulEqOrd.eq_of_compare
    rw [compare_of_fitsSteps hfits hfits', hindices]
    exact Std.ReflCmp.compare_self
  apply eq_of_path_eq ht hp hq
  exact congrArg Path.mk (by rw [hpath, hpath', hsteps])

/-- A child by its key: it is one step below its parent, and in a template only if the parent is or it is one itself. -/
theorem place?_of_childByKey? (ht : t.Keyed) {p : Place} (hp : t.place? x = some p) {key : Step}
    (hchild : t.childByKey? x key = some field) : ∃ q, t.place? field = some q ∧ q.parent = some x ∧
      q.path = p.path.child key ∧ q.inTemplate = (p.inTemplate || q.node.isTemplate) := by
  obtain ⟨q, hq, hparent, hkey⟩ := (childByKey?_eq_some ht).1 hchild
  obtain ⟨x', p', key', hparent', hp', hkey', hpath, hin⟩ :=
    exists_place?_parent ht (ne_root_of_parent hq hparent) hq
  obtain rfl := Option.some.inj (hparent.symm.trans hparent')
  obtain rfl := Option.some.inj (hp.symm.trans hp')
  obtain rfl := Option.some.inj (hkey.symm.trans hkey')
  exact ⟨q, hq, hparent, hpath, hin⟩

/-- The fields that a pattern and a name lead to are children of containers that fit the pattern. -/
theorem matches_iff (h : t.Built) {s : Selector} (hs : s.pattern = pattern ++ [.name key]) :
    t.Matches s rootId field ↔ ∃ x ∈ t.containersAt pattern, t.childByKey? x (.name key) = some field ∧
      (t.get? field).map Node.kind = some .field := by
  have ht := h.keyed
  have hroot : (t.path rootId).steps = t.rootPlace.path.steps := by rw [path_of_place? t.place?_root]
  constructor
  · rintro ⟨r, q, steps, hr, hq, hlive, hfield, hqlive, hsteps, hfits⟩
    obtain rfl := Option.some.inj (t.place?_root.symm.trans hr)
    rw [hs, fitsSteps_append_name] at hfits
    obtain ⟨upper, rfl, hupper⟩ := hfits
    have hne : field ≠ rootId := by
      rintro rfl
      obtain rfl := Option.some.inj (t.place?_root.symm.trans hq)
      have hlength := congrArg List.length hsteps
      simp at hlength
    obtain ⟨x, p, key', hparent, hp, hkey, hpath, hin⟩ := exists_place?_parent ht hne hq
    have hsplit : p.path.steps ++ [key'] = (t.rootPlace.path.steps ++ upper) ++ [Step.name key] := by
      rw [List.append_assoc, ← hsteps, hpath]
      rfl
    obtain ⟨hupper', hlast⟩ := List.append_inj' hsplit rfl
    obtain rfl := (List.cons.inj hlast).1
    rw [hin, Bool.or_eq_false_iff] at hqlive
    have hsteps' : p.path.steps = (t.path rootId).steps ++ upper := by rw [hroot, hupper']
    have hcontainer : p.node.kind ≠ .field := h.not_field_of_parent hq hparent hp
    refine ⟨x, (mem_containersAt ht).2 ⟨upper, p, hp, hcontainer, hqlive.1, hsteps', hupper⟩, ?_, ?_⟩
    · exact (childByKey?_eq_some ht).2 ⟨q, hq, hparent, hkey⟩
    · rw [get?_eq, hq]
      exact congrArg some hfield
  · rintro ⟨x, hx, hchild, hfield⟩
    obtain ⟨steps, p, hp, -, hlive, hsteps, hfits⟩ := (mem_containersAt ht).1 hx
    obtain ⟨q, hq, -, hpath, hin⟩ := place?_of_childByKey? ht hp hchild
    rw [get?_eq, hq] at hfield
    have hkind : q.node.kind = .field := Option.some.inj hfield
    refine ⟨t.rootPlace, q, steps ++ [.name key], t.place?_root, hq, h.keyed.root_live, hkind, ?_, ?_, ?_⟩
    · -- a template would be a group
      rw [hin, hlive, Bool.false_or, Bool.eq_false_iff]
      intro htemplate
      rw [h.group_of_template hq htemplate] at hkind
      cases hkind
    · rw [hpath, Path.child, hsteps, hroot, List.append_assoc]
    · rw [hs, fitsSteps_append_name]
      exact ⟨steps, rfl, hfits⟩

/-- Whether all containers that fit a pattern have a field with some name. -/
def HasColumn (t : FieldTree) (pattern : List PatternStep) (key : String) : Prop :=
  ∀ x ∈ t.containersAt pattern, ∃ field, t.childByKey? x (.name key) = some field ∧
    (t.get? field).map Node.kind = some .field

/-- The child of a container with some name. -/
def cell (t : FieldTree) (key : String) (x : NodeId) : NodeId :=
  (t.childByKey? x (.name key)).getD rootId

theorem HasColumn.cell (h : t.HasColumn pattern key) (hx : x ∈ t.containersAt pattern) :
    t.childByKey? x (.name key) = some (t.cell key x) ∧ (t.get? (t.cell key x)).map Node.kind = some .field := by
  obtain ⟨field, hchild, hfield⟩ := h x hx
  have hcell : t.cell key x = field := by rw [FieldTree.cell, hchild, Option.getD_some]
  rw [hcell]
  exact ⟨hchild, hfield⟩

theorem HasColumn.parent_cell (h : t.HasColumn pattern key) (ht : t.Keyed) (hx : x ∈ t.containersAt pattern) :
    (t.locate? (t.cell key x)).bind Located.parent = some x := by
  obtain ⟨steps, p, hp, -⟩ := (mem_containersAt ht).1 hx
  obtain ⟨q, hq, hparent, -⟩ := place?_of_childByKey? ht hp (h.cell hx).1
  obtain ⟨l, hl, rfl⟩ := exists_locate? hq
  rw [hl]
  exact hparent

/-- Children with the same name are in the order of their containers. -/
theorem HasColumn.ascending (h : t.HasColumn pattern key) (ht : t.Keyed) :
    t.Ascending ((t.containersAt pattern).map (t.cell key)) := by
  unfold Ascending
  rw [List.pairwise_map]
  apply (pairwise_containersAt ht pattern).imp_of_mem
  intro x y hx hy hxy
  obtain ⟨steps, hstands⟩ := (mem_containersAt ht).1 hx
  obtain ⟨steps', hstands'⟩ := (mem_containersAt ht).1 hy
  rw [indicesOf_eq hstands, indicesOf_eq hstands'] at hxy
  obtain ⟨p, hp, -, -, hsteps, hfits⟩ := hstands
  obtain ⟨p', hp', -, -, hsteps', hfits'⟩ := hstands'
  obtain ⟨q, hq, -, hpath, -⟩ := place?_of_childByKey? ht hp (h.cell hx).1
  obtain ⟨q', hq', -, hpath', -⟩ := place?_of_childByKey? ht hp' (h.cell hy).1
  have hlength : steps.length = steps'.length :=
    (length_of_fitsSteps hfits).trans (length_of_fitsSteps hfits').symm
  rw [path_of_place? hq, path_of_place? hq', hpath, hpath', ← Path.matchOrder_eq_lt, Path.matchOrder]
  have hsame : (p.path.child (.name key)).length = (p'.path.child (.name key)).length := by
    simp only [Path.length, Path.child, hsteps, hsteps', List.length_append, hlength]
  have hcompare : Path.compare (p.path.child (.name key)) (p'.path.child (.name key)) = compare steps steps' := by
    show compare (p.path.steps ++ [Step.name key]) (p'.path.steps ++ [Step.name key]) = compare steps steps'
    rw [hsteps, hsteps', List.append_assoc, List.append_assoc, compare_append rfl, compare_append hlength]
    rw [Std.compare_self, Std.compare_self, Ordering.eq_then, Ordering.then_eq]
  rw [hsame, hcompare, Std.compare_self, Ordering.eq_then, compare_of_fitsSteps hfits hfits', hxy]

/-- A pattern with a name at its end lists the children of the containers with that name, container by container. -/
theorem HasColumn.fieldsBelow (h : t.HasColumn pattern key) (ht : t.Built) {s : Selector}
    (hs : s.pattern = pattern ++ [.name key]) :
    s.fieldsBelow t rootId = (t.containersAt pattern).map (t.cell key) := by
  have hpattern : s.pattern ≠ [] := by
    rw [hs]
    simp
  apply (Selector.ascending_fieldsBelow ht.keyed s rootId).eq_of_mem_iff (h.ascending ht.keyed)
  intro field
  rw [Selector.mem_fieldsBelow ht.keyed hpattern, matches_iff ht hs, List.mem_map]
  constructor
  · rintro ⟨x, hx, hchild, -⟩
    exact ⟨x, hx, Option.some.inj ((h.cell hx).1.symm.trans hchild)⟩
  · rintro ⟨x, hx, rfl⟩
    exact ⟨x, hx, h.cell hx⟩

end FieldTree

end LiveForm
