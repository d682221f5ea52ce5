import LiveForm.Proofs.Tree.WellFormed

/-!
# The two ways to match a selector

`FieldTree.Matches` says which fields a selector stands for below a base. The walk down from the base
lists exactly these fields, and the test of a single field by its path accepts exactly these fields,
provided that the path of the base is known.
-/

set_option autoImplicit false

namespace LiveForm

/-- The walk along a pattern lists nodes in the order in which they stand in the forest. -/
theorem Forest.matching_sublist (pattern : List PatternStep) (f : Forest) : (f.matching pattern).Sublist f.ids := by
  induction f generalizing pattern with
  | nil =>
    rw [matching]
    exact List.nil_sublist _
  | cons id key node children siblings ihc ihs =>
    cases pattern with
    | nil => exact List.nil_sublist _
    | cons part pattern =>
      rw [matching, ids, ← List.cons_append]
      apply List.Sublist.append _ (ihs _)
      split
      · exact List.nil_sublist _
      · split
        · split
          · exact List.cons_sublist_cons.2 (List.nil_sublist _)
          · exact List.nil_sublist _
        · exact (ihc _).cons _

namespace FieldTree

/-- A selector stands for a field below a base: both are outside templates, and the steps that lead from
the base to the field fit the pattern. -/
def Matches (t : FieldTree) (s : Selector) (base field : NodeId) : Prop :=
  ∃ p q steps, t.place? base = some p ∧ t.place? field = some q ∧ p.inTemplate = false ∧
    q.node.kind = .field ∧ q.inTemplate = false ∧ q.path.steps = p.path.steps ++ steps ∧
    fitsSteps s.pattern steps = true

theorem perm_inMatchOrder (t : FieldTree) (ids : List NodeId) : (t.inMatchOrder ids).Perm ids := by
  unfold inMatchOrder Path.sortByMatchOrder
  refine ((List.mergeSort_perm _ _).map Prod.snd).trans ?_
  rw [List.map_map]
  exact .of_eq (List.map_id ids)

/-- Sorting by match order keeps the members. -/
@[simp]
theorem mem_inMatchOrder {t : FieldTree} {ids : List NodeId} {x : NodeId} :
    x ∈ t.inMatchOrder ids ↔ x ∈ ids := by
  simp [inMatchOrder, Path.sortByMatchOrder]

end FieldTree

/-- No pattern that a selector can have fits the base itself. -/
theorem fitsSteps_nil {pattern : List PatternStep} (h : fitsSteps pattern [] = true) :
    pattern = [] := by
  cases pattern with
  | nil => rfl
  | cons => simp [fitsSteps] at h

/-- The steps that remain below a base are those that the base is prolonged by. -/
theorem Path.below?_eq_some {p base : Path} {steps : List Step} :
    p.below? base = some steps ↔ p.steps = base.steps ++ steps := by
  simp only [below?, Path.length]
  constructor
  · intro h
    split at h
    next hp =>
      obtain ⟨rest, hrest⟩ := List.isPrefixOf_iff_prefix.1 hp
      rw [← hrest, List.drop_left] at h
      rw [← hrest, Option.some.inj h]
    next => simp at h
  · intro h
    rw [h, if_pos (List.isPrefixOf_iff_prefix.2 (List.prefix_append _ _)), List.drop_left]

namespace Selector

variable {t : FieldTree} {s : Selector}

/-- By its path, a field is accepted exactly if the selector stands for it. -/
theorem accepts_iff {base field : NodeId} {p : Place} (hp : t.place? base = some p)
    (hlive : p.inTemplate = false) : s.accepts t p.path field = true ↔ t.Matches s base field := by
  simp only [accepts, FieldTree.Matches]
  cases hl : t.locate? field with
  | none => simp [FieldTree.place?, hl]
  | some l =>
    have hq : t.place? field = some l.place := by simp [FieldTree.place?, hl]
    simp only [hp, hq, Bool.and_eq_true, decide_eq_true_eq, Bool.not_eq_true', Option.some.injEq]
    constructor
    · rintro ⟨⟨hkind, hl⟩, h⟩
      split at h
      next steps hsteps =>
        exact ⟨p, l.place, steps, rfl, rfl, hlive, hkind, hl, Path.below?_eq_some.1 hsteps, h⟩
      next => simp at h
    · rintro ⟨_, _, steps, rfl, rfl, _, hkind, hl, hsteps, h⟩
      refine ⟨⟨hkind, hl⟩, ?_⟩
      rw [show l.path.below? p.path = some steps from Path.below?_eq_some.2 hsteps]
      exact h

/-- No field but one whose path continues the given path is accepted. -/
theorem prefix_of_accepts {basePath : Path} {field : NodeId}
    (h : s.accepts t basePath field = true) :
    ∃ q, t.place? field = some q ∧ q.inTemplate = false ∧ basePath.steps <+: q.path.steps := by
  simp only [accepts] at h
  cases hl : t.locate? field with
  | none => simp [hl] at h
  | some l =>
    simp only [hl, Bool.and_eq_true, Bool.not_eq_true'] at h
    obtain ⟨⟨_, hlive⟩, h⟩ := h
    split at h
    next steps hsteps =>
      exact ⟨l.place, by simp [FieldTree.place?, hl], hlive, steps,
        (Path.below?_eq_some.1 hsteps).symm⟩
    next => simp at h

/-- The walk down from the base lists exactly the fields that the selector stands for. -/
theorem mem_fieldsBelow (h : t.Keyed) (hpattern : s.pattern ≠ []) {base field : NodeId} :
    field ∈ s.fieldsBelow t base ↔ t.Matches s base field := by
  simp only [fieldsBelow]
  cases hl : t.locate? base with
  | none => simp [FieldTree.Matches, FieldTree.place?, hl]
  | some l =>
    obtain ⟨hp, hg, _⟩ := FieldTree.locate?_eq_some hl
    have hnodup := (FieldTree.nodup_below? h hg).1
    by_cases ht : l.inTemplate
    · simp only [ht, if_true, List.not_mem_nil, false_iff]
      rintro ⟨p, _, _, hp', _, hlive, _⟩
      obtain rfl := Option.some.inj (hp.symm.trans hp')
      simp [Located.place, ht] at hlive
    · have hlive : l.place.inTemplate = false := by simpa [Located.place] using ht
      simp only [if_neg ht, FieldTree.mem_inMatchOrder, Forest.mem_matching hnodup]
      constructor
      · rintro ⟨v, hv, hkind, hvt, hfit⟩
        have hplace := FieldTree.place?_below h hp hg (Forest.mem_ids_of_spot? hv)
        rw [hv, Option.map_some] at hplace
        exact ⟨_, _, v.steps, hp, hplace, hlive, hkind, by simp [Spot.place, hlive, hvt], rfl, hfit⟩
      · rintro ⟨p, q, steps, hp', hq, _, hkind, hqt, hsteps, hfit⟩
        obtain rfl := Option.some.inj (hp.symm.trans hp')
        have hne : steps ≠ [] := by
          rintro rfl
          exact hpattern (fitsSteps_nil hfit)
        have hwithin : t.Within base field := ⟨_, _, hp, hq, steps, hsteps.symm⟩
        have hmem : field ∈ l.children.ids := by
          rcases (FieldTree.within_iff h hg).1 hwithin with rfl | hmem
          · obtain rfl := Option.some.inj (hp.symm.trans hq)
            exact absurd (List.self_eq_append_right.1 hsteps) hne
          · exact hmem
        have hplace := FieldTree.place?_below h hp hg hmem
        obtain ⟨v, hv⟩ := Option.isSome_iff_exists.1 ((Forest.isSome_spot? _ _).2 hmem)
        rw [hv, Option.map_some, hq] at hplace
        obtain rfl := Option.some.inj hplace
        refine ⟨v, hv, hkind, ?_, ?_⟩
        · simpa [Spot.place, hlive] using hqt
        · have hcancel : v.steps = steps := by simpa [Spot.place] using hsteps
          rwa [hcancel]

/-- In no tree does the walk list a node that is not in the tree. -/
theorem contains_of_mem_fieldsBelow {base field : NodeId} (h : field ∈ s.fieldsBelow t base) :
    t.contains field = true := by
  unfold fieldsBelow at h
  cases hl : t.locate? base with
  | none =>
    rw [hl] at h
    cases h
  | some l =>
    simp only [hl] at h
    split at h
    · cases h
    · rw [FieldTree.mem_inMatchOrder] at h
      have hmem : field ∈ l.children.ids := (Forest.matching_sublist _ _).subset h
      have hbelow := (FieldTree.locate?_eq_some hl).2.1
      have hfields : field ∈ t.fields.ids := by
        by_cases hroot : base = rootId
        · rw [hroot, FieldTree.below?_root] at hbelow
          exact Option.some.inj hbelow ▸ hmem
        · rw [FieldTree.below?_of_ne_root t hroot] at hbelow
          exact Forest.mem_ids_of_below? hbelow hmem
      rw [FieldTree.contains_eq]
      by_cases hroot : field = rootId
      · rw [hroot, FieldTree.place?_root]
        rfl
      · rw [FieldTree.place?_of_ne_root t hroot, Option.isSome_map]
        exact (Forest.isSome_spot? _ _).2 hfields

/-- A text has at least one piece. -/
theorem pieces_ne_nil (text : List Char) : Path.pieces text ≠ [] := by
  cases text with
  | nil => simp [Path.pieces]
  | cons c rest =>
    simp only [Path.pieces]
    split
    · simp
    · split <;> simp

/-- A piece stands for at least one step. -/
theorem piece?_ne_nil {piece : List Char} {steps : List Step} (h : Path.piece? piece = some steps) :
    steps ≠ [] := by
  simp only [Path.piece?] at h
  split at h
  · simp at h
  · simp only [Option.ite_none_left_eq_some, Option.some.injEq] at h
    rw [← h.2]
    intro hnil
    rw [hnil] at h
    simp at h

/-- The pattern of a selector that was read is not empty. -/
theorem pattern_ne_nil {source : String} {s : Selector} (h : Selector.parse source = .ok s) :
    s.pattern ≠ [] := by
  have hpieces {l : List (List Char)} {pattern : List PatternStep} (hl : l ≠ [])
      (hp : patternOfPieces l = .ok pattern) : pattern ≠ [] := by
    cases l with
    | nil => exact absurd rfl hl
    | cons piece rest =>
      simp only [patternOfPieces] at hp
      split at hp
      · simp at hp
      next steps hsteps =>
        split at hp
        · simp at hp
        next first hfirst =>
          cases hrest : patternOfPieces rest with
          | error => simp [hrest, Except.map] at hp
          | ok others =>
            simp only [hrest, Except.map, Except.ok.injEq] at hp
            obtain ⟨a, tail, rfl⟩ := List.exists_cons_of_ne_nil (piece?_ne_nil hsteps)
            rw [← hp]
            intro hnil
            rw [(List.append_eq_nil_iff.1 hnil).1, List.mapM_cons] at hfirst
            cases ha : PatternStep.ofStep? a <;> cases ht : tail.mapM PatternStep.ofStep? <;>
              simp [ha, ht] at hfirst
  simp only [parse] at h
  split at h
  · simp at h
  · cases hp : patternOfPieces (Path.pieces (splitStart source.toList).2) with
    | error => simp [hp, Except.map] at h
    | ok pattern =>
      simp only [hp, Except.map, Except.ok.injEq] at h
      rw [← h]
      exact hpieces (pieces_ne_nil _) hp

/-- A selector that was read knows its text. -/
theorem source_of_parse {source : String} {s : Selector} (h : Selector.parse source = .ok s) :
    s.source = source := by
  simp only [parse] at h
  split at h
  · simp at h
  · cases hp : patternOfPieces (Path.pieces (splitStart source.toList).2) with
    | error => simp [hp, Except.map] at h
    | ok pattern =>
      simp only [hp, Except.map, Except.ok.injEq] at h
      rw [← h]

end Selector

end LiveForm
