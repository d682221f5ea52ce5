import LiveForm.Proofs.Tree.Closing
import LiveForm.Proofs.Tree.Handles
import LiveForm.Proofs.Tree.Planting

/-!
# Trees that are in order

What can be said of the tree of a form at any time, whatever has been done to it. The values of formulas do not matter for
it.
-/

set_option autoImplicit false

namespace LiveForm

namespace Forest

variable {f : Forest} {above : Kind} {x target : NodeId} {newKey : Step}

theorem below?_blank (x : NodeId) (f : Forest) : f.blank.below? x = (f.below? x).map Forest.blank := by
  induction f with
  | nil => rfl
  | cons id key node children siblings ihc ihs =>
    simp only [blank, below?]
    split
    · rfl
    · rw [ihc, ihs]
      cases children.below? x <;> cases siblings.below? x <;> rfl

theorem blank_erase (f : Forest) : (f.erase target).blank = f.blank.erase target := by
  induction f with
  | nil => rfl
  | cons id key node children siblings ihc ihs =>
    simp only [erase, blank]
    split
    · exact ihs
    · simp only [blank, ihc, ihs]

theorem blank_rekey (f : Forest) : (f.rekey target newKey).blank = f.blank.rekey target newKey := by
  induction f with
  | nil => rfl
  | cons id key node children siblings ihc ihs => simp only [rekey, blank, ihc, ihs]

end Forest

namespace FieldTree

variable {t t' : FieldTree} {x id parent : NodeId} {key : Step}

theorem blank_without : (t.without id).blank = t.blank.without id := by
  simp only [FieldTree.without, FieldTree.blank, Forest.blank_erase]

theorem blank_withKey : (t.withKey id key).blank = t.blank.withKey id key := by
  simp only [FieldTree.withKey, FieldTree.blank, Forest.blank_rekey]

theorem below?_blank (t : FieldTree) (x : NodeId) : t.blank.below? x = (t.below? x).map Forest.blank := by
  by_cases hx : x = rootId
  · rw [hx, below?_root, below?_root]
    rfl
  · rw [below?_of_ne_root _ hx, below?_of_ne_root _ hx]
    exact Forest.below?_blank x t.fields

/-- The tree of a form at any time. -/
structure Intact (t : FieldTree) : Prop where
  wellFormed : t.WellFormed
  shaped : t.Shaped

theorem Intact.of_blank (h : t.Intact) (hblank : t'.blank = t.blank) : t'.Intact :=
  ⟨h.wellFormed.of_blank hblank, h.shaped.of_blank hblank⟩

theorem Intact.withNext (h : t.Intact) {n : NodeId} (hn : t.next ≤ n) : (t.withNext n).Intact :=
  ⟨{ h.wellFormed with
      lt_next := fun x hx => Nat.lt_of_lt_of_le (h.wellFormed.lt_next x hx) hn
      next_pos := Nat.lt_of_lt_of_le h.wellFormed.next_pos hn
      formulas := h.wellFormed.formulas }, h.shaped⟩

theorem Intact.entered (h : t.Intact) (id : NodeId) (value : Value) :
    (t.modify id fun n => { n with value }).Intact :=
  ⟨h.wellFormed.modify (fun _ => rfl) (fun _ => rfl) fun p hp => h.wellFormed.formulas id p hp,
    h.shaped.modify (fun _ => rfl) fun _ => rfl⟩

theorem Intact.without (h : t.Intact) (hid : id ≠ rootId) : (t.without id).Intact :=
  ⟨h.wellFormed.without hid, h.shaped.without⟩

/-- A new node is put under a group. -/
theorem Intact.withNew (h : t.Intact) {kind : Kind} {formula : Option String} {p : Place}
    (hp : t.place? parent = some p) (hgroup : p.node.kind = .group) (hcheck : t.checkInsert parent key = .ok ())
    (hformula : formula.isSome → kind = .field) : (t.withNew parent key kind formula).Intact := by
  have hgraft := grafts_withNew h.wellFormed hcheck hformula
  exact ⟨hgraft.wellFormed h.wellFormed,
    hgraft.shaped h.wellFormed h.shaped hp (shaped_newNode _ _ _ _ (by simp [hgroup]))⟩

/-- A node is copied to a place that suits it. -/
theorem Intact.copySubtree (h : t.Intact) {source : NodeId} {created : List NodeId} {p : Place}
    (hp : t.place? parent = some p) (hcopy : t.copySubtree source parent key = .ok (created, t'))
    (hfits : p.node.kind = .array → key.IsSlot ∧ ∀ q, t.place? source = some q → q.node.kind = .group) : t'.Intact := by
  obtain ⟨l, hl, -, hgraft, -⟩ := copySubtree_ok h.wellFormed hcopy
  refine ⟨hgraft.wellFormed h.wellFormed, hgraft.shaped h.wellFormed h.shaped hp ?_⟩
  refine h.shaped.copied h.wellFormed hl fun harray => ?_
  obtain ⟨hslot, hgroup⟩ := hfits harray
  exact ⟨hgroup _ (locate?_eq_some hl).1, hslot⟩

/-- The elements behind a gap move up one after the other. -/
def shifted (t : FieldTree) : List (Int × NodeId) → FieldTree
  | [] => t
  | (i, e) :: rest => (t.withKey e (.index (i - 1))).shifted rest

theorem blank_shifted {moves : List (Int × NodeId)} : (t.shifted moves).blank = t.blank.shifted moves := by
  induction moves generalizing t with
  | nil => rfl
  | cons entry rest ih => simp only [shifted, ih, blank_withKey]

/-- The tree once an element is gone and those behind it have moved up. -/
def removed (t : FieldTree) (array e : NodeId) (index : Int) : FieldTree :=
  (t.without e).shifted ((t.without e).elementsBehind array index)

/-- An element is gone, but perhaps not all of those behind it have moved up. -/
def RemovedInPart (t : FieldTree) (array e : NodeId) (index : Int) (t' : FieldTree) : Prop :=
  ∃ done, done <+: (t.without e).elementsBehind array index ∧ t'.blank = ((t.without e).shifted done).blank

theorem elements_of_blank (h : t'.blank = t.blank) (array : NodeId) : t'.elements array = t.elements array := by
  have hblank (t : FieldTree) : t.blank.elements array = t.elements array := by
    have hchildren : t.blank.children array = (t.children array).map fun c => { c with node := c.node.blank } := by
      rw [children_eq, children_eq, below?_blank]
      cases t.below? array with
      | none => rfl
      | some below => exact below.heads_blank
    unfold elements
    rw [hchildren, List.filterMap_map]
    rfl
  rw [← hblank, h, hblank]

theorem Closing.of_blank {array : NodeId} {gap : Int} {rest : List (Int × NodeId)} (h : t.Closing array gap rest)
    (hblank : t'.blank = t.blank) : t'.Closing array gap rest := by
  have hsame {p q : Place} (hpq : p.blank = q.blank) :
      p.key = q.key ∧ p.parent = q.parent ∧ p.node.isTemplate = q.node.isTemplate :=
    ⟨show p.blank.key = q.blank.key by rw [hpq], show p.blank.parent = q.blank.parent by rw [hpq],
      show p.blank.node.isTemplate = q.blank.node.isTemplate by rw [hpq]⟩
  refine { h with placed := ?_, child := fun i e hmem => ?_, listed := fun x q k hq hparent hkey => ?_ }
  · obtain ⟨p, hp⟩ := h.placed
    obtain ⟨p', hp', -⟩ := place?_of_blank hblank hp
    exact ⟨p', hp'⟩
  · obtain ⟨q, hq, hparent, hkey, hlive⟩ := h.child i e hmem
    obtain ⟨q', hq', hqq⟩ := place?_of_blank hblank hq
    obtain ⟨hk, hp, ht⟩ := hsame hqq
    exact ⟨q', hq', hp.trans hparent, hk.trans hkey, ht.trans hlive⟩
  · obtain ⟨q', hq', hqq⟩ := place?_of_blank hblank.symm hq
    obtain ⟨hk, hp, -⟩ := hsame hqq
    exact h.listed x q' k hq' (hp.trans hparent) (hk.trans hkey)

/-- As far as they have moved, the tree is in order. -/
theorem Closing.intact {array : NodeId} {gap : Int} {done rest : List (Int × NodeId)}
    (h : t.Closing array gap rest) (ht : t.Intact) (hdone : done <+: rest) : (t.shifted done).Intact := by
  induction done generalizing t gap rest with
  | nil => exact ht
  | cons entry done ih =>
    obtain ⟨i, e⟩ := entry
    obtain ⟨later, rfl⟩ := hdone
    obtain ⟨q, hq, hparent, -⟩ := h.child i e List.mem_cons_self
    have hwf := ht.wellFormed.withKey h.ne_root hq hparent fun holder hholder => by
      rw [h.free ht.wellFormed] at hholder
      simp at hholder
    exact ih (h.step ht.wellFormed) ⟨hwf, h.shaped ht.wellFormed ht.shaped⟩ (List.prefix_append _ _)

end FieldTree

end LiveForm
