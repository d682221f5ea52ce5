import LiveForm.Proofs.Form.Batches
import LiveForm.Proofs.Form.Copies

/-!
# Single edits

What the edits do that enter a value, add a node under a group or add an element to an array. Each of them keeps a form
sound, whether it succeeds or fails.
-/

set_option autoImplicit false

namespace LiveForm

/-- The text of a path stands for a node. -/
def FieldTree.Resolves (t : FieldTree) (path : String) (id : NodeId) : Prop :=
  ∃ p, Path.parse path = .ok p ∧ t.find? p = some id

theorem FieldTree.Resolves.unique {t : FieldTree} {path : String} {id id' : NodeId} (h : t.Resolves path id)
    (h' : t.Resolves path id') : id = id' := by
  obtain ⟨p, hp, hid⟩ := h
  obtain ⟨p', hp', hid'⟩ := h'
  obtain rfl := Except.ok.inj (hp.symm.trans hp')
  exact Option.some.inj (hid.symm.trans hid')

/-- The second tree is the first one with one more element in an array. -/
def FieldTree.Grown (t : FieldTree) (array : NodeId) (t' : FieldTree) : Prop :=
  ∃ template created, t.template? array = some template ∧
    t.copySubtree template array (.index (Form.nextIndex t array)) = .ok (created, t')

theorem FieldTree.Grown.unique {t t' t'' : FieldTree} {array : NodeId} (h : t.Grown array t') (h' : t.Grown array t'') :
    t' = t'' := by
  obtain ⟨template, created, htemplate, hcopy⟩ := h
  obtain ⟨template', created', htemplate', hcopy'⟩ := h'
  obtain rfl := Option.some.inj (htemplate.symm.trans htemplate')
  exact congrArg Prod.snd (Except.ok.inj (hcopy.symm.trans hcopy'))

namespace Form

variable {f g : Form} {id parent array : NodeId} {key : Step} {kind : Kind} {formula : Option String}

section Values

/-- Whoever reads the text of a path leaves the form alone. -/
theorem ends_resolve (path : String) : Ends (resolve path f)
    (fun id g => g = f ∧ f.tree.Resolves path id)
    (fun e g => g = f ∧ (∀ id, ¬ f.tree.Resolves path id) ∧
      ((∃ fault, e = .invalidPath path fault) ∨ e = .nodeNotFound path)) := by
  unfold resolve FieldTree.Resolves
  split
  next fault hfault =>
    refine ⟨rfl, ?_, .inl ⟨fault, rfl⟩⟩
    rintro id ⟨p, hp, -⟩
    simp [hfault] at hp
  next p hp =>
    split
    next id hid => exact ⟨rfl, p, hp, hid⟩
    next hnone =>
      refine ⟨rfl, ?_, .inr rfl⟩
      rintro id ⟨p', hp', hid⟩
      obtain rfl := Except.ok.inj (hp.symm.trans hp')
      simp [hnone] at hid

/-- A field whose value has changed is pending if it is in the graph. -/
def touched (f : Form) (id : NodeId) : Form :=
  if f.graph.contains id then f.addPending [id] else f

theorem touched_eq (f : Form) (id : NodeId) : f.touched id = { f with pending := (f.touched id).pending } := by
  unfold touched
  split <;> rfl

theorem subset_pending_touched {x : NodeId} (hx : x ∈ f.pending) : x ∈ (f.touched id).pending := by
  unfold touched
  split
  · exact mem_addPending.2 (.inl hx)
  · exact hx

theorem mem_pending_touched (h : f.graph.contains id = true) : id ∈ (f.touched id).pending := by
  simp [touched, h]

theorem marks_touched {t : FieldTree} : Marks f ((f.withTree t).touched id) := by
  refine ⟨fun _ => False, fun n F hF _ => ?_, fun n hn => .inl (subset_pending_touched hn)⟩
  rw [touched_eq] at hF ⊢
  exact ⟨hF, not_false, fun _ _ _ => ⟨Iff.rfl, fun _ => not_false⟩⟩

section Entering

variable (id) (value : Value)

theorem place?_entered (t : FieldTree) (x : NodeId) : (t.modify id fun n => { n with value }).place? x =
    (t.place? x).map fun p => { p with node := if x = id then { p.node with value } else p.node } :=
  FieldTree.place?_modify (f := fun n => { n with value }) (fun _ => rfl) x

/-- Graph and registry go by formulas and paths, which a value does not touch. -/
theorem Settled.entered (h : Settled f) : Settled (f.withTree (f.tree.modify id fun n => { n with value })) := by
  have hwf := h.current.tree
  refine h.withTree (hwf.modify (fun _ => rfl) (fun _ => rfl) fun p hp => hwf.formulas id p hp) (fun x _ => ?_)
    (fun _ (hx : False) => hx.elim) (fun _ hx => hx.elim) (fun _ _ _ hx => hx) (fun _ hx => hx.elim)
    fun _ hx => hx.elim
  rw [place?_entered]
  cases f.tree.place? x with
  | none => rfl
  | some p =>
    simp only [Option.map_some, Place.outline]
    split <;> rfl

/-- If somebody reads the field, it is pending. -/
theorem Settled.traced_entered (h : Settled f) :
    Traced f ((f.withTree (f.tree.modify id fun n => { n with value })).touched id) := by
  have hcoherent := (h.entered id value).coherent
  have hplace {x : NodeId} {p p' : Place} (hp : f.tree.place? x = some p)
      (hp' : ((f.withTree (f.tree.modify id fun n => { n with value })).touched id).tree.place? x = some p') :
      p' = { p with node := if x = id then { p.node with value } else p.node } := by
    rw [touched_eq] at hp'
    exact (Option.some.inj (((place?_entered id value f.tree x).trans (congrArg _ hp)).symm.trans hp')).symm
  refine ⟨fun x y p q p' q' hp hq hp' hq' => ?_, fun x p p' hp hp' => ?_, fun x p p' hp hp' => ?_⟩
  · rw [hplace hp hp', hplace hq hq']
  · rw [hplace hp hp']
    dsimp only
    split <;> exact ⟨rfl, rfl⟩
  · rw [hplace hp hp']
    by_cases hx : x = id
    · subst hx
      refine .inr ?_
      -- A field outside the graph is read by nobody.
      by_cases hin : f.graph.contains x = true
      · exact .inl (mem_pending_touched hin)
      · right
        intro i hcached
        rw [touched_eq] at hcached
        refine hin (hcoherent.tidy.contains_iff.2 (.inr ⟨i, ?_⟩))
        exact (hcoherent.successors i x).2 ⟨hcached, not_false⟩
    · exact .inl (by rw [if_neg hx])

/-- Entering a value keeps a form sound. -/
theorem Sound.entered (h : Sound f) :
    Continues f ((f.withTree (f.tree.modify id fun n => { n with value })).touched id) := by
  have heq := touched_eq (f.withTree (f.tree.modify id fun n => { n with value })) id
  have hentered := h.settled.entered id value
  have hset : Settled ((f.withTree (f.tree.modify id fun n => { n with value })).touched id) := by
    rw [heq]
    exact hentered.congr rfl rfl rfl hentered.levels
  have hschedule : ((f.withTree (f.tree.modify id fun n => { n with value })).touched id).schedule = f.schedule := by
    rw [heq]
    rfl
  refine ⟨⟨hset, ?_, updating_of_schedule h.updating hschedule⟩,
    fun hc => hc.traced h.settled hset marks_touched (h.settled.traced_entered id value), hschedule⟩
  rw [heq]
  exact h.shaped.modify (fun _ => rfl) fun _ => rfl

end Entering

/-- Entering a value succeeds at a field, and only there. -/
theorem Sound.setValueAt (h : Sound f) (value : Value) : Ends (setValueAt id value f)
    (fun _ f' => Continues f f' ∧ (f.isSet .recomputeEagerly = true → f'.pending = ∅) ∧
      f'.tree.blank = (f.tree.modify id fun n => { n with value }).blank)
    (fun _ f' => f' = f ∧ (f.tree.get? id).map (·.kind) ≠ some .field) := by
  unfold Form.setValueAt
  split
  next hfield =>
    have hset : f.tree.setValue id value = .ok (f.tree.modify id fun n => { n with value }) := by
      cases hl : f.tree.locate? id with
      | none => simp [FieldTree.get?, hl] at hfield
      | some l => simp only [FieldTree.setValue, FieldTree.require, hl]; rfl
    refine Ends.bind (FormM.ends_editTree (fun t ht => ?_) fun e he => ?_)
    · obtain rfl := Except.ok.inj (hset.symm.trans ht)
      have hentered : Continues f ((f.withTree (f.tree.modify id _)).touched id) := h.entered id value
      refine Ends.bind (FormM.ends_update ?_)
      show Ends (Form.settle ((f.withTree _).touched id)) _ _
      refine hentered.sound.settle.mono ?_ fun _ _ he => he.elim
      rintro _ f' ⟨hcont, hpending, hblank⟩
      refine ⟨hentered.trans hcont, fun he => hpending ?_, ?_⟩
      · unfold isSet at he ⊢
        rw [hentered.schedule]
        exact he
      · rw [hblank, touched_eq]
        rfl
    · rw [hset] at he
      simp at he
  next hfield => exact ⟨rfl, hfield⟩

/-- Evaluating all formulas keeps a form sound. -/
theorem Sound.recomputeAll (h : Sound f) : ∃ report f', recomputeAll f = .ok report f' ∧
    Continues f f' ∧ f'.pending = ∅ := by
  have hset : Settled (f.addPending f.graph.formulaNodes) := h.settled.congr rfl rfl rfl h.settled.levels
  have hcont : Continues f (f.addPending f.graph.formulaNodes) :=
    { sound := ⟨hset, h.shaped, h.updating⟩
      covered := fun hc n hn => by
        rcases hc n hn with hp | ⟨m, hm, hreads⟩
        · exact .inl (mem_addPending.2 (.inl hp))
        · exact .inr ⟨m, mem_addPending.2 (.inl hm), hreads⟩
      schedule := rfl }
  obtain ⟨report, f', hrun, hr⟩ := hcont.sound.recomputePending
  exact ⟨report, f', hrun, hcont.trans (hr.continues hcont.sound), hr.pending⟩

end Values

section Growing

/-- A refused edit leaves the shape of the tree alone. -/
theorem Undone.continues (h : Sound f) (hset : Settled g) (hundone : Undone f.paused g)
    (hadv : Advance f.paused g) : Continues f g.resumed :=
  h.resumed hset (hundone.shaped h.shaped) hadv

/-- Adding a node under a group. -/
theorem Sound.addUnderGroup (h : Sound f) {p : Place} (hp : f.tree.place? parent = some p)
    (hgroup : p.node.kind = .group) : Ends (Form.batch (Form.insertNode parent key kind formula) f)
    (fun id f' => Continues f f' ∧ (f.isSet .recomputeEagerly = true → f'.pending = ∅) ∧
      id = f.tree.next ∧ f'.tree.blank = (f.tree.withNew parent key kind formula).blank ∧
      (f.tree.withNew parent key kind formula).Acyclic)
    (fun e f' => Continues f f' ∧ (∃ g, Undone f.paused g ∧ f' = g.resumed) ∧ Refuses f.tree parent key kind formula e) := by
  have hset : Settled f.paused := h.settled.withSchedule _
  have hnew : Ends (Form.insertNode parent key kind formula f.paused) _ _ :=
    hset.insertNode (quiet_paused h.updating)
  refine (h.batch (fun id g => id = f.tree.next ∧ g.tree = f.tree.withNew parent key kind formula ∧
      g.tree.Acyclic) (fun e g => Settled g ∧ Undone f.paused g ∧ Advance f.paused g ∧
      Refuses f.tree parent key kind formula e) (hnew.mono ?_ ?_)).mono ?_ ?_
  · rintro id g ⟨rfl, hcheck, hformula, hg, htree, hadv, -⟩
    refine ⟨hg, ?_, hadv, rfl, htree, hg.tree_acyclic⟩
    rw [htree]
    exact (FieldTree.grafts_withNew hset.current.tree hcheck hformula).shaped hset.current.tree h.shaped hp
      (FieldTree.shaped_newNode _ _ _ _ (by rw [hgroup]; simp))
  · rintro e g ⟨hg, hundone, hadv, herror⟩
    exact ⟨hg, hundone, hadv, herror⟩
  · rintro id f' ⟨hcont, hpending, g, ⟨rfl, htree, hacyclic⟩, hblank, -⟩
    exact ⟨hcont, hpending, rfl, by rw [hblank, htree], htree ▸ hacyclic⟩
  · rintro e f' ⟨g, ⟨hg, hundone, hadv, herror⟩, rfl⟩
    exact ⟨hundone.continues h hg hadv, ⟨g, hundone, rfl⟩, herror⟩

theorem ends_templateOf : Ends (templateOf array f)
    (fun template f' => f' = f ∧ f.tree.template? array = some template)
    (fun e f' => f' = f ∧ e = .notAnArray (f.tree.path array) ∧ f.tree.template? array = none) := by
  unfold templateOf
  split
  next template ht => exact ⟨rfl, ht⟩
  next hnone => exact ⟨rfl, rfl, hnone⟩

theorem ends_expectArray : Ends (expectArray array f)
    (fun _ f' => f' = f ∧ (f.tree.get? array).map (·.kind) = some .array)
    (fun e f' => f' = f ∧ e = .notAnArray (f.tree.path array) ∧ (f.tree.get? array).map (·.kind) ≠ some .array) := by
  unfold expectArray
  split
  next harray => exact ⟨rfl, harray⟩
  next harray => exact ⟨rfl, rfl, harray⟩

/-- The next element of an array has an index that is free for elements. -/
theorem isSlot_nextIndex {t : FieldTree} (hs : t.Shaped) (ht : t.WellFormed) {p : Place}
    (hp : t.place? array = some p) (harray : p.node.kind = .array) :
    (Step.index (nextIndex t array)).IsSlot := by
  unfold nextIndex
  split
  next i x hlast =>
    obtain ⟨q, hq, hparent, hkey, -⟩ :=
      (FieldTree.mem_elements ht).1 (List.mem_of_getLast? hlast)
    obtain ⟨-, j, hj, hle⟩ := hs.child ht hp harray hq hparent
    obtain rfl : i = j := by simpa [hkey] using hj
    exact ⟨_, rfl, Int.le_trans hle (by omega)⟩
  next => exact ⟨0, rfl, by decide⟩

/-- The tree that a copy of the template has been added to is the only one of its kind. -/
theorem copySubtree_of_grown {t t' : FieldTree} {template : NodeId} (htemplate : t.template? array = some template)
    (h : t.Grown array t') : ∃ created,
      t.copySubtree template array (.index (nextIndex t array)) = .ok (created, t') := by
  obtain ⟨template', created, htemplate', hcopy⟩ := h
  obtain rfl := Option.some.inj (htemplate.symm.trans htemplate')
  exact ⟨created, hcopy⟩

/-- A copy of the template is added to its array, or nothing. -/
theorem Settled.pushCopy (h : Settled f) (hquiet : f.Quiet) (hshaped : f.tree.Shaped) {template : NodeId}
    (htemplate : f.tree.template? array = some template) {p : Place} (hp : f.tree.place? array = some p)
    (harray : p.node.kind = .array) :
    Ends ((do
      let created ← FormM.onTree (·.copySubtree template array (.index (nextIndex f.tree array)))
      Form.nodesAdded created
      return created.headD rootId : FormM NodeId) f)
    (fun _ g => Settled g ∧ g.tree.Shaped ∧ Advance f g ∧ f.tree.Grown array g.tree ∧ g.tree.Acyclic)
    (fun e g => Settled g ∧ Undone f g ∧ Advance f g ∧ (∀ t', f.tree.Grown array t' → t'.Explains e) ∧
      ((∃ paths, e = .cycle paths) → ∃ t', f.tree.Grown array t')) := by
  have hwf := h.current.tree
  obtain ⟨q, hq, hparent, -⟩ := FieldTree.template?_eq_some hwf htemplate
  refine Ends.bind (FormM.ends_onTree (fun created t hcopy => ?_) fun e hcopy => ?_)
  · obtain ⟨l, hl, -, hgraft, hadded⟩ := h.copyAdded hquiet hcopy
    refine Ends.bind (hadded.mono ?_ ?_)
    · rintro _ g ⟨hg, htree, hadv, -⟩
      refine Ends.pure ⟨hg, ?_, hadv, ?_, hg.tree_acyclic⟩
      · rw [htree]
        refine hgraft.shaped hwf hshaped hp (FieldTree.Shaped.copied hshaped hwf hl fun _ => ?_)
        obtain rfl := Option.some.inj (hq.symm.trans (FieldTree.locate?_eq_some hl).1)
        exact ⟨hshaped.group hwf hp harray hq hparent, isSlot_nextIndex hshaped hwf hp harray⟩
      · exact htree.symm ▸ ⟨template, created, htemplate, hcopy⟩
    · rintro e g ⟨hg, hundone, hadv, herror⟩
      refine ⟨hg, hundone, hadv, fun t' hgrown => ?_, fun _ => ⟨t, template, created, htemplate, hcopy⟩⟩
      obtain ⟨created', hcopy'⟩ := copySubtree_of_grown htemplate hgrown
      exact (Prod.mk.inj (Except.ok.inj (hcopy.symm.trans hcopy'))).2 ▸ herror
  · refine ⟨h, .refl _, .refl _, fun t' hgrown => ?_, fun ⟨paths, hcycle⟩ => ?_⟩
    · obtain ⟨created', hcopy'⟩ := copySubtree_of_grown htemplate hgrown
      have hboth := hcopy.symm.trans hcopy'
      simp at hboth
    · exact absurd hcycle (FieldTree.ne_cycle_of_copySubtree hcopy paths)

/-- Adding a copy of a template to its array. -/
theorem Sound.pushElementAt (h : Sound f) : Ends (pushElementAt array f)
    (fun _ f' => Continues f f' ∧ (f.isSet .recomputeEagerly = true → f'.pending = ∅) ∧
      ∃ t', f.tree.Grown array t' ∧ t'.Acyclic ∧ f'.tree.blank = t'.blank)
    (fun e f' => Continues f f' ∧ (∃ g, Undone f.paused g ∧ f' = g.resumed) ∧
      (∀ p t', f.tree.place? array = some p → p.node.kind = .array → f.tree.Grown array t' → t'.Explains e) ∧
      ((∃ paths, e = .cycle paths) → ∃ t', f.tree.Grown array t' ∧ t'.Explains e)) := by
  have hset : Settled f.paused := h.settled.withSchedule _
  have hunchanged : ∃ g, Undone f.paused g ∧ f = g.resumed := by
    refine ⟨f.paused, .refl _, ?_⟩
    show f = { f with schedule := (f.schedule.push .recomputeEagerly false).pop .recomputeEagerly }
    rw [Schedule.pop_push]
  unfold Form.pushElementAt
  refine Ends.bind (ends_expectArray.mono ?_ ?_)
  swap
  · rintro _ f' ⟨rfl, rfl, hnot⟩
    refine ⟨.refl h, hunchanged, fun p t' hp harray => absurd ?_ hnot, by simp⟩
    rw [FieldTree.get?_eq, hp]
    simp [harray]
  rintro _ f' ⟨rfl, harray⟩
  refine Ends.bind (ends_templateOf.mono ?_ ?_)
  swap
  · rintro _ f' ⟨rfl, rfl, hnone⟩
    refine ⟨.refl h, hunchanged, fun p t' _ _ ⟨template, _, htemplate, _⟩ => ?_, by simp⟩
    simp [hnone] at htemplate
  rintro template f' ⟨rfl, htemplate⟩
  refine Ends.bind (Ends.pure ?_)
  rw [FieldTree.get?_eq] at harray
  cases hp : f'.tree.place? array with
  | none => simp [hp] at harray
  | some p =>
    have hkind : p.node.kind = .array := by simpa [hp] using harray
    have hpush := hset.pushCopy (quiet_paused h.updating) h.shaped htemplate hp hkind
    refine (h.batch _ _ hpush).mono ?_ ?_
    · rintro _ f'' ⟨hcont, hpending, g, ⟨hgrown, hacyclic⟩, hblank, -⟩
      exact ⟨hcont, hpending, g.tree, hgrown, hacyclic, hblank⟩
    · rintro e f'' ⟨g, ⟨hg, hundone, hadv, herror, hcycle⟩, rfl⟩
      exact ⟨hundone.continues h hg hadv, ⟨g, hundone, rfl⟩, fun _ t' _ _ => herror t',
        fun he => (hcycle he).imp fun t' ht' => ⟨ht', herror t' ht'⟩⟩

end Growing

end Form

end LiveForm
