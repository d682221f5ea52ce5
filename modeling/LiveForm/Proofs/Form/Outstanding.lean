import LiveForm.Proofs.Form.Rebuilding
import LiveForm.Proofs.Form.Rejections
import LiveForm.Proofs.Form.Watching

/-!
# What is pending is in use

In the course of an edit nodes with formulas become pending, and the field whose value is entered. So what is pending has
a formula or is a node that the tree has, or had. An element that is rejected takes nothing along that was pending before
it was added.
-/

set_option autoImplicit false

namespace LiveForm

theorem FieldTree.Within.of_blank {t t' : FieldTree} {upper x : NodeId} (h : t.Within upper x)
    (hblank : t'.blank = t.blank) : t'.Within upper x := by
  obtain ⟨p, q, hp, hq, hprefix⟩ := h
  obtain ⟨p', hp', hpp⟩ := place?_of_blank hblank hp
  obtain ⟨q', hq', hqq⟩ := place?_of_blank hblank hq
  refine ⟨p', q', hp', hq', ?_⟩
  rwa [show p'.path = p.path from (Place.blank_eq hpp).1, show q'.path = q.path from (Place.blank_eq hqq).1]

/-- No handle goes out of use. -/
theorem FieldTree.Intact.next_le_of_evolves {t t' : FieldTree} (ht : t.Intact) (h : t.Evolves t') : t.next ≤ t'.next := by
  induction h with
  | refl => exact Nat.le_refl _
  | @tail t₁ t₂ hbefore hchange ih =>
    refine Nat.le_trans ih ?_
    have hwf := (ht.evolves hbefore).wellFormed
    cases hchange with
    | values hblank => exact Nat.le_of_eq (next_of_blank hblank).symm
    | used hn => exact hn
    | entered id value => exact Nat.le_of_eq next_modify.symm
    | inserted hp hgroup hcheck hformula => exact (grafts_withNew hwf hcheck hformula).next
    | copied hp hgroup hcopy =>
      obtain ⟨l, -, -, hgraft, -⟩ := copySubtree_ok hwf hcopy
      exact hgraft.next
    | pushed hp harray hq hparent hcopy =>
      obtain ⟨l, -, -, hgraft, -⟩ := copySubtree_ok hwf hcopy
      exact hgraft.next
    | dropped hid hapart => exact Nat.le_refl _

theorem FieldTree.next_shifted {t : FieldTree} {moves : List (Int × NodeId)} : (t.shifted moves).next = t.next := by
  induction moves generalizing t with
  | nil => rfl
  | cons entry rest ih => exact ih

namespace Form

variable {α β : Type} {f g : Form} {t : FieldTree} {s : Schedule} {new gone : NodeId → Prop} {n id array parent : NodeId}

section Subtrees

variable (hgone : f.isSet .recomputeEagerly = true → ∀ x, gone x)

include hgone

theorem Consistent.minds_nodeAdded (h : Consistent f) (hn : gone n) :
    Ends (nodeAdded n f) (fun _ => Minds new gone f) (fun _ => Minds new gone f) := by
  unfold Form.nodeAdded
  split
  · exact .refl f
  · split
    · exact .refl f
    · exact h.minds_register hn _ hgone

/-- Nodes are reported one after the other. -/
theorem Consistent.minds_forM (h : Consistent f) {report : NodeId → FormM Unit} {nodes : List NodeId}
    (hreport : ∀ n ∈ nodes, ∀ g, Consistent g → (g.isSet .recomputeEagerly = true → ∀ x, gone x) →
      Ends (report n g) (fun _ => Minds new gone g) (fun _ => Minds new gone g))
    (hsteady : ∀ n, Preserves (Steady f.tree.blank f.schedule) (report n)) :
    Ends (nodes.forM report f) (fun _ g => Steady f.tree.blank f.schedule g ∧ Minds new gone f g)
      (fun _ g => Steady f.tree.blank f.schedule g ∧ Minds new gone f g) := by
  refine (Ends.forM (I := fun rest g => (∀ n ∈ rest, n ∈ nodes) ∧ Steady f.tree.blank f.schedule g ∧ Minds new gone f g)
    ?_ ⟨fun _ hn => hn, .start h, .refl f⟩).mono (fun _ _ hg => hg.2) fun _ _ hg => hg
  rintro n rest g ⟨hsub, hg, hminds⟩
  have hreport' := hreport n (hsub n List.mem_cons_self) g hg.consistent (by rwa [isSet, hg.schedule])
  refine ((hsteady n g hg).and hreport').mono ?_ ?_
  · rintro _ g' ⟨hg', hminds'⟩
    exact ⟨fun m hm => hsub m (List.mem_cons_of_mem _ hm), hg', hminds.trans hminds'⟩
  · rintro _ g' ⟨hg', hminds'⟩
    exact ⟨hg', hminds.trans hminds'⟩

/-- A subtree is reported, and removed. -/
theorem Consistent.minds_discardSubtree (h : Consistent f) (hbelow : ∀ x ∈ f.tree.postorderFrom id, gone x) :
    Ends (discardSubtree id f) (fun _ => Minds new gone f) (fun _ => Minds new gone f) := by
  refine Ends.bind (Ends.pure (Ends.bind ?_))
  refine (h.minds_forM hgone (fun n hn g hg hgone' => hg.minds_unregister (hbelow n hn) hgone') fun n =>
    Steady.unregister n).mono ?_ fun _ _ hg => hg.2
  rintro _ g ⟨-, hg⟩
  exact Ends.bind (FormM.ends_onTree (fun _ t' _ => Ends.pure (hg.congr rfl rfl rfl rfl)) fun _ _ => hg)

/-- New nodes are reported. If one of them is rejected, the first one is removed again with all that is below it. -/
theorem Consistent.minds_nodesAdded (h : Consistent f) {created : List NodeId} (hcreated : ∀ n ∈ created, gone n)
    (hbelow : ∀ g : Form, g.tree.blank = f.tree.blank → ∀ root ∈ created.head?, ∀ x ∈ g.tree.postorderFrom root, gone x) :
    Ends (nodesAdded created f) (fun _ => Minds new gone f) (fun _ => Minds new gone f) := by
  have hadded : Ends (created.forM nodeAdded f)
      (fun _ g => Steady f.tree.blank f.schedule g ∧ Minds new gone f g)
      (fun _ g => Steady f.tree.blank f.schedule g ∧ Minds new gone f g) :=
    h.minds_forM hgone (fun n hn g hg hgone' => hg.minds_nodeAdded hgone' (hcreated n hn)) fun n => Steady.nodeAdded n
  unfold Form.nodesAdded
  split
  next hrun => exact (hadded.of_ok hrun).2
  next e g hrun =>
    obtain ⟨hg, hminds⟩ := hadded.of_error hrun
    cases created with
    | nil => exact hminds
    | cons root rest =>
      have hdiscard : Ends (Form.discardSubtree root g) (fun _ => Minds new gone g) (fun _ => Minds new gone g) :=
        hg.consistent.minds_discardSubtree (by rwa [isSet, hg.schedule]) (hbelow g hg.tree root rfl)
      have hall : Ends ([root].forM Form.discardSubtree g) (fun _ => Minds new gone f) (fun _ => Minds new gone f) :=
        Ends.bind (hdiscard.mono (fun _ _ hg' => hminds.trans hg') fun _ _ hg' => hminds.trans hg')
      have htake : (root :: rest).take 1 = [root] := rfl
      rw [htake]
      split
      next hdone => exact hall.of_ok hdone
      next hfailed => exact hall.of_error hfailed

end Subtrees

/-- Graph and registry go on to agree, and only formulas and nodes that are new become pending. -/
def Mindful (new : NodeId → Prop) (x : FormM α) : Prop :=
  ∀ f, Consistent f → Ends (x f) (fun _ g => Consistent g ∧ Minds new (fun _ => True) f g)
    (fun _ g => Consistent g ∧ Minds new (fun _ => True) f g)

namespace Mindful

theorem pure (a : α) : Mindful new (Pure.pure a) :=
  fun f h => ⟨h, .refl f⟩

theorem throw (e : FormError) : Mindful new (MonadExcept.throw e : FormM α) :=
  fun f h => ⟨h, .refl f⟩

theorem get : Mindful new (MonadState.get : FormM Form) :=
  fun f h => ⟨h, .refl f⟩

theorem bind {x : FormM α} {k : α → FormM β} (hx : Mindful new x) (hk : ∀ a, Mindful new (k a)) :
    Mindful new (x >>= k) :=
  fun f h => Ends.bind ((hx f h).mono (fun a g hg => (hk a g hg.1).mono (fun _ _ hg' => ⟨hg'.1, hg.2.trans hg'.2⟩)
    fun _ _ hg' => ⟨hg'.1, hg.2.trans hg'.2⟩) fun _ _ hg => hg)

theorem discard {x : FormM α} (hx : Mindful new x) : Mindful new (discard x) :=
  bind hx fun _ => pure _

theorem forM {ι : Type} {body : ι → FormM PUnit} (h : ∀ a, Mindful new (body a)) (l : List ι) :
    Mindful new (l.forM body) := by
  induction l with
  | nil => exact pure _
  | cons a rest ih => exact bind (h a) fun _ => ih

/-- The tree does not matter. -/
theorem onTree (action : FieldTree → Except FormError (α × FieldTree)) : Mindful new (FormM.onTree action) :=
  fun f h => FormM.ends_onTree (fun _ _ _ => ⟨h.congr rfl rfl h.levels, (Minds.refl f).congr rfl rfl rfl rfl⟩)
    fun _ _ => ⟨h, .refl f⟩

theorem editTree (action : FieldTree → Except FormError FieldTree) : Mindful new (FormM.editTree action) :=
  onTree _

/-- What was dropped from the tree was not known to the graph. -/
theorem orUndo {x : FormM α} {undo : Form → Form} (hx : Mindful new x) (hundo : ∀ f, ∃ t, undo f = f.withTree t) :
    Mindful new (FormM.orUndo x undo) := by
  refine fun f h => FormM.ends_orUndo ((hx f h).mono (fun _ _ hg => hg) ?_)
  rintro _ g ⟨hg, hminds⟩
  obtain ⟨t, ht⟩ := hundo g
  rw [ht]
  exact ⟨hg.congr rfl rfl hg.levels, hminds.congr rfl rfl rfl rfl⟩

/-- Nor does the schedule. -/
theorem inScope {x : FormM α} {switch : Switch} {value : Bool} (hx : Mindful new x) :
    Mindful new (LiveForm.inScope switch value x) := by
  intro f h
  have hpushed : Consistent { f with schedule := f.schedule.push switch value } := h.congr rfl rfl h.levels
  refine ends_inScope ((hx _ hpushed).mono ?_ ?_)
  · rintro _ g ⟨hg, hminds⟩
    exact ⟨hg.congr rfl rfl hg.levels, hminds.congr rfl rfl rfl rfl⟩
  · rintro _ g ⟨hg, hminds⟩
    exact ⟨hg.congr rfl rfl hg.levels, hminds.congr rfl rfl rfl rfl⟩

/-- A report keeps graph and registry in agreement anyway. -/
theorem of_steady {x : FormM α} (hsteady : ∀ t s, Preserves (Steady t s) x)
    (hminds : ∀ f, Consistent f → Ends (x f) (fun _ => Minds new (fun _ => True) f) (fun _ => Minds new (fun _ => True) f)) :
    Mindful new x := by
  refine fun f h => ((hsteady _ _ f (.start h)).and (hminds f h)).mono ?_ ?_
  · rintro _ g ⟨hg, hg'⟩
    exact ⟨hg.consistent, hg'⟩
  · rintro _ g ⟨hg, hg'⟩
    exact ⟨hg.consistent, hg'⟩

theorem unregister (n : NodeId) : Mindful new (unregister n) :=
  of_steady (fun _ _ => Steady.unregister n) fun _ h => h.minds_unregister trivial fun _ _ => trivial

theorem nodeAdded (n : NodeId) : Mindful new (nodeAdded n) :=
  of_steady (fun _ _ => Steady.nodeAdded n) fun _ h => h.minds_nodeAdded (fun _ _ => trivial) trivial

theorem rename (old : Path) (n : NodeId) : Mindful new (rename old n) :=
  of_steady (fun _ _ => Steady.rename old n) fun _ h => h.minds_rename trivial old fun _ _ => trivial

theorem recomputePending : Mindful new recomputePending :=
  of_steady (fun _ _ => Steady.recomputePendingBy) fun _ h => h.minds_recomputePendingBy fun _ => trivial

theorem recomputeAll : Mindful new recomputeAll :=
  of_steady (fun _ _ => Steady.recomputeAll) fun _ h => h.minds_recomputeAll fun _ => trivial

theorem batch {x : FormM α} (hx : Mindful new x) : Mindful new (batch x) := by
  refine bind get fun f => bind (inScope hx) fun a => ?_
  dsimp only
  split
  · exact bind recomputePending.discard fun _ => pure _
  · exact pure _

theorem discardSubtree (id : NodeId) : Mindful new (discardSubtree id) :=
  bind get fun _ => bind (forM unregister _) fun _ => (onTree _).discard

theorem nodesAdded (created : List NodeId) : Mindful new (nodesAdded created) := by
  intro f h
  have hadded := (forM nodeAdded created : Mindful new (created.forM Form.nodeAdded)) f h
  unfold Form.nodesAdded
  split
  next hrun => exact hadded.of_ok hrun
  next e g hrun =>
    obtain ⟨hg, hminds⟩ := hadded.of_error hrun
    have hdiscard := (forM discardSubtree _ : Mindful new ((created.take 1).forM Form.discardSubtree)) g hg
    split
    next hdone => exact (hdiscard.of_ok hdone).imp_right hminds.trans
    next hfailed => exact (hdiscard.of_error hfailed).imp_right hminds.trans

theorem dropSubtree_eq (f : Form) (id : NodeId) : ∃ t, f.dropSubtree id = f.withTree t := by
  unfold Form.dropSubtree
  split
  · exact ⟨_, rfl⟩
  · exact ⟨f.tree, rfl⟩

theorem insertNode (parent : NodeId) (key : Step) (kind : Kind) (formula : Option String) :
    Mindful new (insertNode parent key kind formula) := by
  refine bind get fun f => ?_
  have hinsert : Mindful new (do
      let id ← FormM.onTree (·.insert parent key kind)
      if kind = .array then Functor.discard (FormM.onTree (·.insertTemplate id))
      FormM.editTree (·.setFormula id formula)
      FormM.orUndo (Form.nodeAdded id) (·.dropSubtree id)
      return id : FormM NodeId) := by
    refine bind (onTree _) fun id => ?_
    have hrest : Mindful new (do
        FormM.editTree (·.setFormula id formula)
        FormM.orUndo (Form.nodeAdded id) (·.dropSubtree id)
        return id : FormM NodeId) :=
      bind (editTree _) fun _ => bind (orUndo (nodeAdded id) fun g => dropSubtree_eq g id) fun _ => pure _
    split
    · exact bind (onTree _).discard fun _ => hrest
    · exact hrest
  dsimp only
  split
  · exact bind (throw _) fun _ => hinsert
  · exact hinsert

theorem tryElement (array template : NodeId) : Mindful new (tryElement array template) :=
  bind get fun _ => bind (onTree _) fun _ => bind (nodesAdded _) fun _ => forM discardSubtree _

theorem copyIntoElements (source : NodeId) (key : Step) (elements : List NodeId) :
    ∀ copies, Mindful new (copyIntoElements source key copies elements) := by
  induction elements with
  | nil => exact fun _ => pure _
  | cons element rest ih =>
    intro copies
    unfold Form.copyIntoElements
    refine bind (onTree _) fun created f h => ?_
    have hadded := (nodesAdded created : Mindful new (Form.nodesAdded created)) f h
    split
    next g hrun =>
      obtain ⟨hg, hminds⟩ := hadded.of_ok hrun
      refine (ih (copies ++ created.take 1) g hg).mono ?_ ?_
      · exact fun _ g' hg' => hg'.imp_right hminds.trans
      · exact fun _ g' hg' => hg'.imp_right hminds.trans
    next e g hrun =>
      obtain ⟨hg, hminds⟩ := hadded.of_error hrun
      have hdiscard := (forM discardSubtree copies : Mindful new (copies.forM Form.discardSubtree)) g hg
      split
      next hdone => exact (hdiscard.of_ok hdone).imp_right hminds.trans
      next hfailed => exact (hdiscard.of_error hfailed).imp_right hminds.trans

theorem templateOf (array : NodeId) : Mindful new (templateOf array) := by
  intro f h
  unfold Form.templateOf
  split
  · exact ⟨h, .refl f⟩
  · exact ⟨h, .refl f⟩

theorem resolve (path : String) : Mindful new (resolve path) := by
  refine fun f h => (ends_resolve path).mono ?_ ?_
  · rintro _ _ ⟨rfl, -⟩
    exact ⟨h, .refl _⟩
  · rintro _ _ ⟨rfl, -⟩
    exact ⟨h, .refl _⟩

theorem expectArray (id : NodeId) : Mindful new (expectArray id) := by
  refine fun f h => ends_expectArray.mono ?_ ?_
  · rintro _ _ ⟨rfl, -⟩
    exact ⟨h, .refl _⟩
  · rintro _ _ ⟨rfl, -⟩
    exact ⟨h, .refl _⟩

theorem extendArray (array : NodeId) (key : Step) (kind : Kind) (formula : Option String) :
    Mindful new (extendArray array key kind formula) := by
  refine bind (templateOf array) fun template => batch (bind (insertNode _ _ _ _) fun id => bind get fun f => ?_)
  refine bind (orUndo ?_ fun g => dropSubtree_eq g id) fun _ => pure _
  split
  · exact tryElement _ _
  · exact copyIntoElements _ _ _ _

theorem addNode (parent : NodeId) (key : Step) (kind : Kind) (formula : Option String) :
    Mindful new (addNode parent key kind formula) := by
  intro f h
  unfold Form.addNode
  split
  · exact ⟨h, .refl f⟩
  · split
    · exact ⟨h, .refl f⟩
    · exact extendArray _ _ _ _ f h
    · exact batch (insertNode _ _ _ _) f h

theorem addField (parent key : String) (kind : Kind) (formula : Option String) :
    Mindful new (addField parent key kind formula) :=
  bind (resolve parent) fun _ => addNode _ _ _ _

theorem pushElement (path : String) : Mindful new (pushElement path) :=
  bind (resolve path) fun array => bind (expectArray array) fun _ => bind (templateOf array) fun _ =>
    bind get fun _ => batch (bind (onTree _) fun _ => bind (nodesAdded _) fun _ => pure _)

theorem renameSubtree (id : NodeId) (key : Step) : Mindful new (renameSubtree id key) :=
  bind get fun _ => bind (onTree _).discard fun _ => forM (fun _ => rename _ _) _

theorem removeElement (path : String) (index : UInt64) : Mindful new (removeElement path index) := by
  refine bind (resolve path) fun array => bind (expectArray array) fun _ => bind get fun f => ?_
  dsimp only
  split
  · exact throw _
  · exact batch (bind (discardSubtree _) fun _ => bind get fun _ => forM (fun _ => renameSubtree _ _) _)

end Mindful

section Histories

/-- What is pending has a formula, or else it is a node that the tree has or had. -/
def InUse (f : Form) : Prop :=
  ∀ x ∈ f.pending, x < f.tree.next ∨ (f.graph.formula? x).isSome

theorem InUse.of_empty (h : f.pending = ∅) : InUse f := by
  intro x hx
  simp [h] at hx

/-- No handle goes out of use. -/
theorem InUse.minds (h : InUse f) (hminds : Minds (· < f.tree.next) gone f g) (hnext : f.tree.next ≤ g.tree.next) :
    InUse g := by
  intro x hx
  rcases hminds.pending x hx with hold | hnew | hF
  · rcases h x hold with hlt | hF
    · exact .inl (Nat.lt_of_lt_of_le hlt hnext)
    · exact (hminds.formula x hx hF).imp_left fun hlt => Nat.lt_of_lt_of_le hlt hnext
  · exact .inl (Nat.lt_of_lt_of_le hnew hnext)
  · exact .inr hF

theorem Intact.next_le_of_gentle {x : FormM α} (h : Intact f) (hx : Gentle x) : f.tree.next ≤ (after x f).tree.next :=
  ((hx f h).mono (fun _ _ hg => h.tree.next_le_of_evolves hg.tree) fun _ _ hg => h.tree.next_le_of_evolves hg.tree).after

theorem Intact.next_of_removal (h : Intact f) (path : String) (index : UInt64) :
    (after (removeElement path index) f).tree.next = f.tree.next := by
  refine Ends.after (P := fun g => g.tree.next = f.tree.next) ((h.remove path index).mono ?_ ?_)
  · rintro _ g ⟨-, -, array, p, e, -, -, -, -, hblank⟩
    exact (FieldTree.next_of_blank hblank).trans FieldTree.next_shifted
  · rintro _ g ⟨-, -, hblank | ⟨-, array, e, -, -, done, -, hblank⟩⟩
    · exact FieldTree.next_of_blank hblank
    · exact (FieldTree.next_of_blank hblank).trans FieldTree.next_shifted

theorem InUse.mindful (h : InUse f) (hf : Intact f) {x : FormM α} (hx : Mindful (· < f.tree.next) x)
    (hnext : f.tree.next ≤ (after x f).tree.next) : InUse (after x f) := by
  have hminds : Minds (· < f.tree.next) (fun _ => True) f (after x f) :=
    ((hx f hf.consistent).mono (fun _ _ hg => hg.2) fun _ _ hg => hg.2).after
  exact h.minds hminds hnext

/-- Entering a value may make the field pending, which the tree has. -/
theorem Intact.minds_setValue (h : Intact f) (path : String) (value : Value) :
    Ends (setValue path value f) (fun _ => Minds (· < f.tree.next) (fun _ => True) f)
      (fun _ => Minds (· < f.tree.next) (fun _ => True) f) := by
  refine Ends.bind ((ends_resolve path).mono ?_ ?_)
  swap
  · rintro _ _ ⟨rfl, -⟩
    exact .refl _
  rintro id f' ⟨rfl, -⟩
  unfold setValueAt
  split
  next hfield =>
    rw [FieldTree.get?_eq, Option.map_map, Option.map_eq_some_iff] at hfield
    obtain ⟨p, hp, -⟩ := hfield
    refine Ends.bind (FormM.ends_editTree (fun t _ => ?_) fun _ _ => .refl _)
    have hid : id < f'.tree.next := FieldTree.lt_next_of_place? h.tree.wellFormed hp
    have hchanged : Ends (valueChanged id (f'.withTree t)) (fun _ => Minds (· < f'.tree.next) (fun _ => True) (f'.withTree t))
        (fun _ => Minds (· < f'.tree.next) (fun _ => True) (f'.withTree t)) :=
      (h.withTree t).consistent.minds_valueChanged (fun _ => trivial) hid
    refine hchanged.mono ?_ ?_
    · exact fun _ _ hg => hg.congr rfl rfl rfl rfl
    · exact fun _ _ hg => hg.congr rfl rfl rfl rfl
  next => exact .refl _

theorem InUse.edit (h : InUse f) (hf : Intact f) (edit : Edit) : InUse (after edit.run f) := by
  have hset (path : String) (value : Value) : InUse (after (setValue path value) f) := by
    refine h.minds (hf.minds_setValue path value).after (hf.next_le_of_gentle (Gentle.setValue path value))
  cases edit with
  | addField parent key kind formula =>
    exact h.mindful hf (Mindful.addField parent key kind formula).discard
      (hf.next_le_of_gentle (Gentle.addField parent key kind formula).discard)
  | pushElement path =>
    exact h.mindful hf (Mindful.pushElement path).discard (hf.next_le_of_gentle (Gentle.pushElement path).discard)
  | removeElement path index =>
    exact h.mindful hf (Mindful.removeElement path index) (Nat.le_of_eq (hf.next_of_removal path index).symm)
  | setValue path value => exact hset path value
  | clearOverride path => exact hset path .void
  | recomputePending =>
    exact h.mindful hf Mindful.recomputePending.discard (hf.next_le_of_gentle Gentle.recomputePending.discard)
  | recomputeAll =>
    exact h.mindful hf Mindful.recomputeAll.discard (hf.next_le_of_gentle Gentle.recomputeAll.discard)
  | rebuild =>
    obtain ⟨hrebuild, -⟩ := hf.consistent.rebuild_spec hf.tree.wellFormed.keyed
    exact .of_empty (hrebuild.mono (fun _ _ hg => hg.pending) fun _ _ hg => hg.pending).after
  | openScope => exact h
  | closeScope => exact h

/-- Whatever has been done to a form, what is pending is in use. -/
theorem Reached.inUse {admits : Settings → Prop} {allows : Form → Edit → Prop} (h : Reached admits allows f) :
    InUse f := by
  induction h with
  | created => exact .of_empty rfl
  | loaded _ hload =>
    obtain ⟨_, -, hrebuilt, -⟩ := (ends_load _ _).of_ok (load_of_ofDocument hload)
    exact .of_empty hrebuilt.pending
  | edited h _ ih => exact ih.edit h.intact _

end Histories

section Elements

/-- The copy of a template is added to its array, or removed again. What was pending before stays so. -/
theorem Settled.minds_pushCopy (h : Settled f) (hquiet : f.Quiet) {template array : NodeId} {key : Step} :
    Ends ((do
      let created ← FormM.onTree (·.copySubtree template array key)
      Form.nodesAdded created
      return created.headD rootId : FormM NodeId) f)
    (fun _ g => Minds (fun _ => False) (f.tree.next ≤ ·) f g)
    (fun _ g => Minds (fun _ => False) (f.tree.next ≤ ·) f g) := by
  have hwf := h.current.tree
  refine Ends.bind (FormM.ends_onTree (fun created t' hcopy => ?_) fun _ _ => .refl f)
  obtain ⟨l, -, hhead, hgraft, -, -, hbound⟩ := FieldTree.copySubtree_ok hwf hcopy
  have hcons : Consistent (f.withTree t') := h.consistent.congr rfl rfl h.consistent.levels
  have hidle : (f.withTree t').isSet .recomputeEagerly = true → ∀ x, f.tree.next ≤ x := by
    intro heager
    have hoff : (f.withTree t').isSet .recomputeEagerly = false := hquiet.2
    rw [hoff] at heager
    cases heager
  have hadded : Ends (Form.nodesAdded created (f.withTree t'))
      (fun _ => Minds (fun _ => False) (f.tree.next ≤ ·) (f.withTree t'))
      (fun _ => Minds (fun _ => False) (f.tree.next ≤ ·) (f.withTree t')) := by
    refine hcons.minds_nodesAdded hidle hbound ?_
    intro g hblank root hroot x hx
    obtain rfl := Option.some.inj (hhead.symm.trans hroot)
    have hg : g.tree.WellFormed := (hgraft.wellFormed hwf).of_blank hblank
    have hwithin : t'.Within f.tree.next x := ((FieldTree.mem_postorderFrom hg.keyed).1 hx).of_blank hblank.symm
    exact hgraft.fresh x ((hgraft.within_iff hwf).1 hwithin)
  refine Ends.bind (hadded.mono ?_ ?_)
  · exact fun _ _ hg => Ends.pure (hg.congr rfl rfl rfl rfl)
  · exact fun _ _ hg => hg.congr rfl rfl rfl rfl

/-- An element that is rejected leaves all pending that was so, and beyond that it leaves only formulas pending. -/
theorem Sound.minds_pushElement (h : Sound f) (path : String) : Ends (pushElement path f) (fun _ _ => True)
    (fun _ g => Minds (fun _ => False) (f.tree.next ≤ ·) f g) := by
  refine Ends.bind ((ends_resolve path).mono ?_ ?_)
  swap
  · rintro _ _ ⟨rfl, -⟩
    exact .refl _
  rintro array f ⟨rfl, -⟩
  refine Ends.bind (ends_expectArray.mono ?_ ?_)
  swap
  · rintro _ _ ⟨rfl, -⟩
    exact .refl _
  rintro _ f ⟨rfl, harray⟩
  refine Ends.bind (ends_templateOf.mono ?_ ?_)
  swap
  · rintro _ _ ⟨rfl, -⟩
    exact .refl _
  rintro template f ⟨rfl, htemplate⟩
  rw [FieldTree.get?_eq, Option.map_map, Option.map_eq_some_iff] at harray
  obtain ⟨p, hp, hkind⟩ := harray
  have hset : Settled f.paused := h.settled.withSchedule _
  have hquiet : f.paused.Quiet := quiet_paused h.updating
  have hpush := hset.pushCopy hquiet h.shaped htemplate hp hkind
  refine Ends.bind (Ends.pure ((h.batch (fun _ _ => True) (fun _ g => Minds (fun _ => False) (f.tree.next ≤ ·) f g)
    ((hpush.and (hset.minds_pushCopy hquiet)).mono ?_ ?_)).mono ?_ ?_))
  · rintro _ g ⟨⟨hg, hshaped, hadv, _⟩, _⟩
    exact ⟨hg, hshaped, hadv, trivial⟩
  · rintro _ g ⟨_, hg⟩
    exact hg.congr rfl rfl rfl rfl
  · exact fun _ _ _ => trivial
  · rintro _ _ ⟨g, hg, rfl⟩
    exact hg.congr rfl rfl rfl rfl

/-- An element that cannot be added to an array leaves no trace in the tree, in the graph and among the bindings. What was
pending still is, and apart from that only formulas are pending. -/
theorem traceless_of_push_failed (h : Faithful f) {path : String} {e : FormError}
    (hfailed : pushElement path f = .error e g) :
    Traceless f g ∧ (∀ x ∈ f.pending, x ∈ g.pending) ∧
      ∀ x ∈ g.pending, x ∈ f.pending ∨ (g.graph.formula? x).isSome := by
  have hsound := h.sound
  have hundone : Ends (pushElement path f) (fun _ _ => True) (fun _ g => Settled g ∧ Undone f g) := by
    refine Ends.bind ((ends_resolve path).mono ?_ ?_)
    · rintro id _ ⟨rfl, -⟩
      refine hsound.pushElementAt.mono (fun _ _ _ => trivial) ?_
      rintro _ _ ⟨hcont, ⟨g, hundone, rfl⟩, -⟩
      exact ⟨hcont.sound.settled, hundone.tree, hundone.next, hundone.keeps.1, hundone.keeps.2⟩
    · rintro _ _ ⟨rfl, -⟩
      exact ⟨hsound.settled, .refl _⟩
  obtain ⟨hset, hg⟩ := hundone.of_error hfailed
  have hminds := (hsound.minds_pushElement path).of_error hfailed
  refine ⟨hg.traceless hsound.settled hset, fun x hx => (hminds.kept x hx).resolve_right fun hnew => ?_,
    fun x hx => (hminds.pending x hx).imp_right fun hF => hF.resolve_left not_false⟩
  -- A handle that has not been used cannot be pending.
  rcases h.arisen.inUse x hx with hlt | hF
  · exact Nat.not_lt.2 hnew hlt
  · rw [(hsound.settled.unknown hnew).1] at hF
    cases hF

/-- An array whose elements read a field that reads all of them. -/
def looped : Form :=
  Edit.runAll [.addField "" "a" .array none, .addField "/a" "x" .field (some "ref /p"),
    .addField "" "p" .field (some "sum /a[-1].x")] (ofSettings {})

/-- No element can be added to it. -/
theorem traceless_push_to_looped : ∃ e g, pushElement "/a" looped = .error e g ∧ Traceless looped g ∧
    (∀ x ∈ looped.pending, x ∈ g.pending) ∧ ∀ x ∈ g.pending, x ∈ looped.pending ∨ (g.graph.formula? x).isSome := by
  have hfails : (failure? (pushElement "/a" looped)).isSome = true := by cbv
  obtain ⟨⟨e, g⟩, hrun⟩ := Option.isSome_iff_exists.1 hfails
  have hfailed := failure?_eq_some.1 hrun
  have hfaithful : Faithful looped := Tended.faithful (Reached.runAll (.created rfl) ⟨trivial, trivial, trivial, trivial⟩)
  exact ⟨e, g, hfailed, traceless_of_push_failed hfaithful hfailed⟩

end Elements

end Form

end LiveForm
