import LiveForm.Proofs.Document.Checking
import LiveForm.Proofs.Form.Composition
import LiveForm.Proofs.Form.Histories
import LiveForm.Proofs.Tree.Spelling

/-!
# The names in a form

A name gets into a form when a field is added or a document is loaded. Documents have plain names only. Whatever else is
done to a form, no name comes in from anywhere else, and the root never gets a key.
-/

set_option autoImplicit false

namespace LiveForm

variable {P : String → Prop}

/-- The names that an edit brings in are as they should be. -/
def Edit.Adds (P : String → Prop) : Edit → Prop
  | addField _ key _ _ => P key
  | _ => True

namespace Form

variable {α : Type} {f g : Form}

/-- All names in a form are as they should be. -/
structure Named (P : String → Prop) (f : Form) : Prop where
  drivable : Drivable f
  tree : f.tree.Spelled P

namespace Named

/-- Reports to the graph, and recomputations, bring in no names. -/
theorem of_steady {x : FormM α} (hx : ∀ t s, Preserves (Steady t s) x) : Preserves (Named P) x := by
  intro f h
  have hkept {g : Form} (hg : Steady f.tree.blank f.schedule g) : Named P g :=
    ⟨⟨hg.consistent, h.drivable.handled.of_blank hg.tree⟩, h.tree.of_blank hg.tree⟩
  exact (hx _ _ f (.start h.drivable.consistent)).mono (fun _ _ hg => hkept hg) fun _ _ hg => hkept hg

theorem withTree (h : Named P f) {t : FieldTree} (hhandled : t.Handled) (ht : t.Spelled P) : Named P (f.withTree t) :=
  ⟨⟨h.drivable.consistent.congr rfl rfl h.drivable.consistent.levels, hhandled⟩, ht⟩

theorem withSchedule (h : Named P f) (schedule : Schedule) : Named P (f.withSchedule schedule) :=
  ⟨⟨h.drivable.consistent.congr rfl rfl h.drivable.consistent.levels, h.drivable.handled⟩, h.tree⟩

theorem onTree {action : FieldTree → Except FormError (α × FieldTree)}
    (haction : ∀ t a t', t.Handled → t.Spelled P → action t = .ok (a, t') → t'.Handled ∧ t'.Spelled P) :
    Preserves (Named P) (FormM.onTree action) := by
  intro f h
  refine FormM.ends_onTree (fun a t ht => ?_) fun _ _ => h
  obtain ⟨hhandled, hspelled⟩ := haction _ _ _ h.drivable.handled h.tree ht
  exact h.withTree hhandled hspelled

theorem editTree {action : FieldTree → Except FormError FieldTree}
    (haction : ∀ t t', t.Handled → t.Spelled P → action t = .ok t' → t'.Handled ∧ t'.Spelled P) :
    Preserves (Named P) (FormM.editTree action) := by
  intro f h
  refine FormM.ends_editTree (fun t ht => ?_) fun _ _ => h
  obtain ⟨hhandled, hspelled⟩ := haction _ _ h.drivable.handled h.tree ht
  exact h.withTree hhandled hspelled

end Named

section Operations

/-- The data of a node is changed, but not its kind. -/
theorem Named.modified {t t' : FieldTree} {id : NodeId} {m : Node → Node} (hkind : ∀ n, (m n).kind = n.kind)
    (hhandled : t.Handled) (ht : t.Spelled P) (hrun : (do let _ ← t.require id; return t.modify id m) = .ok t') :
    t'.Handled ∧ t'.Spelled P := by
  unfold FieldTree.require at hrun
  cases hl : t.locate? id with
  | none => simp [hl, bind, Except.bind] at hrun
  | some l =>
    simp only [hl, bind, Except.bind, pure, Except.pure, Except.ok.injEq] at hrun
    subst hrun
    exact ⟨hhandled.modify, ht.modify hkind⟩

/-- A subtree is removed. -/
theorem Named.removed {t t' : FieldTree} {id : NodeId} {removed : List NodeId} (hhandled : t.Handled)
    (ht : t.Spelled P) (hremove : t.removeSubtree id = .ok (removed, t')) : t'.Handled ∧ t'.Spelled P := by
  refine ⟨hhandled.removeSubtree hremove, ?_⟩
  rw [FieldTree.removeSubtree_eq] at hremove
  split at hremove
  · cases hremove
  · split at hremove
    · obtain ⟨-, rfl⟩ := Prod.mk.inj (Except.ok.inj hremove)
      exact ht.without id
    · cases hremove

theorem Named.dropSubtree (id : NodeId) (h : Named P f) : Named P (f.dropSubtree id) := by
  unfold Form.dropSubtree
  split
  next removed t hremove =>
    obtain ⟨hhandled, hspelled⟩ := Named.removed h.drivable.handled h.tree hremove
    exact h.withTree hhandled hspelled
  next => exact h

/-- What is put together from changes that bring in names as they should be brings in no others. -/
theorem Named.of_composed {x : FormM α} (hx : Composed P x) : Preserves (Named P) x := by
  induction hx with
  | pure a => exact .pure a
  | throw e => exact fun _ h => h
  | bind _ _ ihx ihk => exact .bind ihx ihk
  | pick y _ hx ihy => exact fun f h => hx f ▸ ihy f f h
  | recovering _ _ ihx ihy => exact .recovering ihx ihy
  | inScope _ switch value ihx =>
    intro f h
    exact ends_inScope ((ihx _ (h.withSchedule _)).mono (fun _ _ hg => hg.withSchedule _) fun _ _ hg => hg.withSchedule _)
  | insert hkey =>
    exact onTree fun _ _ _ hhandled ht hinsert => ⟨hhandled.insertNode hinsert, ht.insertNode hhandled.nodup hkey hinsert⟩
  | insertTemplate =>
    exact onTree fun _ _ _ hhandled ht hinsert =>
      ⟨hhandled.insertTemplate hinsert, ht.insertTemplate hhandled.nodup hinsert⟩
  | copySubtree hkey =>
    exact onTree fun _ _ _ hhandled ht hcopy => ⟨hhandled.copySubtree hcopy, ht.copySubtree hhandled.nodup hkey hcopy⟩
  | removeSubtree => exact onTree fun _ _ _ hhandled ht hremove => Named.removed hhandled ht hremove
  | dropSubtree id => exact FormM.preserves_update fun _ h => h.dropSubtree id
  | setFormula id formula =>
    exact editTree fun _ _ hhandled ht hrun =>
      Named.modified (m := fun n => { n with formula }) (fun _ => rfl) hhandled ht hrun
  | setValue id value =>
    exact editTree fun _ _ hhandled ht hrun =>
      Named.modified (m := fun n => { n with value }) (fun _ => rfl) hhandled ht hrun
  | register node expression => exact of_steady fun _ _ => Steady.register node expression
  | unregister node => exact of_steady fun _ _ => Steady.unregister node
  | valueChanged node => exact of_steady fun _ _ => Steady.valueChanged node
  | recomputePending => exact of_steady fun _ _ => Steady.recomputePendingBy

mutual

/-- Definitions that have been checked have plain keys only. -/
theorem keysAll_of_checked (hplain : ∀ s, (Step.name s).Writable → P s) (defs : List FieldDef) {above : Path}
    {seen : List String} (hcheck : FieldDef.checkAll above seen defs = .ok ()) : FieldDef.KeysAll P defs := by
  match defs with
  | [] => trivial
  | d :: rest =>
    obtain ⟨-, hdeep, hrest⟩ := FieldDef.checkAll_cons hcheck
    exact ⟨keysDeep_of_checked hplain d hdeep, keysAll_of_checked hplain rest hrest⟩

theorem keysDeep_of_checked (hplain : ∀ s, (Step.name s).Writable → P s) (d : FieldDef) {above : Path}
    (hcheck : FieldDef.checkDeep above d = .ok ()) : FieldDef.KeysDeep P d := by
  match d with
  | ⟨key, value, formula, fields, template, items⟩ =>
    obtain ⟨hchecked, _, hfields, htemplate⟩ := FieldDef.checkDeep_ok hcheck
    refine FieldDef.keysDeep_iff.2 ⟨hplain key hchecked.key, keysAll_of_checked hplain fields hfields, ?_⟩
    match template with
    | none => simp
    | some template => simpa using keysAll_of_checked hplain template (htemplate _ rfl)

end

/-- Deriving the graph anew brings in no names. -/
theorem Named.rebuild : Preserves (Named P) rebuild := by
  intro f h
  have hkept {g : Form} (hg : Steady f.tree.blank f.schedule g) : Named P g :=
    ⟨⟨hg.consistent, h.drivable.handled.of_blank hg.tree⟩, h.tree.of_blank hg.tree⟩
  refine (h.drivable.consistent.rebuildGraph h.drivable.handled.nodup h.drivable.handled.root true).mono ?_ ?_
  · exact fun _ _ hg => hkept hg
  · exact fun _ _ hg => hkept hg

end Operations

section Histories

variable {document : Document} {s : Settings} {admits : Settings → Prop} {allows : Form → Edit → Prop}

theorem named_ofSettings (s : Settings) : Named P (ofSettings s) :=
  ⟨.ofSettings s, rfl, trivial⟩

/-- A document has plain names only. -/
theorem named_of_ofDocument (hplain : ∀ s, (Step.name s).Writable → P s) (hload : ofDocument document s = .ok f) :
    Named P f := by
  have hends : Ends (load document (ofSettings s)) (fun _ => Named P) (fun _ _ => True) := by
    unfold load
    cases hcheck : document.validate with
    | error => trivial
    | ok _ =>
      have hfields := Composed.loadAll rootId document.fields (keysAll_of_checked hplain document.fields hcheck)
      refine Ends.bind ((Named.of_composed (hfields.inScope _ _) _ (named_ofSettings s)).mono ?_ fun _ _ _ => trivial)
      intro _ g hg
      exact (Named.rebuild g hg).mono (fun _ _ hf => hf) fun _ _ _ => trivial
  exact hends.of_ok (load_of_ofDocument hload)

/-- An edit brings in no other names than the one that it adds. -/
theorem Named.edit (h : Named P f) (hintact : Intact f) {edit : Edit} (hadds : edit.Adds P) :
    Named P (after edit.run f) := by
  cases edit with
  | addField parent key kind formula =>
    exact (Named.of_composed (.discard (.addField parent key kind formula hadds)) f h).after
  | pushElement path =>
    exact (Named.of_composed (.discard (.pushElement path)) f h).after
  | removeElement path index =>
    have hends := hintact.remove path index
    have hkept {g : Form} (hg : Intact g) (ht : g.tree.Spelled P) : Named P g :=
      ⟨⟨hg.consistent, hg.tree.wellFormed.handled⟩, ht⟩
    refine (hends.mono ?_ ?_).after
    · rintro _ g ⟨hg, -, array, p, e, -, -, -, he, hblank⟩
      exact hkept hg ((h.tree.removedInPart hintact.tree he List.prefix_rfl).of_blank hblank)
    · rintro error g ⟨hg, -, hblank | ⟨-, array, e, -, he, done, hdone, hblank⟩⟩
      · exact hkept hg (h.tree.of_blank hblank)
      · exact hkept hg ((h.tree.removedInPart hintact.tree he hdone).of_blank hblank)
  | setValue path value => exact (Named.of_composed (.setValueByPath path value) f h).after
  | clearOverride path => exact (Named.of_composed (.setValueByPath path .void) f h).after
  | recomputePending => exact (Preserves.discard (of_steady fun _ _ => Steady.recomputePendingBy) f h).after
  | recomputeAll => exact (Preserves.discard (of_steady fun _ _ => Steady.recomputeAll) f h).after
  | rebuild => exact (Named.rebuild f h).after
  | openScope => exact h.withSchedule _
  | closeScope => exact h.withSchedule _

/-- In a form that has come about by edits, all names are plain but those that were added by the edits. -/
theorem Reached.named (h : Reached admits allows f) (hplain : ∀ s, (Step.name s).Writable → P s)
    (hadds : ∀ f edit, allows f edit → edit.Adds P) : Named P f := by
  induction h with
  | created => exact named_ofSettings _
  | loaded _ hload => exact named_of_ofDocument hplain hload
  | edited hbefore hedit ih => exact ih.edit hbefore.intact (hadds _ _ hedit)

end Histories

end Form

end LiveForm
