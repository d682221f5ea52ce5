import LiveForm.Proofs.Form.Correspondence
import LiveForm.Proofs.Form.Driving
import LiveForm.Proofs.Form.Extension
import LiveForm.Proofs.Form.Removal
import LiveForm.Proofs.Form.Shrinking

/-!
# Histories of forms

What can become of a form: it is created empty or loaded from a document, and then edited again and again, where each
edit may succeed or fail. Some things hold of all forms that come about like this. More holds if no removal of an element
was ever given up half-way and the graph was kept up to date all the time.
-/

set_option autoImplicit false

namespace LiveForm

/-- What a user can do to a form. -/
inductive Edit where
  | addField (parent key : String) (kind : Kind) (formula : Option String)
  | pushElement (path : String)
  | removeElement (path : String) (index : UInt64)
  | setValue (path : String) (value : Value)
  | clearOverride (path : String)
  | recomputePending
  | recomputeAll
  | rebuild
  | openScope (switch : Switch) (value : Bool)
  | closeScope (switch : Switch)

namespace Edit

def run : Edit → FormM Unit
  | addField parent key kind formula => discard (Form.addField parent key kind formula)
  | pushElement path => discard (Form.pushElement path)
  | removeElement path index => Form.removeElement path index
  | setValue path value => Form.setValue path value
  | clearOverride path => Form.clearOverride path
  | recomputePending => discard Form.recomputePending
  | recomputeAll => discard Form.recomputeAll
  | rebuild => Form.rebuild
  | openScope switch value => FormM.update fun f => { f with schedule := f.schedule.push switch value }
  | closeScope switch => FormM.update fun f => { f with schedule := f.schedule.pop switch }

/-- The form after some edits, each of which may succeed or fail. -/
def runAll (edits : List Edit) (f : Form) : Form :=
  edits.foldl (fun f edit => after edit.run f) f

/-- Each of some edits that are made one after the other is allowed when its turn comes. -/
def AllAllowed (allows : Form → Edit → Prop) : List Edit → Form → Prop
  | [], _ => True
  | edit :: rest, f => allows f edit ∧ AllAllowed allows rest (after edit.run f)

/-- An edit that succeeds leaves nothing pending. -/
def FollowsUp (f : Form) : Edit → Prop
  | recomputePending | recomputeAll | rebuild => True
  | openScope .. | closeScope _ => False
  | _ => f.isSet .recomputeEagerly = true

/-- An edit is not the removal of an element that is given up on account of a circle, nor does it touch the switch that
tells whether the graph is kept up to date. -/
def Orderly (f : Form) : Edit → Prop
  | removeElement path index => ∀ paths g, Form.removeElement path index f ≠ .error (.cycle paths) g
  | openScope switch _ => switch = .recomputeEagerly
  | closeScope switch => switch = .recomputeEagerly
  | _ => True

end Edit

namespace Form

/-- The forms that come about by creating or loading a form with admitted settings and by edits that are allowed for
the form at hand. -/
inductive Reached (admits : Settings → Prop) (allows : Form → Edit → Prop) : Form → Prop where
  | created {s : Settings} (hs : admits s) : Reached admits allows (ofSettings s)
  | loaded {document : Document} {s : Settings} {f : Form} (hs : admits s) (hload : ofDocument document s = .ok f) :
    Reached admits allows f
  | edited {f : Form} {edit : Edit} (h : Reached admits allows f) (hallows : allows f edit) :
    Reached admits allows (after edit.run f)

/-- A form that was created or loaded and then edited in any way. -/
abbrev Arisen : Form → Prop :=
  Reached (fun _ => True) fun _ _ => True

/-- A form whose graph has been kept up to date from the beginning, and all of whose edits were orderly. -/
abbrev Tended : Form → Prop :=
  Reached (fun s => s.updateGraph = true) Edit.Orderly

variable {f g : Form} {s : Settings} {document : Document} {admits : Settings → Prop} {allows : Form → Edit → Prop}

theorem Reached.mono {admits' : Settings → Prop} {allows' : Form → Edit → Prop} (h : Reached admits allows f)
    (hadmits : ∀ s, admits s → admits' s) (hallows : ∀ f edit, allows f edit → allows' f edit) :
    Reached admits' allows' f := by
  induction h with
  | created hs => exact .created (hadmits _ hs)
  | loaded hs hload => exact .loaded (hadmits _ hs) hload
  | edited _ hedit ih => exact ih.edited (hallows _ _ hedit)

theorem Reached.runAll {edits : List Edit} (h : Reached admits allows f) (hall : Edit.AllAllowed allows edits f) :
    Reached admits allows (Edit.runAll edits f) := by
  induction edits generalizing f with
  | nil => exact h
  | cons edit rest ih => exact ih (h.edited hall.1) hall.2

theorem orderly_of_succeeds {path : String} {index : UInt64} (h : succeeds (removeElement path index f) = true) :
    Edit.Orderly f (.removeElement path index) := by
  intro paths g hfailed
  rw [hfailed] at h
  cases h

section Starting

/-- There is nothing but the root. -/
theorem place?_ofSettings {x : NodeId} {q : Place} (hq : (ofSettings s).tree.place? x = some q) :
    q = { key := none, node := { kind := .group }, parent := none, path := .root, inTemplate := false } := by
  by_cases hx : x = rootId
  · subst hx
    exact (Option.some.inj hq).symm
  · rw [FieldTree.place?_of_ne_root _ hx] at hq
    cases hq

theorem Intact.ofSettings (s : Settings) : Intact (ofSettings s) where
  consistent := (Drivable.ofSettings s).consistent
  tree :=
    { wellFormed :=
        { nodup := .nil
          ne_root := fun x hx => absurd hx List.not_mem_nil
          lt_next := fun x hx => absurd hx List.not_mem_nil
          next_pos := Nat.succ_pos 0
          keys := trivial
          root_group := rfl
          root_live := rfl
          formulas := fun x q hq hformula => by
            obtain rfl := place?_ofSettings hq
            cases hformula }
      shaped := trivial }

/-- A form without fields is settled. -/
theorem settled_ofSettings (s : Settings) : Settled (ofSettings s) := by
  have hintact := Intact.ofSettings s
  have hbound (id : BindingId) : (ofSettings s).registry.bound? id = none := by
    simp [ofSettings, Registry.bound?, Registry.get?]
  have hformula (n : NodeId) : (ofSettings s).graph.formula? n = none := by
    simp [ofSettings, Graph.formula?, Graph.get?]
  exact hintact.consistent.upkept
    { tree := hintact.tree.wellFormed
      right := ⟨fun id d hd => by simp [hbound] at hd, fun id _ d _ hd => by simp [hbound] at hd⟩
      cached := fun id d m hd => by simp [hbound] at hd
      complete := fun id d m hd => by simp [hbound] at hd
      reads := fun n F hF => by simp [hformula] at hF
      registered := by
        rintro n e ⟨q, hq, -, he⟩
        obtain rfl := place?_ofSettings hq
        cases he }

/-- In a form without fields nothing is stale. -/
theorem covered_ofSettings (s : Settings) : Covered (ofSettings s) := by
  rintro n ⟨q, e, hq, -, he, -⟩
  obtain rfl := place?_ofSettings hq
  cases he

end Starting

section Loading

/-- Before the graph is derived, a form that is loaded has a tree and the schedule that it was given. -/
theorem ends_load (document : Document) (s : Settings) : Ends (load document (ofSettings s))
    (fun _ f => ∃ g, Evolved (ofSettings s) g ∧ Rebuilt g f ∧ Intact f) (fun _ _ => True) := by
  have hstart := Intact.ofSettings s
  unfold load
  cases document.validate with
  | error => trivial
  | ok =>
  refine Ends.bind ((hstart.inScope fun s' hs' => Gentle.loadAll rootId document.fields _ hs').mono ?_
    fun _ _ _ => trivial)
  rintro _ g hg
  have hintact := hg.intact hstart
  refine ((Gentle.rebuild g hintact).and (hintact.consistent.coherent.rebuild hintact.tree.wellFormed)).mono ?_
    fun _ _ _ => trivial
  rintro _ f ⟨hf, hrebuilt⟩
  exact ⟨g, hg, hrebuilt, hf.intact hintact⟩

theorem load_of_ofDocument (hload : ofDocument document s = .ok f) : load document (ofSettings s) = .ok () f := by
  unfold ofDocument at hload
  split at hload
  next hrun =>
    obtain rfl := Except.ok.inj hload
    exact hrun
  next => cases hload

/-- A form that has been loaded follows its tree, and nothing is pending. -/
theorem sound_of_ofDocument (hload : ofDocument document s = .ok f) (hs : s.updateGraph = true) :
    Sound f ∧ (∀ n, ¬ f.Stale n) ∧ f.pending = ∅ := by
  obtain ⟨g, hg, hrebuilt, hintact⟩ := (ends_load document s).of_ok (load_of_ofDocument hload)
  refine ⟨⟨hrebuilt.settled, hintact.tree.shaped, ?_⟩, hrebuilt.fresh, hrebuilt.pending⟩
  rw [isSet, hrebuilt.schedule, hg.schedule]
  exact hs

end Loading

section Editing

theorem Intact.gentle {α : Type} {x : FormM α} (h : Intact f) (hx : Gentle x) : Intact (after x f) :=
  ((hx f h).mono (fun _ _ hg => hg.intact h) fun _ _ hg => hg.intact h).after

/-- What holds of a form at any time is kept by every edit. -/
theorem Intact.edit (h : Intact f) (edit : Edit) : Intact (after edit.run f) := by
  cases edit with
  | addField parent key kind formula => exact h.gentle (Gentle.addField parent key kind formula).discard
  | pushElement path => exact h.gentle (Gentle.pushElement path).discard
  | removeElement path index => exact ((h.remove path index).mono (fun _ _ hg => hg.1) fun _ _ hg => hg.1).after
  | setValue path value => exact h.gentle (Gentle.setValue path value)
  | clearOverride path => exact h.gentle (Gentle.clearOverride path)
  | recomputePending => exact h.gentle Gentle.recomputePending.discard
  | recomputeAll => exact h.gentle Gentle.recomputeAll.discard
  | rebuild => exact h.gentle Gentle.rebuild
  | openScope => exact ⟨h.consistent.congr rfl rfl h.consistent.levels, h.tree⟩
  | closeScope => exact ⟨h.consistent.congr rfl rfl h.consistent.levels, h.tree⟩

theorem Reached.intact (h : Reached admits allows f) : Intact f := by
  induction h with
  | created => exact .ofSettings _
  | loaded _ hload =>
    obtain ⟨-, -, -, hintact⟩ := (ends_load _ _).of_ok (load_of_ofDocument hload)
    exact hintact
  | edited _ _ ih => exact ih.edit _

end Editing

section Tending

/-- A graph that is right is not emptied by deriving it anew. -/
theorem Sound.rebuild (h : Sound f) : ∃ g, Form.rebuild f = .ok () g ∧ Rebuilt f g := by
  have hrebuild := h.settled.coherent.rebuild h.settled.current.tree
  cases hrun : Form.rebuild f with
  | ok _ g => exact ⟨g, rfl, hrebuild.of_ok hrun⟩
  | error e g =>
    rcases (hrebuild.of_error hrun).reason with ⟨circle, hcircle, -⟩ | ⟨-, n, e, hat, hnot⟩
    · exact (FieldTree.not_acyclic_of_circular hcircle h.settled.tree_acyclic).elim
    · obtain ⟨F, hF⟩ := Option.isSome_iff_exists.1 (h.settled.current.registered n e hat not_false)
      obtain ⟨e', hat', hreads⟩ := h.settled.current.reads n F hF
      obtain ⟨q, hq, -, he⟩ := hat
      obtain ⟨q', hq', -, he'⟩ := hat'
      obtain rfl := Option.some.inj (hq.symm.trans hq')
      obtain rfl := Option.some.inj (he.symm.trans he')
      exact (hnot hreads.readable).elim

/-- Entering a value fails only if there is no field at the path. -/
theorem Sound.setValue (h : Sound f) (path : String) (value : Value) : Ends (Form.setValue path value f)
    (fun _ g => Continues f g ∧ (f.isSet .recomputeEagerly = true → g.pending = ∅))
    (fun _ g => g = f ∧ ∀ id, f.tree.Resolves path id → (f.tree.get? id).map (·.kind) ≠ some .field) := by
  refine Ends.bind ((ends_resolve path).mono ?_ ?_)
  · rintro id _ ⟨rfl, hres⟩
    refine (h.setValueAt value).mono (fun _ g hg => ⟨hg.1, hg.2.1⟩) ?_
    rintro _ g ⟨rfl, hkind⟩
    exact ⟨rfl, fun id' hres' => hres.unique hres' ▸ hkind⟩
  · rintro _ _ ⟨rfl, hnone, -⟩
    exact ⟨rfl, fun id hres => absurd hres (hnone id)⟩

/-- A form that is sound, and in which what is stale is going to be followed up. -/
structure KeptUp (f : Form) : Prop where
  sound : Sound f
  covered : Covered f

theorem KeptUp.continues (h : KeptUp f) (hcont : Continues f g) : KeptUp g :=
  ⟨hcont.sound, hcont.covered h.covered⟩

theorem KeptUp.of_fresh (h : Sound f) (hfresh : ∀ n, ¬ f.Stale n) : KeptUp f :=
  ⟨h, fun n hn => absurd hn (hfresh n)⟩

theorem KeptUp.schedule (h : KeptUp f) {schedule : Schedule} (hset : schedule.isSet .updateGraph = true) :
    KeptUp (f.withSchedule schedule) :=
  ⟨⟨h.sound.settled.withSchedule _, h.sound.shaped, hset⟩, h.covered⟩

/-- What an orderly edit comes to. -/
theorem KeptUp.edit (h : KeptUp f) {edit : Edit} (horderly : edit.Orderly f) : Ends (edit.run f)
    (fun _ g => KeptUp g ∧ (edit.FollowsUp f → g.pending = ∅)) (fun _ g => KeptUp g) := by
  have hsound := h.sound
  have hset : f.schedule.isSet .updateGraph = true := hsound.updating
  cases edit with
  | addField parent key kind formula =>
    refine Ends.bind (Ends.bind ((ends_resolve parent).mono ?_ ?_))
    · rintro id _ ⟨rfl, -⟩
      exact hsound.addNode.mono (fun _ g hg => ⟨h.continues hg.1, hg.2.1⟩) fun _ g hg => h.continues hg.1
    · rintro _ _ ⟨rfl, -⟩
      exact h
  | pushElement path =>
    refine Ends.bind (Ends.bind ((ends_resolve path).mono ?_ ?_))
    · rintro id _ ⟨rfl, -⟩
      exact hsound.pushElementAt.mono (fun _ g hg => ⟨h.continues hg.1, hg.2.1⟩) fun _ g hg => h.continues hg.1
    · rintro _ _ ⟨rfl, -⟩
      exact h
  | removeElement path index =>
    have hremove := hsound.removeElement path index
    cases hrun : Form.removeElement path index f with
    | ok _ g =>
      obtain ⟨hcont, hpending, -⟩ := hremove.of_ok hrun
      rw [Edit.run, hrun]
      exact ⟨h.continues hcont, hpending⟩
    | error e g =>
      obtain ⟨⟨paths, rfl⟩ | ⟨rfl, -⟩, -⟩ := hremove.of_error hrun
      · exact absurd hrun (horderly paths g)
      · rw [Edit.run, hrun]
        exact h
  | setValue path value =>
    refine (hsound.setValue path value).mono (fun _ g hg => ⟨h.continues hg.1, hg.2⟩) ?_
    rintro _ _ ⟨rfl, -⟩
    exact h
  | clearOverride path =>
    refine (hsound.setValue path .void).mono (fun _ g hg => ⟨h.continues hg.1, hg.2⟩) ?_
    rintro _ _ ⟨rfl, -⟩
    exact h
  | recomputePending =>
    obtain ⟨report, g, hrun, hr⟩ := hsound.recomputePending
    refine Ends.bind ?_
    rw [hrun]
    exact ⟨h.continues (hr.continues hsound), fun _ => hr.pending⟩
  | recomputeAll =>
    obtain ⟨report, g, hrun, hcont, hpending⟩ := hsound.recomputeAll
    refine Ends.bind ?_
    rw [hrun]
    exact ⟨h.continues hcont, fun _ => hpending⟩
  | rebuild =>
    obtain ⟨g, hrun, hr⟩ := hsound.rebuild
    rw [Edit.run, hrun]
    refine ⟨.of_fresh ⟨hr.settled, hr.shaped hsound.shaped, ?_⟩ hr.fresh, fun _ => hr.pending⟩
    exact updating_of_schedule hsound.updating hr.schedule
  | openScope switch value =>
    obtain rfl : switch = .recomputeEagerly := horderly
    exact ⟨h.schedule hset, False.elim⟩
  | closeScope switch =>
    obtain rfl : switch = .recomputeEagerly := horderly
    exact ⟨h.schedule hset, False.elim⟩

theorem Tended.keptUp (h : Tended f) : KeptUp f := by
  induction h with
  | @created s hs => exact ⟨⟨settled_ofSettings s, (Intact.ofSettings s).tree.shaped, hs⟩, covered_ofSettings s⟩
  | loaded hs hload =>
    obtain ⟨hsound, hfresh, -⟩ := sound_of_ofDocument hload hs
    exact .of_fresh hsound hfresh
  | edited _ horderly ih => exact ((ih.edit horderly).mono (fun _ _ hg => hg.1) fun _ _ hg => hg).after

end Tending

end Form

end LiveForm
