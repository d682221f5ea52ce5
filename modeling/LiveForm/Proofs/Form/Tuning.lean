import LiveForm.Proofs.Form.Histories
import LiveForm.Proofs.Form.Pairing
import Mathlib

/-!
# Settings that cannot be told from what a form yields

Whether a form recomputes at once, whether it goes on past a formula that has been overridden, and how it brings its caches
up to date is a matter of work only. Two forms with such settings that are made of the same document and edited in the same
way go in step: each edit comes to the same end in both, and once all has been followed up they are the same.
-/

set_option autoImplicit false

namespace LiveForm

namespace Edit

/-- How some edits end that are made one after the other: each of them with an error, or without one. -/
def errors : List Edit → Form → List (Option FormError)
  | [], _ => []
  | edit :: rest, f => (failure? (edit.run f)).map Prod.fst :: errors rest (after edit.run f)

end Edit

namespace Form

variable {s s' : Schedule} {f g : Form}

theorem Alike.same (h : Alike s s' f g) : Alike f.schedule g.schedule f g :=
  ⟨h.tree, h.registry, h.vertices, rfl, rfl⟩

section Deriving

/-- Deriving the graphs anew comes to the same end. -/
theorem Alike.rebuild (h : Alike s s' f g) (hf : Intact f) (hg : Intact g) :
    Both (Form.rebuild f) (Form.rebuild g) (fun _ => Alike s s') fun _ => Alike s s' := by
  have hderive {k : Form} (hk : Intact k) :
      Ends (Form.derive k.clear) (fun _ k' => Recomputable k') fun _ _ => True := by
    obtain ⟨hfresh, hempty⟩ := hk.consistent.coherent.clear
    exact (derive_spec (f := k.clear) hfresh hempty rfl hk.tree.wellFormed.keyed).mono
      (fun _ _ hk' => hk'.1.recomputable) fun _ _ _ => trivial
  have hclear : Alike.Leveled s s' f.clear g.clear := ⟨h.clear, rfl⟩
  have hboth := (Alike.derive _ _ hclear).and_ends (hderive hf) (hderive hg)
  unfold Form.rebuild Form.rebuildGraph
  refine Both.bind (show Both (FormM.update Form.clear f) (FormM.update Form.clear g) _ _ from ⟨rfl, ?_⟩)
  refine Both.bind (FormM.both_orUndo (hboth.mono ?_ fun _ _ _ h' => h'.1.1.clear))
  rintro _ f' g' ⟨⟨h', -⟩, hf', hg'⟩
  obtain ⟨f'', hrun, hlike⟩ := hf'.discard
  obtain ⟨g'', hrun', hlike'⟩ := hg'.discard
  rw [if_pos rfl, hrun, hrun']
  exact ⟨rfl, h'.replace hlike hlike'⟩

end Deriving

section Loading

/-- Two forms are alike while a document is loaded into them. -/
def Filling (s s' : Schedule) (f g : Form) : Prop :=
  Paired s s' f g ∧ Intact f ∧ Intact g

variable (hs : s.isSet .updateGraph = false) (hs' : s'.isSet .updateGraph = false)

namespace Filling

theorem lockstep_of_gentle {α : Type} {x : FormM α} (hx : Gentle x)
    (h : ∀ f g, Filling s s' f g → Both (x f) (x g) (fun _ => Paired s s') fun _ => Paired s s') :
    Lockstep (Filling s s') x := by
  intro f g hfg
  have ⟨_, hf, hg⟩ := hfg
  refine ((h f g hfg).and_ends (hx f hf) (hx g hg)).mono ?_ ?_
  · exact fun _ _ _ ⟨h', hf', hg'⟩ => ⟨h', hf'.intact hf, hg'.intact hg⟩
  · exact fun _ _ _ ⟨h', hf', hg'⟩ => ⟨h', hf'.intact hf, hg'.intact hg⟩

theorem templateOf (array : NodeId) : Lockstep (Filling s s') (Form.templateOf array) :=
  lockstep_of_gentle (Gentle.templateOf array) fun f g h => Paired.templateOf array f g h.1

include hs in
/-- As the graphs are not kept up to date there is nothing that they would have to follow. -/
theorem ready_left (h : Filling s s' f g) : Ready f :=
  ⟨h.2.1.tree.wellFormed, fun hon => by rw [isSet, h.1.left, hs] at hon; cases hon⟩

include hs' in
theorem ready_right (h : Filling s s' f g) : Ready g :=
  ⟨h.2.2.tree.wellFormed, fun hon => by rw [isSet, h.1.right, hs'] at hon; cases hon⟩

section Steps

include hs hs'

theorem addNode (parent : NodeId) (name : String) (kind : Kind) (formula : Option String) :
    Lockstep (Filling s s') (Form.addNode parent (.name name) kind formula) :=
  lockstep_of_gentle (Gentle.addNode parent name kind formula) fun _ _ h =>
    h.1.addNode (hs'.trans hs.symm) (h.ready_left hs) (h.ready_right hs')

theorem setValueAt (id : NodeId) (value : Value) : Lockstep (Filling s s') (Form.setValueAt id value) :=
  lockstep_of_gentle (Gentle.setValueAt id value) fun _ _ h =>
    h.1.setValueAt (hs'.trans hs.symm) (h.ready_left hs) (h.ready_right hs')

theorem pushElementAt (array : NodeId) : Lockstep (Filling s s') (Form.pushElementAt array) :=
  lockstep_of_gentle (Gentle.pushElementAt array) fun _ _ h =>
    h.1.pushElementAt (hs'.trans hs.symm) (h.ready_left hs) (h.ready_right hs')

theorem loadEntry (element : NodeId) (key : String) (value : Value) :
    Lockstep (Filling s s') (Form.loadEntry element key value) := by
  intro f g h
  refine Both.get ?_
  cases Path.parse key with
  | error fault => exact ⟨rfl, h⟩
  | ok relative =>
    dsimp only
    rw [h.1.path, h.1.query (·.find? _) (·.find?_unevaluated _)]
    cases f.tree.find? ⟨(f.tree.path element).steps ++ relative.steps⟩ with
    | none => exact ⟨rfl, h⟩
    | some target => exact setValueAt hs hs' target value f g h

theorem loadItem (array : NodeId) (item : Item) : Lockstep (Filling s s') (Form.loadItem array item) :=
  (pushElementAt hs hs' array).bind fun element => Lockstep.forM (fun _ => loadEntry hs hs' element _ _) _

end Steps

mutual

/-- Definitions are loaded in the same way. -/
theorem loadAll (hs : s.isSet .updateGraph = false) (hs' : s'.isSet .updateGraph = false) (parent : NodeId)
    (defs : List FieldDef) : Lockstep (Filling s s') (Form.loadAll parent defs) := by
  match defs with
  | [] =>
    rw [Form.loadAll]
    exact Lockstep.pure _
  | d :: rest =>
    rw [Form.loadAll]
    exact (loadDef hs hs' parent d).bind fun _ => loadAll hs hs' parent rest

theorem loadDef (hs : s.isSet .updateGraph = false) (hs' : s'.isSet .updateGraph = false) (parent : NodeId)
    (d : FieldDef) : Lockstep (Filling s s') (Form.loadDef parent d) := by
  match d with
  | ⟨key, value, formula, fields, template, items⟩ =>
    rw [Form.loadDef]
    refine (addNode hs hs' _ _ _ _).bind fun id => Lockstep.bind ?_ fun _ => (loadAll hs hs' id fields).bind fun _ => ?_
    · cases value with
      | none => exact Lockstep.pure _
      | some value => exact setValueAt hs hs' id value
    · cases template with
      | none => exact Lockstep.pure _
      | some template =>
        exact (templateOf id).bind fun _ => (loadAll hs hs' _ template).bind fun _ =>
          Lockstep.forM (fun item => loadItem hs hs' id item) _

end

end Filling

/-- A document is loaded in the same way, whatever the settings. -/
theorem both_load (document : Document) (a b : Settings) : Both (load document (ofSettings a)) (load document (ofSettings b))
    (fun _ f g => Alike f.schedule g.schedule f g) fun _ _ _ => True := by
  have hintact (c : Settings) (schedule : Schedule) : Intact ((ofSettings c).withSchedule schedule) :=
    have h := Intact.ofSettings c
    ⟨h.consistent.congr rfl rfl h.consistent.levels, h.tree⟩
  have hstart : Filling ((ofSettings a).schedule.push .updateGraph false) ((ofSettings b).schedule.push .updateGraph false)
      ((ofSettings a).withSchedule ((ofSettings a).schedule.push .updateGraph false))
      ((ofSettings b).withSchedule ((ofSettings b).schedule.push .updateGraph false)) :=
    ⟨⟨⟨rfl, rfl, rfl, rfl, rfl⟩, fun _ => rfl⟩, hintact a _, hintact b _⟩
  unfold load
  cases document.validate with
  | error fault => exact ⟨rfl, trivial⟩
  | ok =>
    refine Both.bind (both_inScope ((Filling.loadAll rfl rfl rootId document.fields _ _ hstart).mono ?_
      fun _ _ _ _ => trivial))
    rintro _ f g ⟨h, hf, hg⟩
    have hclosed : Alike (f.schedule.pop .updateGraph) (g.schedule.pop .updateGraph)
        { f with schedule := f.schedule.pop .updateGraph } { g with schedule := g.schedule.pop .updateGraph } :=
      ⟨h.tree, h.registry, h.vertices, rfl, rfl⟩
    exact (hclosed.rebuild ⟨hf.consistent.congr rfl rfl hf.consistent.levels, hf.tree⟩
      ⟨hg.consistent.congr rfl rfl hg.consistent.levels, hg.tree⟩).mono (fun _ _ _ h' => h'.same) fun _ _ _ _ => trivial

/-- A form is made of a document, or without fields. -/
def opened (document : Option Document) (settings : Settings) : Except FormError Form :=
  match document with
  | none => .ok (ofSettings settings)
  | some document => ofDocument document settings

variable {document : Option Document} {a b : Settings}

theorem keptUp_of_opened (ha : a.updateGraph = true) (h : opened document a = .ok f) : KeptUp f := by
  refine Tended.keptUp ?_
  cases document with
  | none =>
    obtain rfl := Except.ok.inj h
    exact .created ha
  | some document => exact .loaded ha h

/-- Forms that are made of the same document are alike. -/
theorem alike_of_opened (document : Option Document) (a b : Settings) :
    (∃ e, opened document a = .error e ∧ opened document b = .error e) ∨
      ∃ f g, opened document a = .ok f ∧ opened document b = .ok g ∧ Alike f.schedule g.schedule f g := by
  cases document with
  | none => exact .inr ⟨_, _, rfl, rfl, rfl, rfl, rfl, rfl, rfl⟩
  | some document =>
    have hload := both_load document a b
    unfold opened ofDocument
    dsimp only
    cases hf : load document (ofSettings a) <;> cases hg : load document (ofSettings b) <;> rw [hf, hg] at hload
    case ok.ok => exact .inr ⟨_, _, rfl, rfl, hload.2⟩
    case error.error e _ e' _ =>
      obtain ⟨rfl, -⟩ := hload
      exact .inl ⟨_, rfl, rfl⟩
    all_goals exact hload.elim

end Loading

section Editing

/-- What is pending is followed up in both forms. -/
theorem Alike.recompute (h : Alike s s' f g) (hf : Settled f) (hg : Settled g) :
    Both ((discard recomputePending : FormM Unit) f) ((discard recomputePending : FormM Unit) g) (fun _ => Alike s s')
      fun _ => Alike s s' := by
  obtain ⟨f', hrun, hlike⟩ := hf.tracking.recomputable.discard
  obtain ⟨g', hrun', hlike'⟩ := hg.tracking.recomputable.discard
  rw [hrun, hrun']
  exact ⟨rfl, h.replace hlike hlike'⟩

/-- An orderly edit comes to the same end in two forms that are alike. -/
theorem Alike.edit (h : Alike f.schedule g.schedule f g) (hf : KeptUp f) (hg : KeptUp g) {edit : Edit}
    (horderly : edit.Orderly f) : Both (edit.run f) (edit.run g) (fun _ f' g' => Alike f'.schedule g'.schedule f' g')
      fun _ f' g' => Alike f'.schedule g'.schedule f' g' := by
  have hon : f.schedule.isSet .updateGraph = true := hf.sound.updating
  have hon' : g.schedule.isSet .updateGraph = true := hg.sound.updating
  have hpaired : Paired f.schedule g.schedule f g := ⟨h, fun hoff => by rw [hon] at hoff; cases hoff⟩
  have hsame : g.schedule.isSet .updateGraph = f.schedule.isSet .updateGraph := hon'.trans hon.symm
  have hready := hf.sound.ready
  have hready' := hg.sound.ready
  have hclose {α : Type} {r r' : EStateM.Result FormError Form α}
      (hr : Both r r' (fun _ => Paired f.schedule g.schedule) fun _ => Paired f.schedule g.schedule) :
      Both r r' (fun _ f' g' => Alike f'.schedule g'.schedule f' g') fun _ f' g' => Alike f'.schedule g'.schedule f' g' :=
    hr.mono (fun _ _ _ h' => h'.same) fun _ _ _ h' => h'.same
  have hdrop {α : Type} {x : FormM α}
      (hx : Both (x f) (x g) (fun _ => Paired f.schedule g.schedule) fun _ => Paired f.schedule g.schedule) :
      Both ((discard x : FormM Unit) f) ((discard x : FormM Unit) g)
        (fun _ f' g' => Alike f'.schedule g'.schedule f' g') fun _ f' g' => Alike f'.schedule g'.schedule f' g' :=
    Both.bind ((hclose hx).mono (fun _ _ _ h' => ⟨rfl, h'⟩) fun _ _ _ h' => h')
  cases edit with
  | addField parent key kind formula => exact hdrop (hpaired.addField hsame hready hready' parent key)
  | pushElement path => exact hdrop (hpaired.pushElement hsame hready hready' path)
  | removeElement path index => exact hclose (hpaired.removeElement hsame hready hready' path index)
  | setValue path value => exact hclose (hpaired.setValue hsame hready hready' path value)
  | clearOverride path => exact hclose (hpaired.setValue hsame hready hready' path .void)
  | recomputePending =>
    exact (h.recompute hf.sound.settled hg.sound.settled).mono (fun _ _ _ h' => h'.same) fun _ _ _ h' => h'.same
  | recomputeAll =>
    have hmarked {k : Form} (hk : KeptUp k) : Settled (k.addPending k.graph.formulaNodes) :=
      hk.sound.settled.congr rfl rfl rfl hk.sound.settled.levels
    exact ((h.addPending _ _).recompute (hmarked hf) (hmarked hg)).mono (fun _ _ _ h' => h'.same) fun _ _ _ h' => h'.same
  | rebuild =>
    have hintact {k : Form} (hk : KeptUp k) : Intact k :=
      ⟨hk.sound.settled.consistent, hk.sound.settled.current.tree, hk.sound.shaped⟩
    exact (h.rebuild (hintact hf) (hintact hg)).mono (fun _ _ _ h' => h'.same) fun _ _ _ h' => h'.same
  | openScope switch value => exact ⟨rfl, h.tree, h.registry, h.vertices, rfl, rfl⟩
  | closeScope switch => exact ⟨rfl, h.tree, h.registry, h.vertices, rfl, rfl⟩

/-- If a removal is given up on account of a circle in one of the forms, so it is in the other one. -/
theorem Alike.orderly (h : Alike f.schedule g.schedule f g) (hf : KeptUp f) (hg : KeptUp g) {edit : Edit}
    (horderly : edit.Orderly f) : edit.Orderly g := by
  cases edit with
  | removeElement path index =>
    intro paths g' hrun'
    have hboth := h.edit hf hg horderly
    rw [Edit.run, hrun'] at hboth
    cases hrun : Form.removeElement path index f with
    | ok => simp [hrun, Both] at hboth
    | error e f' =>
      rw [hrun] at hboth
      obtain ⟨rfl, -⟩ := hboth
      exact horderly paths f' hrun
  | _ => exact horderly

/-- Forms that are alike go in step, and stay alike. -/
theorem Alike.runAll (h : Alike f.schedule g.schedule f g) (hf : KeptUp f) (hg : KeptUp g) {edits : List Edit}
    (horderly : Edit.AllAllowed Edit.Orderly edits f) : Edit.errors edits g = Edit.errors edits f ∧
      KeptUp (Edit.runAll edits f) ∧ KeptUp (Edit.runAll edits g) ∧
      Alike (Edit.runAll edits f).schedule (Edit.runAll edits g).schedule (Edit.runAll edits f) (Edit.runAll edits g) := by
  induction edits generalizing f g with
  | nil => exact ⟨rfl, hf, hg, h⟩
  | cons edit rest ih =>
    have hkept {k : Form} (hk : KeptUp k) (ho : edit.Orderly k) : KeptUp (after edit.run k) :=
      ((hk.edit ho).mono (fun _ _ hk' => hk'.1) fun _ _ hk' => hk').after
    have hboth := h.edit hf hg horderly.1
    obtain ⟨herrors, hrest⟩ := ih hboth.after (hkept hf horderly.1) (hkept hg (h.orderly hf hg horderly.1)) horderly.2
    refine ⟨?_, hrest⟩
    rw [Edit.errors, Edit.errors, herrors, hboth.failure?_eq]

end Editing

section Yielding

/-- If nothing is stale, forms that are alike have the same tree: by the level of its formula, each field has the same
value. -/
theorem Alike.tree_eq (h : Alike s s' f g) (hf : Settled f) (hg : Settled g) (hfresh : ∀ n, ¬ f.Stale n)
    (hfresh' : ∀ n, ¬ g.Stale n) : g.tree = f.tree := by
  have hkeyed := hf.current.tree.keyed
  have hblank : g.tree.blank = f.tree.blank := FieldTree.blank_of_unevaluated h.tree
  have hvalue {k : Form} (hk : Settled k) (hnone : ∀ n, ¬ k.Stale n) {n : NodeId} {F : Formula}
      (hF : k.graph.formula? n = some F) : k.tree.formulaValue? n = F.evaluateCached k.registry k.tree := by
    obtain ⟨p, hp, -⟩ := hk.current.place?_of_formula? hF
    rw [FieldTree.formulaValue?_of_place? hp]
    by_contra hne
    exact hnone n (hk.stale_iff.2 ⟨F, p, hF, hp, hne⟩)
  refine hf.consistent.tree_eq hkeyed.nodup (fun hmem => hkeyed.ne_root _ hmem rfl) hblank fun n => ?_
  cases hF : f.graph.formula? n with
  | some F =>
    exact .inr ⟨F, rfl, hvalue hf hfresh hF, h.registry ▸ hvalue hg hfresh' ((h.formula? n).trans hF)⟩
  | none =>
    refine .inl (FieldTree.formulaValue?_congr ?_)
    have hplace : (g.tree.place? n).map Place.unevaluated = (f.tree.place? n).map Place.unevaluated := by
      rw [← FieldTree.place?_unevaluated, h.tree, FieldTree.place?_unevaluated]
    have hoff (p : Place) (hp : f.tree.place? n = some p) : p.inTemplate = true ∨ p.node.formula = none := by
      by_contra hon
      rw [not_or, Bool.not_eq_true] at hon
      obtain ⟨e, he⟩ := Option.ne_none_iff_exists'.1 hon.2
      simpa [hF] using hf.current.registered n e ⟨p, hp, hon.1, he⟩ not_false
    cases hp : f.tree.place? n <;> cases hp' : g.tree.place? n <;> rw [hp, hp'] at hplace
    case some.some p p' =>
      have heq : p'.unevaluated = p.unevaluated := Option.some.inj hplace
      have hin : p'.inTemplate = p.inTemplate := congrArg (·.inTemplate) heq
      have hformula : p'.node.formula = p.node.formula := by
        simpa [Place.unevaluated] using congrArg (·.node.formula) heq
      rw [Place.unevaluated_of_off (hoff p hp), Place.unevaluated_of_off (hin ▸ hformula ▸ hoff p hp)] at heq
      rw [heq]
    all_goals simp at hplace ⊢

/-- What a form yields is not a matter of how it works. Forms that are made of the same document, or without fields, and
keep their graphs up to date go in step: if the edits are orderly each one ends with the same error in both of them, or
without one. Once what is pending has been followed up, the trees are the same with all values, and so are the bindings
with their caches, and the links. -/
theorem same_yield (document : Option Document) (a b : Settings) (ha : a.updateGraph = true) (hb : b.updateGraph = true) :
    (∃ e, opened document a = .error e ∧ opened document b = .error e) ∨
      ∃ f g, opened document a = .ok f ∧ opened document b = .ok g ∧
        ∀ edits, Edit.AllAllowed Edit.Orderly edits f → Edit.errors edits g = Edit.errors edits f ∧
          ∃ report report' f' g', recomputePending (Edit.runAll edits f) = .ok report f' ∧
            recomputePending (Edit.runAll edits g) = .ok report' g' ∧
            g'.tree = f'.tree ∧ g'.registry = f'.registry ∧ g'.graph.vertices = f'.graph.vertices := by
  rcases alike_of_opened document a b with hfailed | ⟨f, g, hf, hg, halike⟩
  · exact .inl hfailed
  refine .inr ⟨f, g, hf, hg, fun edits horderly => ?_⟩
  obtain ⟨herrors, hkept, hkept', hlike⟩ :=
    halike.runAll (keptUp_of_opened ha hf) (keptUp_of_opened hb hg) horderly
  obtain ⟨report, f', hrun, hr⟩ := hkept.sound.recomputePending
  obtain ⟨report', g', hrun', hr'⟩ := hkept'.sound.recomputePending
  have hboth := hlike.recompute hkept.sound.settled hkept'.sound.settled
  have hdone : (discard recomputePending : FormM Unit) (Edit.runAll edits f) = .ok () f' := bind_of_ok hrun
  have hdone' : (discard recomputePending : FormM Unit) (Edit.runAll edits g) = .ok () g' := bind_of_ok hrun'
  rw [hdone, hdone'] at hboth
  refine ⟨herrors, report, report', f', g', hrun, hrun', ?_, hboth.2.registry, hboth.2.vertices⟩
  exact hboth.2.tree_eq hr.settled hr'.settled (hr.fresh hkept.covered) (hr'.fresh hkept'.covered)

/-- A formula is overridden while what it reads changes. A form that recomputes at once and one that does not differ until
all has been followed up. -/
theorem yield_of_override :
    let edits : List Edit := [.addField "" "l" .array none, .pushElement "/l", .removeElement "/l" 0,
      .addField "" "a" .field none, .addField "" "b" .field (some "ref /a"), .addField "" "c" .field (some "ref /b"),
      .setValue "/b" (.int 5), .setValue "/a" (.int 3), .clearOverride "/b"]
    let b : Settings := { recomputeEagerly := false, stopAtOverride := false, cacheRefresh := .fromScratch }
    ∃ f g, opened none {} = .ok f ∧ opened none b = .ok g ∧ (Edit.runAll edits f).tree ≠ (Edit.runAll edits g).tree ∧
      Edit.errors edits g = Edit.errors edits f ∧
      ∃ report report' f' g', recomputePending (Edit.runAll edits f) = .ok report f' ∧
        recomputePending (Edit.runAll edits g) = .ok report' g' ∧ g'.tree = f'.tree := by
  have hremoval : succeeds (Form.removeElement "/l" 0 (Edit.runAll [.addField "" "l" .array none, .pushElement "/l"]
      (ofSettings {}))) = true := by cbv
  have hvalue : (Edit.runAll [.addField "" "l" .array none, .pushElement "/l", .removeElement "/l" 0,
      .addField "" "a" .field none, .addField "" "b" .field (some "ref /a"), .addField "" "c" .field (some "ref /b"),
      .setValue "/b" (.int 5), .setValue "/a" (.int 3), .clearOverride "/b"] (ofSettings {})).tree.formulaValue? 6 =
        some (.int 3) := by cbv
  have hvalue' : (Edit.runAll [.addField "" "l" .array none, .pushElement "/l", .removeElement "/l" 0,
      .addField "" "a" .field none, .addField "" "b" .field (some "ref /a"), .addField "" "c" .field (some "ref /b"),
      .setValue "/b" (.int 5), .setValue "/a" (.int 3), .clearOverride "/b"] (ofSettings
        { recomputeEagerly := false, stopAtOverride := false, cacheRefresh := .fromScratch })).tree.formulaValue? 6 =
          none := by cbv
  intro edits b
  rcases same_yield none {} b rfl rfl with ⟨e, he, -⟩ | ⟨f, g, hf, hg, hsame⟩
  · cases he
  obtain rfl : ofSettings {} = f := Except.ok.inj hf
  obtain rfl : ofSettings b = g := Except.ok.inj hg
  obtain ⟨herrors, report, report', f', g', hrun, hrun', htree, -⟩ := hsame edits
    ⟨trivial, trivial, orderly_of_succeeds hremoval, trivial, trivial, trivial, trivial, trivial, trivial, trivial⟩
  refine ⟨_, _, rfl, rfl, fun heq => ?_, herrors, report, report', f', g', hrun, hrun', htree⟩
  simpa using hvalue.symm.trans ((congrArg (·.formulaValue? 6) heq).trans hvalue')

end Yielding

end Form

end LiveForm
