import Mathlib
import LiveForm.Proofs.Form.Histories

/-!
# Forms that are kept up to date

As long as the graph of a form is kept up to date and no removal of an element is given up, two things hold whatever is
done to the form. The graph is the one that would be derived from the tree. And no value of a formula is out of date
without the next recomputation seeing to it.
-/

set_option autoImplicit false

namespace LiveForm.Form

variable {f g : Form}

/-- What can be relied on for the values of formulas. -/
structure FollowedUp (f : Form) : Prop where
  /-- A formula whose value is out of date is among those that are evaluated next. -/
  due : ∀ n, f.Stale n → ∃ report g, recomputePending f = .ok report g ∧ n ∈ report.evaluated
  /-- If nothing is pending, all values are up to date. -/
  fresh : f.pending = ∅ → ∀ n, ¬ f.Stale n
  loaded : ∀ document s, ofDocument document s = .ok f → s.updateGraph = true → f.pending = ∅
  edited : ∀ (edit : Edit) (g : Form), edit.run f = .ok () g → edit.FollowsUp f → g.pending = ∅
  setValue : ∀ path id value, f.tree.Resolves path id → (f.tree.get? id).map (·.kind) = some .field →
    ∃ g, setValue path value f = .ok () g
  clearOverride : ∀ path id, f.tree.Resolves path id → (f.tree.get? id).map (·.kind) = some .field →
    ∃ g, clearOverride path f = .ok () g
  recomputePending : ∃ report g, recomputePending f = .ok report g
  recomputeAll : ∃ report g, recomputeAll f = .ok report g

/-- Whatever has been done to a form, a value of a formula is only out of date if the next recomputation evaluates the
formula, and such a recomputation does not fail. -/
theorem followedUp_of_tended (h : Tended f) : FollowedUp f := by
  have hkept := h.keptUp
  have hsound := hkept.sound
  obtain ⟨report, g, hrun, hr⟩ := hsound.recomputePending
  have hset (path : String) (id : NodeId) (value : Value) (hres : f.tree.Resolves path id)
      (hfield : (f.tree.get? id).map (·.kind) = some .field) : ∃ g, Form.setValue path value f = .ok () g := by
    have hends := hsound.setValue path value
    cases hvalue : Form.setValue path value f with
    | ok _ g => exact ⟨g, rfl⟩
    | error e g => exact absurd hfield ((hends.of_error hvalue).2 id hres)
  exact
    { due := fun n hn => ⟨report, g, hrun, hr.evaluated hkept.covered n hn⟩
      fresh := fun hempty n hn => by
        rcases hkept.covered n hn with hmem | ⟨m, hmem, -⟩ <;> simp [hempty] at hmem
      loaded := fun document s hload hs => (sound_of_ofDocument hload hs).2.2
      edited := fun edit g hedit hfollows => by
        have horderly : edit.Orderly f := by
          cases edit with
          | removeElement path index =>
            intro paths g' hfailed
            rw [Edit.run, hfailed] at hedit
            cases hedit
          | openScope => exact hfollows.elim
          | closeScope => exact hfollows.elim
          | _ => trivial
        exact ((hkept.edit horderly).of_ok hedit).2 hfollows
      setValue := hset
      clearOverride := fun path id => hset path id .void
      recomputePending := ⟨report, g, hrun⟩
      recomputeAll := (hsound.recomputeAll).imp fun _ => .imp fun _ => And.left }

/-- In a form that does not recompute by itself, the formula of a field follows a value that is entered for another one
only with the next recomputation. -/
theorem followedUp_after_setValue :
    let f := Edit.runAll [.addField "" "a" .field none, .addField "" "b" .field (some "ref /a"), .setValue "/a" (.int 3)]
      (ofSettings { recomputeEagerly := false })
    f.Stale 2 ∧ ∃ report g, recomputePending f = .ok report g ∧ 2 ∈ report.evaluated := by
  have hplace : (Edit.runAll [.addField "" "a" .field none, .addField "" "b" .field (some "ref /a"),
      .setValue "/a" (.int 3)] (ofSettings { recomputeEagerly := false })).tree.place? 2 = some
        { key := some (.name "b"), node := { kind := .field, formula := some "ref /a" }, parent := some 0
          path := ⟨[.name "b"]⟩, inTemplate := false } := by cbv
  have hvalue : freshValue? (Edit.runAll [.addField "" "a" .field none, .addField "" "b" .field (some "ref /a"),
      .setValue "/a" (.int 3)] (ofSettings { recomputeEagerly := false })).tree 2 "ref /a" = some (.int 3) := by cbv
  intro f
  have htended : Tended f := Reached.runAll (.created rfl) ⟨trivial, trivial, trivial, trivial⟩
  have hstale : f.Stale 2 := ⟨_, "ref /a", hplace, rfl, rfl, by rw [hvalue]; simp⟩
  exact ⟨hstale, (followedUp_of_tended htended).due 2 hstale⟩

/-- The graph of a form, its bindings and what is shown of them are those of another form. -/
structure Mirrors (f g : Form) : Prop where
  tree : g.tree.blank = f.tree.blank
  dependencies : SameDependencies f g
  basePath : ∀ id b, f.registry.get? id = some b → b.basePath = f.tree.path b.base
  unique : ∀ id id' b b', f.registry.get? id = some b → f.registry.get? id' = some b' →
    b.selector.source = b'.selector.source → b.basePath = b'.basePath → id = id'
  nodes : g.graph.nodes = f.graph.nodes
  predecessors : ∀ n, g.graph.predecessors n = f.graph.predecessors n
  edgeCount : g.graph.edgeCount = f.graph.edgeCount
  levels : ∃ listing f' g', leveledNodes f = .ok listing f' ∧ leveledNodes g = .ok listing g'
  text : ∃ text f' g', graphText f = .ok text f' ∧ graphText g = .ok text g'

/-- A sound form mirrors the one that is made by deriving its graph anew. -/
theorem Sound.mirrors (h : Sound f) (hg : Rebuilt f g) : Mirrors f g := by
  have hsame := h.settled.sameDependencies hg.settled (FieldTree.sameOutlines_of_blank hg.blank)
  obtain ⟨ρ, hρ⟩ := hsame
  obtain ⟨hlevels, htext⟩ := hρ.listings h.settled.consistent hg.settled.consistent hg.blank
  have hbound {id : BindingId} {b : Binding} (hb : f.registry.get? id = some b) :
      f.registry.bound? id = some b.bound := by rw [Registry.bound?, hb, Option.map_some]
  exact
    { tree := hg.blank
      dependencies := ⟨ρ, hρ⟩
      basePath := fun id b hb => by
        obtain ⟨p, hp, -, hpath⟩ := (h.settled.current.right.bound id _ (hbound hb)).placed
        exact hpath.trans (FieldTree.path_of_place? hp).symm
      unique := fun id id' b b' hb hb' => h.settled.current.right.key id id' _ _ (hbound hb) (hbound hb')
      nodes := hρ.nodes
      predecessors := hρ.predecessors
      edgeCount := hρ.edgeCount
      levels := hlevels
      text := htext }

/-- Whatever has been done to a form, its graph can be derived anew, and is the same then, but for the handles of
bindings. -/
theorem mirrors_of_tended (h : Tended f) : ∃ g, rebuild f = .ok () g ∧ Mirrors f g := by
  obtain ⟨g, hrun, hg⟩ := h.keptUp.sound.rebuild
  exact ⟨g, hrun, h.keptUp.sound.mirrors hg⟩

/-- An element of an array is removed whose elements are summed up. -/
theorem mirrors_after_removal :
    let f := Edit.runAll [.addField "" "a" .array none, .pushElement "/a", .pushElement "/a",
      .addField "/a" "x" .field none, .addField "" "s" .field (some "sum /a[-1].x"), .removeElement "/a" 0] (ofSettings {})
    ∃ g, rebuild f = .ok () g ∧ Mirrors f g := by
  have hremoval : succeeds (removeElement "/a" 0 (Edit.runAll [.addField "" "a" .array none, .pushElement "/a",
      .pushElement "/a", .addField "/a" "x" .field none, .addField "" "s" .field (some "sum /a[-1].x")]
      (ofSettings {}))) = true := by cbv
  exact mirrors_of_tended (Reached.runAll (.created rfl)
    ⟨trivial, trivial, trivial, trivial, trivial, orderly_of_succeeds hremoval, trivial⟩)

end LiveForm.Form
