import Mathlib
import LiveForm.Proofs.Form.Histories

/-!
# What is rejected, and what is left of it

Of a form whose graph follows its tree it can be told from the tree alone which additions and removals are rejected on
account of a circle. An addition is rejected if some formula would depend on itself afterwards. A removal is rejected as
soon as some formula depends on itself while the elements move up one by one, even if none does afterwards.
-/

set_option autoImplicit false

namespace LiveForm

/-- Whether an error is that of a circle. -/
def FormError.isCycle : FormError → Bool
  | .cycle _ => true
  | _ => false

theorem FormError.isCycle_iff {e : FormError} : e.isCycle = true ↔ ∃ paths, e = .cycle paths := by
  cases e <;> simp [isCycle]

namespace Form

variable {f g : Form} {path : String} {array e : NodeId} {index : UInt64} {p : Place}

/-- A form whose graph is the one that is derived from its tree. -/
structure Faithful (f : Form) : Prop where
  arisen : Arisen f
  updating : f.isSet .updateGraph = true
  derived : ∃ g, rebuild f = .ok () g ∧ SameDependencies f g

theorem Faithful.sound (h : Faithful f) : Sound f := by
  have hintact := h.arisen.intact
  obtain ⟨g, hrun, ρ, hρ⟩ := h.derived
  have hg := (hintact.consistent.coherent.rebuild hintact.tree.wellFormed).of_ok hrun
  exact ⟨hρ.settled hintact hg.settled (FieldTree.sameOutlines_of_blank hg.blank), hintact.tree.shaped, h.updating⟩

/-- Forms that are always kept up to date are faithful. -/
theorem Tended.faithful (h : Tended f) : Faithful f := by
  obtain ⟨g, hrun, hg⟩ := h.keptUp.sound.rebuild
  exact ⟨h.mono (fun _ _ => trivial) fun _ _ _ => trivial, h.keptUp.sound.updating, g, hrun,
    h.keptUp.sound.settled.sameDependencies hg.settled (FieldTree.sameOutlines_of_blank hg.blank)⟩

section Removals

/-- Whether an element is removed depends on whether some formula depends on itself while the elements behind it move up.
If it is removed, no formula does so afterwards. -/
theorem removes_iff_removable (h : Faithful f) (hres : f.tree.Resolves path array) (hp : f.tree.place? array = some p)
    (harray : p.node.kind = .array) (he : f.tree.childByKey? array (.index index.toInt64.toInt) = some e) :
    ((∃ g, removeElement path index f = .ok () g) ↔ f.tree.Removable array index.toInt64.toInt) ∧
      (f.tree.Removable array index.toInt64.toInt → (f.tree.removed array e index.toInt64.toInt).Acyclic) ∧
      ∀ error g, removeElement path index f = .error error g → ∃ paths, error = .cycle paths := by
  have hsound := h.sound
  have hkind : (f.tree.get? array).map (·.kind) = some .array := by
    rw [FieldTree.get?_eq, hp]
    simp [harray]
  have hremove := hsound.removeElement path index
  have htree := h.arisen.intact.remove path index
  cases hrun : removeElement path index f with
  | ok _ g =>
    obtain ⟨hcont, -, array', hres', hremovable⟩ := hremove.of_ok hrun
    obtain rfl := hres'.unique hres
    obtain ⟨-, -, array'', p', e', hres'', -, -, he', hblank⟩ := htree.of_ok hrun
    obtain rfl := hres''.unique hres
    obtain rfl := Option.some.inj (he'.symm.trans he)
    refine ⟨iff_of_true ⟨g, rfl⟩ hremovable, fun _ => ?_, fun error g' hfailed => by cases hfailed⟩
    exact (FieldTree.acyclic_congr hblank).1 hcont.sound.settled.tree_acyclic
  | error error g =>
    obtain ⟨hreason, hnot⟩ := hremove.of_error hrun
    have hnot' := hnot array hres hkind
    refine ⟨iff_of_false ?_ hnot', fun hr => absurd hr hnot', ?_⟩
    · rintro ⟨g', hok⟩
      cases hok
    · rintro error' g' hfailed
      obtain ⟨rfl, rfl⟩ := EStateM.Result.error.inj hfailed
      refine hreason.resolve_right ?_
      rintro ⟨-, hnone⟩
      simp [hnone array hres hkind] at he

/-- A form with two elements in an array. The second one holds fields that read, by way of fields outside the array, each
other's namesakes at fixed indices: `y` reads the `x` of the first element, and `x` the `y` of the second one. -/
def crossed : Form :=
  Edit.runAll [.addField "" "a" .array none, .pushElement "/a", .pushElement "/a",
    .addField "" "p" .field (some "ref /a[1].y"), .addField "" "q" .field (some "ref /a[0].x"),
    .addField "/a[1]" "x" .field (some "ref /p"), .addField "/a[1]" "y" .field (some "ref /q")] (ofSettings {})

theorem crossed_tree : crossed.tree =
    { fields :=
        .cons 1 (.name "a") { kind := .array }
          (.cons 2 (.index (-1)) { kind := .group, isTemplate := true } .nil
            (.cons 3 (.index 0) { kind := .group } .nil
              (.cons 4 (.index 1) { kind := .group }
                (.cons 7 (.name "x") { kind := .field, formula := some "ref /p" } .nil
                  (.cons 8 (.name "y") { kind := .field, formula := some "ref /q" } .nil .nil)) .nil)))
          (.cons 5 (.name "p") { kind := .field, formula := some "ref /a[1].y" } .nil
            (.cons 6 (.name "q") { kind := .field, formula := some "ref /a[0].x" } .nil .nil))
      next := 9 } := by cbv

theorem crossed_faithful : Faithful crossed :=
  Tended.faithful (Reached.runAll (.created rfl)
    ⟨trivial, trivial, trivial, trivial, trivial, trivial, trivial, trivial⟩)

/-- Removing the first element fails. -/
theorem crossed_removal : ∃ paths g, removeElement "/a" 0 crossed = .error (.cycle paths) g ∧
    g.tree.blank = (crossed.tree.removed 1 3 0).blank ∧ succeeds (rebuild g) = true := by
  have hrun : (failure? (removeElement "/a" 0 crossed)).map (fun failure =>
      (failure.1.isCycle, failure.2.tree.blank, succeeds (rebuild failure.2))) =
        some (true, (crossed.tree.removed 1 3 0).blank, true) := by
    rw [crossed_tree]
    cbv
  obtain ⟨⟨e, g⟩, hfails, hleft⟩ := Option.map_eq_some_iff.1 hrun
  obtain ⟨hcycle, htree, hrebuilds⟩ : e.isCycle = true ∧ g.tree.blank = _ ∧ succeeds (rebuild g) = true := by
    simpa only [Prod.mk.injEq] using hleft
  obtain ⟨paths, rfl⟩ := FormError.isCycle_iff.1 hcycle
  exact ⟨paths, g, failure?_eq_some.1 hfails, htree, hrebuilds⟩

/-- Although no formula depends on itself once the first element is gone, it cannot be removed. -/
theorem removal_of_crossed : ¬ crossed.tree.Removable 1 0 ∧ (crossed.tree.removed 1 3 0).Acyclic := by
  obtain ⟨paths, g, hrun, htree, hrebuilds⟩ := crossed_removal
  have hp : crossed.tree.place? 1 = some
      { key := some (.name "a"), node := { kind := .array }, parent := some 0
        path := ⟨[.name "a"]⟩, inTemplate := false } := by
    rw [crossed_tree]
    rfl
  have hres : crossed.tree.Resolves "/a" 1 := ⟨⟨[.name "a"]⟩, by cbv, by rw [crossed_tree]; cbv⟩
  have he : crossed.tree.childByKey? 1 (.index (0 : UInt64).toInt64.toInt) = some 3 := by
    rw [crossed_tree]
    cbv
  obtain ⟨hiff, -, -⟩ := removes_iff_removable crossed_faithful hres hp rfl he
  refine ⟨fun hremovable => ?_, ?_⟩
  · obtain ⟨g', hok⟩ := hiff.2 hremovable
    rw [hrun] at hok
    cases hok
  · have hintact := (crossed_faithful.arisen.intact.remove "/a" 0).of_error hrun |>.1
    have hrebuild := hintact.consistent.coherent.rebuild hintact.tree.wellFormed
    cases hg : rebuild g with
    | ok _ g' =>
      have hrebuilt := hrebuild.of_ok hg
      exact (FieldTree.acyclic_congr (hrebuilt.blank.trans htree)).1 hrebuilt.settled.tree_acyclic
    | error e g' =>
      rw [hg] at hrebuilds
      cases hrebuilds

/-- A removal that fails leaves the form as it was, unless it is given up on account of a circle. Then the element is
gone, and the elements behind it have moved up as far as that went. -/
theorem unchanged_of_removal_failed (h : Faithful f) {error : FormError}
    (hfailed : removeElement path index f = .error error g) :
    g = f ∨ (∃ paths, error = .cycle paths) ∧ (g.tree.blank = f.tree.blank ∨ ∃ array e, f.tree.Resolves path array ∧
      f.tree.childByKey? array (.index index.toInt64.toInt) = some e ∧
      f.tree.RemovedInPart array e index.toInt64.toInt g.tree) := by
  obtain ⟨hreason, -⟩ := (h.sound.removeElement path index).of_error hfailed
  obtain ⟨-, -, htree⟩ := (h.arisen.intact.remove path index).of_error hfailed
  rcases hreason with hcycle | ⟨hsame, -⟩
  · exact .inr ⟨hcycle, htree.imp_right And.right⟩
  · exact .inl hsame

/-- Removing the first element is given up once it is gone. -/
theorem changed_by_removal_of_crossed : ∃ paths g, removeElement "/a" 0 crossed = .error (.cycle paths) g ∧
    g.tree.blank ≠ crossed.tree.blank ∧ ∃ array e, crossed.tree.Resolves "/a" array ∧
      crossed.tree.childByKey? array (.index 0) = some e ∧ crossed.tree.RemovedInPart array e 0 g.tree := by
  obtain ⟨paths, g, hrun, htree, -⟩ := crossed_removal
  have hgone : (crossed.tree.removed 1 3 0).blank.contains 3 = false := by
    rw [crossed_tree]
    cbv
  have hthere : crossed.tree.blank.contains 3 = true := by
    rw [crossed_tree]
    rfl
  have hchanged : g.tree.blank ≠ crossed.tree.blank := fun hsame => by
    rw [htree] at hsame
    rw [hsame, hthere] at hgone
    cases hgone
  rcases unchanged_of_removal_failed crossed_faithful hrun with rfl | ⟨-, hsame | hpart⟩
  · exact absurd rfl hchanged
  · exact absurd hsame hchanged
  · exact ⟨paths, g, hrun, hchanged, hpart⟩

end Removals

section Additions

variable {name : String} {kind : Kind} {formula : Option String}

/-- An edit has left no trace in the tree, in the graph and among the bindings. Handles that it has used stay used. -/
structure Traceless (f g : Form) : Prop where
  tree : g.tree = f.tree.withNext g.tree.next
  vertices : g.graph.vertices = f.graph.vertices
  bindings : ∀ id, g.registry.get? id = f.registry.get? id

/-- What is left of an edit that has been undone is what the tree asks for, which is what there was before. -/
theorem Undone.traceless (h : Undone f g) (hf : Settled f) (hg : Settled g) : Traceless f g := by
  have hsame : FieldTree.SameOutlines f.tree g.tree := fun x => by rw [h.place?]
  obtain ⟨hvertices, hbindings⟩ := (hf.corresponds hg hsame h.keeps.bound).same
  exact ⟨h.tree, hvertices, hbindings⟩

/-- Adding a field to an array gives the template and all elements one more child each, and nothing else. If it fails,
nothing has changed, unless it is an element behind the first one that has a child with the key already. -/
theorem ends_addField_array (h : Faithful f) (hres : f.tree.Resolves path array) (hp : f.tree.place? array = some p)
    (harray : p.node.kind = .array) : Ends (addField path name kind formula f)
      (fun _ g => ∃ template copies, f.tree.template? array = some template ∧
        copies.map Prod.fst = template :: (f.tree.elements array).map Prod.snd ∧
        g.tree.blank = ((f.tree.withCopies (.name name) kind formula copies).withNext g.tree.next).blank)
      (fun e g => Traceless f g ∧ (∀ element ∈ ((f.tree.elements array).map Prod.snd).tail,
          e ≠ .duplicateKey (f.tree.path element) (.name name)) ∨
        LeftBehind name kind formula array e f g) := by
  have hsound := h.sound
  unfold addField
  refine Ends.bind ((ends_resolve path).mono ?_ ?_)
  swap
  · rintro _ _ ⟨rfl, hnone, -⟩
    exact (hnone array hres).elim
  rintro id f' ⟨rfl, hid⟩
  obtain rfl := hid.unique hres
  have hget : f'.tree.get? id = some p.node := by rw [FieldTree.get?_eq, hp, Option.map_some]
  unfold addNode
  simp only [hget, harray]
  refine (hsound.extendArray hp harray).mono ?_ ?_
  · rintro new g ⟨-, -, template, g₀, htemplate, ⟨-, copies, hcopies, htree⟩, hblank, -⟩
    refine ⟨template, (template, new) :: copies, htemplate, congrArg (template :: ·) hcopies, ?_⟩
    have hnext : g.tree.next = g₀.tree.next := FieldTree.next_of_blank hblank
    rw [hblank, hnext]
    exact congrArg FieldTree.blank htree
  · rintro e _ ⟨hcont, g₀, rfl, hback | hleft⟩
    · have hundone : Undone f' g₀.resumed :=
          ⟨hback.undone.tree, hback.undone.next, hback.undone.keeps.1, hback.undone.keeps.2⟩
      exact .inl ⟨hundone.traceless hsound.settled hcont.sound.settled, hback.error⟩
    · exact .inr ⟨hleft.exists_copies⟩

/-- An array with two elements, the second of which has a field of its own. -/
def uneven : Form :=
  Edit.runAll [.addField "" "a" .array none, .pushElement "/a", .pushElement "/a", .addField "/a[1]" "x" .field none]
    (ofSettings {})

theorem uneven_tree : uneven.tree =
    { fields :=
        .cons 1 (.name "a") { kind := .array }
          (.cons 2 (.index (-1)) { kind := .group, isTemplate := true } .nil
            (.cons 3 (.index 0) { kind := .group } .nil
              (.cons 4 (.index 1) { kind := .group } (.cons 5 (.name "x") { kind := .field } .nil .nil) .nil))) .nil
      next := 6 } := by cbv

/-- Adding a field of that name to the array fails, and leaves a copy in the first element. -/
theorem leftBehind_by_addition_to_uneven : ∃ e g, addField "/a" "x" .field none uneven = .error e g ∧
    LeftBehind "x" .field none 1 e uneven g := by
  have hfails : (failure? (addField "/a" "x" .field none uneven)).map Prod.fst =
      some (.duplicateKey ⟨[.name "a", .index 1]⟩ (.name "x")) := by cbv
  have hfaithful : Faithful uneven :=
    Tended.faithful (Reached.runAll (.created rfl) ⟨trivial, trivial, trivial, trivial, trivial⟩)
  have hp : uneven.tree.place? 1 = some
      { key := some (.name "a"), node := { kind := .array }, parent := some 0
        path := ⟨[.name "a"]⟩, inTemplate := false } := by
    rw [uneven_tree]
    rfl
  have hres : uneven.tree.Resolves "/a" 1 := ⟨⟨[.name "a"]⟩, by cbv, by rw [uneven_tree]; cbv⟩
  have hends : Ends (addField "/a" "x" .field none uneven) _ _ := ends_addField_array hfaithful hres hp rfl
  obtain ⟨⟨e, g⟩, hfailed, rfl⟩ := Option.map_eq_some_iff.1 hfails
  have hrun := failure?_eq_some.1 hfailed
  have htail : ((uneven.tree.elements 1).map Prod.snd).tail = [4] := by
    rw [uneven_tree]
    cbv
  have hpath : uneven.tree.path 4 = ⟨[.name "a", .index 1]⟩ := by
    rw [uneven_tree]
    cbv
  refine ⟨_, g, hrun, (hends.of_error hrun).resolve_left ?_⟩
  rintro ⟨-, hother⟩
  refine hother 4 ?_ ?_
  · rw [htail]
    exact List.mem_singleton.2 rfl
  · rw [hpath]

/-- If all formulas of a tree can be read, only a circle can be at fault. -/
theorem explains_of_readable {t : FieldTree} {e : FormError} (h : t.Explains e)
    (hreadable : ∀ n text, t.FormulaAt n text → Readable text) : (∃ paths, e = .cycle paths) ∧ ¬ t.Acyclic := by
  rcases h with ⟨circle, hcircle, rfl⟩ | ⟨-, n, text, hat, hnot⟩
  · exact ⟨⟨_, rfl⟩, FieldTree.not_acyclic_of_circular hcircle⟩
  · exact absurd (hreadable n text hat) hnot

theorem fails_iff_of_ends {α : Type} {r : EStateM.Result FormError Form α} {P : Prop}
    (h : Ends r (fun _ _ => P) fun e _ => (∃ paths, e = .cycle paths) ∧ ¬ P) :
    (∃ paths g, r = .error (.cycle paths) g) ↔ ¬ P := by
  cases r with
  | ok _ g =>
    refine iff_of_false ?_ (not_not.2 h)
    rintro ⟨paths, g', hr⟩
    cases hr
  | error e g =>
    obtain ⟨⟨paths, rfl⟩, hnot⟩ := id h
    exact iff_of_true ⟨paths, g, rfl⟩ hnot

/-- If all formulas can be read and no key is taken, adding an element to an array or a field to a group or to an array
fails on account of a circle if and only if some formula depends on itself in the tree with what is added. -/
theorem rejects_iff_cyclic (h : Faithful f) :
    (∀ path array t', f.tree.Resolves path array → (f.tree.get? array).map (·.kind) = some .array →
      f.tree.Grown array t' → (∀ n text, t'.FormulaAt n text → Readable text) →
      ((∃ paths g, pushElement path f = .error (.cycle paths) g) ↔ ¬ t'.Acyclic)) ∧
    ∀ path name kind formula parent t', f.tree.Resolves path parent →
      f.tree.Enlarged parent (.name name) kind formula t' → (∀ n text, t'.FormulaAt n text → Readable text) →
      ((∃ paths g, addField path name kind formula f = .error (.cycle paths) g) ↔ ¬ t'.Acyclic) := by
  have hsound := h.sound
  refine ⟨fun path array t' hres hkind hgrown hreadable => fails_iff_of_ends ?_,
    fun path name kind formula parent t' hres henlarged hreadable => fails_iff_of_ends ?_⟩
  · refine Ends.bind ((ends_resolve path).mono ?_ ?_)
    · rintro id f' ⟨rfl, hid⟩
      obtain rfl := hid.unique hres
      rw [FieldTree.get?_eq, Option.map_map, Option.map_eq_some_iff] at hkind
      obtain ⟨p, hp, harray⟩ := hkind
      refine hsound.pushElementAt.mono ?_ ?_
      · rintro _ g ⟨-, -, t, ht, hacyclic, -⟩
        rwa [hgrown.unique ht]
      · rintro e g ⟨-, -, hexplains, -⟩
        exact explains_of_readable (hexplains p t' hp harray hgrown) hreadable
    · rintro e f' ⟨rfl, hnone, -⟩
      exact (hnone array hres).elim
  · refine Ends.bind ((ends_resolve path).mono ?_ ?_)
    · rintro id f' ⟨rfl, hid⟩
      obtain rfl := hid.unique hres
      refine hsound.addNode.mono ?_ ?_
      · rintro _ g ⟨-, -, hacyclic⟩
        exact hacyclic t' henlarged
      · rintro e g ⟨-, hexplains, -⟩
        exact explains_of_readable (hexplains t' henlarged) hreadable
    · rintro e f' ⟨rfl, hnone, -⟩
      exact (hnone parent hres).elim

/-- Two fields cannot read each other: the one that is added second is rejected. -/
theorem rejected_for_reading_each_other :
    let f := Edit.runAll [.addField "" "a" .field (some "ref /b")] (ofSettings {})
    (∃ paths g, addField "" "b" .field (some "ref /a") f = .error (.cycle paths) g) ∧
      ¬ (f.tree.withNew rootId (.name "b") .field (some "ref /a")).Acyclic := by
  have htree : (Edit.runAll [.addField "" "a" .field (some "ref /b")] (ofSettings {})).tree =
      { fields := .cons 1 (.name "a") { kind := .field, formula := some "ref /b" } .nil .nil, next := 2 } := by cbv
  have hfails : (failure? (addField "" "b" .field (some "ref /a") (Edit.runAll
      [.addField "" "a" .field (some "ref /b")] (ofSettings {})))).map (fun failure => failure.1.isCycle) =
        some true := by cbv
  intro f
  have hfaithful : Faithful f := Tended.faithful (Reached.runAll (.created rfl) ⟨trivial, trivial⟩)
  have hreads (field : String) (hword : Text.words ("ref " ++ field) = ["ref", field])
      (hparse : (Selector.parse field).isOk = true) : Readable ("ref " ++ field) := by
    refine ⟨"ref", [field], .ref, hword, by cbv, ?_⟩
    rintro word hmem -
    obtain rfl := List.mem_singleton.1 hmem
    cases hs : Selector.parse word with
    | ok s => exact ⟨s, rfl⟩
    | error fault =>
      rw [hs] at hparse
      cases hparse
  have hcycle : ∃ paths g, addField "" "b" .field (some "ref /a") f = .error (.cycle paths) g := by
    obtain ⟨⟨e, g⟩, hfailed, hcycle⟩ := Option.map_eq_some_iff.1 hfails
    obtain ⟨paths, rfl⟩ := FormError.isCycle_iff.1 hcycle
    exact ⟨paths, g, failure?_eq_some.1 hfailed⟩
  refine ⟨hcycle, ((rejects_iff_cyclic hfaithful).2 "" "b" .field (some "ref /a") rootId _ ⟨.root, by cbv, rfl⟩
    ⟨f.tree.rootPlace, f.tree.place?_root, ?_⟩ ?_).1 hcycle⟩
  · rw [show f.tree = _ from htree]
    exact ⟨fun _ => rfl, by cbv, rfl⟩
  · rw [show f.tree = _ from htree]
    rintro n text ⟨q, hq, -, htext⟩
    rcases n with _ | _ | _ | n
    · obtain rfl := Option.some.inj hq
      cases htext
    · obtain rfl := Option.some.inj hq
      obtain rfl := Option.some.inj htext
      exact hreads "/b" (by cbv) (by cbv)
    · obtain rfl := Option.some.inj hq
      obtain rfl := Option.some.inj htext
      exact hreads "/a" (by cbv) (by cbv)
    · cases hq

end Additions

end Form

end LiveForm
