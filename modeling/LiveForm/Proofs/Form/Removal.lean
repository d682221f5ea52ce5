import LiveForm.Proofs.Form.Edits
import LiveForm.Proofs.Form.Moving
import LiveForm.Proofs.Tree.Closing

/-!
# Removing an element

An element is reported with all that is below it, and removed. Then the elements behind it move up, one after the
other. It is known beforehand whether this is going to fail: that is when some formula depends on itself in the course
of it.
-/

set_option autoImplicit false

namespace LiveForm

/-- Some elements move up by one, one after the other, and no formula depends on itself on the way. -/
def FieldTree.Shifts (t : FieldTree) : List (Int × NodeId) → Prop
  | [] => True
  | (i, e) :: rest =>
    t.Relinks (t.withKey e (.index (i - 1))) (t.preorderFrom e) ∧ (t.withKey e (.index (i - 1))).Shifts rest

/-- There is an element with an index, and the elements behind it can move up once it is gone. -/
def FieldTree.Removable (t : FieldTree) (array : NodeId) (index : Int) : Prop :=
  ∃ e, t.childByKey? array (.index index) = some e ∧ (t.without e).Shifts ((t.without e).elementsBehind array index)

/-- The array that a path leads to has no element with an index. -/
def FieldTree.LacksElement (t : FieldTree) (path : String) (index : Int) : Prop :=
  ∀ array, t.Resolves path array → (t.get? array).map (·.kind) = some .array → t.childByKey? array (.index index) = none

namespace Form

variable {f g : Form} {array e : NodeId} {gap index : Int}

/-- The elements behind a gap move up one after the other. -/
theorem Settled.shiftAll {rest : List (Int × NodeId)} (h : Settled f) (hquiet : f.Quiet) (hs : f.tree.Shaped)
    (hclosing : f.tree.Closing array gap rest) :
    Ends (rest.forM (fun entry : Int × NodeId => Form.renameSubtree entry.2 (.index (entry.1 - 1))) f)
      (fun _ g => Settled g ∧ g.tree.Shaped ∧ Advance f g ∧ f.tree.Shifts rest)
      (fun error _ => (∃ paths, error = .cycle paths) ∧ ¬ f.tree.Shifts rest) := by
  induction rest generalizing f gap with
  | nil => exact ⟨h, hs, .refl f, trivial⟩
  | cons entry rest ih =>
    obtain ⟨i, e⟩ := entry
    have hwf := h.current.tree
    obtain ⟨p, hp⟩ := hclosing.placed
    obtain ⟨q, hq, hparent, hkey, -⟩ := hclosing.child i e List.mem_cons_self
    refine Ends.bind ((h.renameSubtree hquiet hp hq hparent hkey (hclosing.free hwf)).mono ?_ ?_)
    · rintro _ g ⟨hg, hadv, htree, hlinks⟩
      have hclosing' := hclosing.step hwf
      have hs' := hclosing.shaped hwf hs
      rw [← htree] at hclosing' hs'
      refine (ih hg (hadv.quiet hquiet) hs' hclosing').mono ?_ ?_
      · rintro _ g' ⟨hg', hshaped, hadv', hshifts⟩
        exact ⟨hg', hshaped, hadv.trans hwf hadv', hlinks, htree ▸ hshifts⟩
      · rintro error _ ⟨he, hnot⟩
        exact ⟨he, fun hall => hnot (htree ▸ hall.2)⟩
    · rintro error _ ⟨he, hnot⟩
      exact ⟨he, fun hall => hnot hall.1⟩

/-- An element is removed, and those behind it move up. -/
theorem Settled.removeElement (h : Settled f) (hquiet : f.Quiet) (hs : f.tree.Shaped) {p : Place}
    (hp : f.tree.place? array = some p) (harray : p.node.kind = .array)
    (he : f.tree.childByKey? array (.index index) = some e) :
    Ends ((do
        discardSubtree e
        let later := ((← get).tree.elements array).filter fun entry => index < entry.1
        later.forM fun (i, id) => Form.renameSubtree id (.index (i - 1)) : FormM Unit) f)
      (fun _ g => Settled g ∧ g.tree.Shaped ∧ Advance f g ∧ f.tree.Removable array index)
      (fun error _ => (∃ paths, error = .cycle paths) ∧ ¬ f.tree.Removable array index) := by
  have hwf := h.current.tree
  obtain ⟨q, hq, hparent, -⟩ := (FieldTree.childByKey?_eq_some hwf.keyed).1 he
  have hroot : e ≠ rootId := FieldTree.ne_root_of_parent hq hparent
  have hclosing := FieldTree.closing_without hwf hs hp harray he hroot
  have hremovable : f.tree.Removable array index ↔
      (f.tree.without e).Shifts ((f.tree.without e).elementsBehind array index) := by
    refine ⟨fun ⟨e', he', hshifts⟩ => ?_, fun hshifts => ⟨e, he, hshifts⟩⟩
    rwa [Option.some.inj (he.symm.trans he')] at *
  refine Ends.bind ((Upkept.discardSubtree h hquiet hroot (by rw [hq]; rfl)).mono ?_ fun _ _ he => he.elim)
  rintro _ g ⟨hup, htree, hadv, -⟩
  have hg : Settled g := hup.mono fun x hx => hx.1
  rw [hremovable]
  rw [← htree] at hclosing ⊢
  have hshaped : g.tree.Shaped := htree ▸ hs.without
  refine Ends.bind (Ends.pure ((hg.shiftAll (hadv.quiet hquiet) hshaped hclosing).mono ?_ fun _ _ he => he))
  rintro _ g' ⟨hg', hshaped', hadv', hshifts⟩
  exact ⟨hg', hshaped', hadv.trans hwf hadv', hshifts⟩

/-- What removing an element comes to. -/
theorem Sound.removeElement (h : Sound f) (path : String) (index : UInt64) : Ends (removeElement path index f)
    (fun _ f' => Continues f f' ∧ (f.isSet .recomputeEagerly = true → f'.pending = ∅) ∧
      ∃ array, f.tree.Resolves path array ∧ f.tree.Removable array index.toInt64.toInt)
    (fun error f' => ((∃ paths, error = .cycle paths) ∨ f' = f ∧ f.tree.LacksElement path index.toInt64.toInt) ∧
      ∀ array, f.tree.Resolves path array → (f.tree.get? array).map (·.kind) = some .array →
        ¬ f.tree.Removable array index.toInt64.toInt) := by
  have hlacks (hlacks : f.tree.LacksElement path index.toInt64.toInt) (error : FormError) :
      ((∃ paths, error = .cycle paths) ∨ f = f ∧ f.tree.LacksElement path index.toInt64.toInt) ∧
        ∀ array, f.tree.Resolves path array → (f.tree.get? array).map (·.kind) = some .array →
          ¬ f.tree.Removable array index.toInt64.toInt := by
    refine ⟨.inr ⟨rfl, hlacks⟩, fun array hres hkind ⟨e, he, _⟩ => ?_⟩
    simp [hlacks array hres hkind] at he
  unfold Form.removeElement
  refine Ends.bind ((ends_resolve path).mono ?_ ?_)
  swap
  · rintro error f' ⟨rfl, hnone, -⟩
    exact hlacks (fun array hres => (hnone array hres).elim) error
  rintro array f' ⟨rfl, hres⟩
  refine Ends.bind (ends_expectArray.mono ?_ ?_)
  swap
  · rintro error f ⟨rfl, -, hkind⟩
    exact hlacks (fun array' hres' hkind' => absurd (hres'.unique hres ▸ hkind') hkind) error
  rintro _ f ⟨rfl, hkind⟩
  obtain ⟨p, hp, harray⟩ : ∃ p, f.tree.place? array = some p ∧ p.node.kind = .array := by
    rw [FieldTree.get?_eq] at hkind
    obtain ⟨node, hnode, harray⟩ := Option.map_eq_some_iff.1 hkind
    obtain ⟨p, hp, rfl⟩ := Option.map_eq_some_iff.1 hnode
    exact ⟨p, hp, harray⟩
  refine Ends.bind (Ends.pure ?_)
  cases he : f.tree.childByKey? array (.index index.toInt64.toInt) with
  | none => exact hlacks (fun array' hres' _ => by rw [hres'.unique hres, he]) _
  | some e =>
    have hedit := h.settled.withSchedule (f.schedule.push .recomputeEagerly false)
    have hbatch := h.batch _ _ (Settled.removeElement hedit (quiet_paused h.updating) h.shaped hp harray he)
    refine hbatch.mono ?_ ?_
    · rintro _ f' ⟨hcont, hpending, g, hremovable, -⟩
      exact ⟨hcont, hpending, array, hres, hremovable⟩
    · rintro error _ ⟨g, ⟨hcycle, hnot⟩, rfl⟩
      refine ⟨.inl hcycle, fun array' hres' _ => ?_⟩
      rw [hres'.unique hres]
      exact hnot

end Form

end LiveForm
