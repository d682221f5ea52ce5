import LiveForm.Proofs.Form.Evolution

/-!
# What removing an element does to the tree

The element is gone, and the elements behind it have moved up. If that is given up on the way, which is only done on
account of a circle, some of them have moved.
-/

set_option autoImplicit false

namespace LiveForm

namespace Form

variable {f g : Form} {s : Schedule} {t : FieldTree} {array e : NodeId} {index gap : Int} {path : String}

section Failing

variable {α β : Type}

/-- An operation fails on account of a circle, if at all. -/
def FailsByCircle (x : FormM α) : Prop :=
  ∀ f, Ends (x f) (fun _ _ => True) (fun e _ => ∃ paths, e = .cycle paths)

namespace FailsByCircle

theorem pure (a : α) : FailsByCircle (Pure.pure a) :=
  fun _ => trivial

theorem update (g : Form → Form) : FailsByCircle (FormM.update g) :=
  fun _ => trivial

theorem bind {x : FormM α} {k : α → FormM β} (hx : FailsByCircle x) (hk : ∀ a, FailsByCircle (k a)) :
    FailsByCircle (x >>= k) :=
  fun f => Ends.bind ((hx f).mono (fun a g _ => hk a g) fun _ _ he => he)

theorem forM {ι : Type} {body : ι → FormM PUnit} (h : ∀ a, FailsByCircle (body a)) (l : List ι) :
    FailsByCircle (l.forM body) := by
  induction l with
  | nil => exact pure _
  | cons a rest ih => exact bind (h a) fun _ => ih

theorem link (id : BindingId) (n : NodeId) : FailsByCircle (link id n) := by
  intro f
  unfold Form.link
  dsimp only
  split
  · exact ⟨_, rfl⟩
  · trivial

theorem syncBy (order : VisitOrder) (mode : Refresh) (id : BindingId) : FailsByCircle (syncBy order mode id) := by
  intro f
  unfold Form.syncBy
  split
  · trivial
  · exact forM (FailsByCircle.link id) _ _

theorem levels : FailsByCircle levels := by
  intro f
  rw [Form.levels_eq]
  split
  · trivial
  · split
    · trivial
    · exact ⟨_, rfl⟩

theorem recomputePendingBy (order : VisitOrder) : FailsByCircle (recomputePendingBy order) := by
  intro f
  unfold Form.recomputePendingBy
  split
  · trivial
  dsimp only
  split
  next hrun => exact (forM (FailsByCircle.syncBy order _) _ _).of_error hrun
  next =>
    unfold Form.evaluateAffected
    dsimp only
    split
    next hlevels => exact (FailsByCircle.levels _).of_error hlevels
    next => trivial

theorem settle : FailsByCircle settle := by
  intro f
  unfold Form.settle
  split
  · exact bind (recomputePendingBy _) (fun _ => pure _) f
  · trivial

theorem whenUpdating {x : FormM Unit} (hx : FailsByCircle x) : FailsByCircle (whenUpdating x) := by
  intro f
  unfold Form.whenUpdating
  split
  · exact hx f
  · trivial

theorem relink (n : NodeId) : FailsByCircle (relink n) := by
  intro f
  unfold Form.relink
  split
  · trivial
  · refine bind (fun f => ?_) (fun _ => bind (fun f => ?_) fun _ => update _) f
    · unfold Form.relinkFormula
      split
      · trivial
      · exact bind (forM (FailsByCircle.syncBy _ _) _) (fun _ => update _) f
    · exact forM (fun id => FailsByCircle.link id n) _ _

theorem rename (old : Path) (n : NodeId) : FailsByCircle (rename old n) :=
  bind (whenUpdating (update _)) fun _ => whenUpdating (bind (relink n) fun _ => settle)

end FailsByCircle

end Failing

/-- Some moves are reported. -/
theorem Steady.renameAll (moved : List (NodeId × Path)) (h : Steady t.blank s f) :
    Ends ((moved.forM fun (node, old) => Form.rename old node : FormM Unit) f) (fun _ => Steady t.blank s)
      (fun error g => (∃ paths, error = .cycle paths) ∧ Steady t.blank s g) := by
  have hsteady := Preserves.forM (fun entry : NodeId × Path => Steady.rename entry.2 entry.1) moved f h
  have hfails := FailsByCircle.forM (fun entry : NodeId × Path => FailsByCircle.rename entry.2 entry.1) moved f
  exact (hsteady.and hfails).mono (fun _ _ hg => hg.1) fun _ _ hg => ⟨hg.2, hg.1⟩

/-- A node gets another key, and is reported with all that is below it. -/
theorem Steady.renameSubtree {key : Step} {old : Path} (h : Consistent f)
    (hrekey : f.tree.rekey e key = .ok (old, f.tree.withKey e key)) :
    Ends (renameSubtree e key f) (fun _ => Steady (f.tree.withKey e key).blank f.schedule)
      (fun error g => (∃ paths, error = .cycle paths) ∧ Steady (f.tree.withKey e key).blank f.schedule g) := by
  unfold Form.renameSubtree
  refine Ends.bind (Ends.pure (Ends.bind (Ends.bind (FormM.ends_onTree (fun old' t htree => ?_) fun error htree => ?_))))
  · rw [hrekey] at htree
    obtain ⟨-, rfl⟩ := Prod.mk.inj (Except.ok.inj htree)
    exact Steady.renameAll _ ⟨h.congr rfl rfl h.levels, rfl, rfl⟩
  · rw [hrekey] at htree
    cases htree

/-- The elements behind a gap move up one after the other. If that is given up, some of them have moved. -/
theorem Steady.shiftAll {rest : List (Int × NodeId)} (h : Consistent f) (ht : f.tree.Intact)
    (hclosing : f.tree.Closing array gap rest) :
    Ends (rest.forM (fun entry : Int × NodeId => Form.renameSubtree entry.2 (.index (entry.1 - 1))) f)
      (fun _ => Steady (f.tree.shifted rest).blank f.schedule)
      (fun error g => (∃ paths, error = .cycle paths) ∧
        ∃ done, done <+: rest ∧ Steady (f.tree.shifted done).blank f.schedule g) := by
  induction rest generalizing f gap with
  | nil => exact .start h
  | cons entry rest ih =>
    obtain ⟨i, e⟩ := entry
    have hwf := ht.wellFormed
    obtain ⟨q, hq, hparent, -⟩ := hclosing.child i e List.mem_cons_self
    refine Ends.bind ((Steady.renameSubtree h (FieldTree.rekey_eq hq hparent (hclosing.free hwf))).mono ?_ ?_)
    · rintro _ g hg
      have hmoved : (f.tree.withKey e (.index (i - 1))).Intact := hclosing.intact ht (List.prefix_append [(i, e)] rest)
      have hshift (moves : List (Int × NodeId)) :
          (g.tree.shifted moves).blank = (f.tree.shifted ((i, e) :: moves)).blank := by
        rw [FieldTree.blank_shifted, hg.tree, ← FieldTree.blank_shifted]
        rfl
      refine (ih hg.consistent (hmoved.of_blank hg.tree) ((hclosing.step hwf).of_blank hg.tree)).mono ?_ ?_
      · rintro _ g' hg'
        rwa [hshift, hg.schedule] at hg'
      · rintro _ g' ⟨hcycle, done, hdone, hg'⟩
        rw [hshift, hg.schedule] at hg'
        exact ⟨hcycle, (i, e) :: done, List.cons_prefix_cons.2 ⟨rfl, hdone⟩, hg'⟩
    · rintro _ g ⟨hcycle, hg⟩
      exact ⟨hcycle, [(i, e)], List.cons_prefix_cons.2 ⟨rfl, List.nil_prefix⟩, hg⟩

/-- An element is removed, and those behind it move up. -/
theorem Intact.discardElement (h : Intact f) {p : Place} (hp : f.tree.place? array = some p)
    (harray : p.node.kind = .array) (he : f.tree.childByKey? array (.index index) = some e) :
    Ends ((do
        Form.discardSubtree e
        let later := ((← get).tree.elements array).filter fun entry => index < entry.1
        later.forM fun (i, id) => Form.renameSubtree id (.index (i - 1)) : FormM Unit) f)
      (fun _ g => Intact g ∧ Steady (f.tree.removed array e index).blank f.schedule g)
      (fun error g => Intact g ∧ g.schedule = f.schedule ∧ (g.tree.blank = f.tree.blank ∨
        (∃ paths, error = .cycle paths) ∧ f.tree.RemovedInPart array e index g.tree)) := by
  have hwf := h.tree.wellFormed
  obtain ⟨q, hq, hparent, -⟩ := (FieldTree.childByKey?_eq_some hwf.keyed).1 he
  have hroot : e ≠ rootId := FieldTree.ne_root_of_parent hq hparent
  have hclosing := FieldTree.closing_without hwf h.tree.shaped hp harray he hroot
  have hwithout := h.tree.without hroot
  refine Ends.bind (((Steady.start h.consistent).discardSubtree e).mono ?_ ?_)
  · rintro _ g ⟨-, hg⟩
    rw [← FieldTree.blank_without] at hg
    have hlater : (g.tree.elements array).filter (fun entry => decide (index < entry.1)) =
        (f.tree.without e).elementsBehind array index := by
      rw [FieldTree.elements_of_blank hg.tree]
      rfl
    have hintact := hwithout.of_blank hg.tree
    have hshift (moves : List (Int × NodeId)) :
        (g.tree.shifted moves).blank = ((f.tree.without e).shifted moves).blank := by
      rw [FieldTree.blank_shifted, hg.tree, ← FieldTree.blank_shifted]
    have hclosing' : g.tree.Closing array index
        ((g.tree.elements array).filter fun entry => decide (index < entry.1)) := by
      rw [hlater]
      exact hclosing.of_blank hg.tree
    refine Ends.bind (Ends.pure ((Steady.shiftAll hg.consistent hintact hclosing').mono ?_ ?_))
    · rintro _ g' hg'
      rw [hshift, hlater, hg.schedule] at hg'
      exact ⟨⟨hg'.consistent, (hclosing.intact hwithout List.prefix_rfl).of_blank hg'.tree⟩, hg'⟩
    · rintro _ g' ⟨hcycle, done, hdone, hg'⟩
      rw [hlater] at hdone
      rw [hshift, hg.schedule] at hg'
      exact ⟨⟨hg'.consistent, (hclosing.intact hwithout hdone).of_blank hg'.tree⟩, hg'.schedule,
        .inr ⟨hcycle, done, hdone, hg'.tree⟩⟩
  · exact fun _ g hg => ⟨⟨hg.consistent, h.tree.of_blank hg.tree⟩, hg.schedule, .inl hg.tree⟩

/-- What removing an element comes to. -/
theorem Intact.remove (h : Intact f) (path : String) (index : UInt64) : Ends (Form.removeElement path index f)
    (fun _ g => Intact g ∧ g.schedule = f.schedule ∧ ∃ array p e, f.tree.Resolves path array ∧
      f.tree.place? array = some p ∧ p.node.kind = .array ∧
      f.tree.childByKey? array (.index index.toInt64.toInt) = some e ∧
      g.tree.blank = (f.tree.removed array e index.toInt64.toInt).blank)
    (fun error g => Intact g ∧ g.schedule = f.schedule ∧ (g.tree.blank = f.tree.blank ∨
      (∃ paths, error = .cycle paths) ∧ ∃ array e, f.tree.Resolves path array ∧
        f.tree.childByKey? array (.index index.toInt64.toInt) = some e ∧
        f.tree.RemovedInPart array e index.toInt64.toInt g.tree)) := by
  unfold Form.removeElement
  refine Ends.bind ((ends_resolve path).mono ?_ ?_)
  swap
  · rintro _ _ ⟨rfl, -⟩
    exact ⟨h, rfl, .inl rfl⟩
  rintro array f ⟨rfl, hres⟩
  refine Ends.bind (ends_expectArray.mono ?_ ?_)
  swap
  · rintro _ _ ⟨rfl, -⟩
    exact ⟨h, rfl, .inl rfl⟩
  rintro _ f ⟨rfl, hkind⟩
  rw [FieldTree.get?_eq, Option.map_map, Option.map_eq_some_iff] at hkind
  obtain ⟨p, hp, harray⟩ := hkind
  refine Ends.bind (Ends.pure ?_)
  cases he : f.tree.childByKey? array (.index index.toInt64.toInt) with
  | none => exact ⟨h, rfl, .inl rfl⟩
  | some e =>
    have hpaused : Intact f.paused := ⟨h.consistent.congr rfl rfl h.consistent.levels, h.tree⟩
    have hclose {g : Form} (hg : Intact g) : Intact g.resumed :=
      ⟨hg.consistent.congr rfl rfl hg.consistent.levels, hg.tree⟩
    have hschedule {g : Form} (hg : g.schedule = f.paused.schedule) : g.resumed.schedule = f.schedule := by
      show g.schedule.pop .recomputeEagerly = f.schedule
      rw [hg]
      exact Schedule.pop_push f.schedule .recomputeEagerly false
    refine Ends.bind (Ends.pure (Ends.bind (ends_inScope ((hpaused.discardElement hp harray he).mono ?_ ?_))))
    · rintro _ g ⟨hg, hsteady⟩
      have hresult {g' : Form} (hg' : Steady g.resumed.tree.blank g.resumed.schedule g') :
          Intact g' ∧ g'.schedule = f.schedule ∧ g'.tree.blank = (f.tree.removed array e index.toInt64.toInt).blank :=
        ⟨⟨hg'.consistent, (hclose hg).tree.of_blank hg'.tree⟩, hg'.schedule.trans (hschedule hsteady.schedule),
          hg'.tree.trans hsteady.tree⟩
      dsimp only
      split
      · refine Ends.bind (Ends.bind (((Steady.recomputePendingBy g.resumed (.start (hclose hg).consistent)).and
          (FailsByCircle.recomputePendingBy _ _)).mono ?_ ?_))
        · rintro _ g' ⟨hg', -⟩
          obtain ⟨hintact, hsched, htree⟩ := hresult hg'
          exact ⟨hintact, hsched, array, p, e, hres, hp, harray, he, htree⟩
        · rintro _ g' ⟨hg', hcycle⟩
          obtain ⟨hintact, hsched, htree⟩ := hresult hg'
          exact ⟨hintact, hsched, .inr ⟨hcycle, array, e, hres, he, _, List.prefix_rfl, htree⟩⟩
      · obtain ⟨hintact, hsched, htree⟩ := hresult (.start (hclose hg).consistent)
        exact ⟨hintact, hsched, array, p, e, hres, hp, harray, he, htree⟩
    · rintro _ g ⟨hg, hsched, hreason⟩
      exact ⟨hclose hg, hschedule hsched, hreason.imp_right fun ⟨hcycle, hpart⟩ => ⟨hcycle, array, e, hres, he, hpart⟩⟩

end Form

end LiveForm
