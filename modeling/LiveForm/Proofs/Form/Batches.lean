import LiveForm.Proofs.Form.Recomputing

/-!
# Edits as a whole

An edit runs without recomputing anything, and is followed up once it is over if the form recomputes eagerly. So what
is shown of the edit itself carries over to the edit with what follows it.
-/

set_option autoImplicit false

namespace LiveForm.Form

variable {α : Type} {f f' f'' g : Form}

/-- What holds of a form between two calls: the graph follows the tree, and all is up to date but the values of
formulas. -/
structure Sound (f : Form) : Prop where
  settled : Settled f
  shaped : f.tree.Shaped
  updating : f.isSet .updateGraph = true

/-- What a call does to a form: it stays sound, and what is stale then is going to be followed up if that was so
before. -/
structure Continues (f f' : Form) : Prop where
  sound : Sound f'
  covered : Covered f → Covered f'
  schedule : f'.schedule = f.schedule

theorem Continues.refl (h : Sound f) : Continues f f :=
  ⟨h, fun hc => hc, rfl⟩

theorem Continues.trans (h : Continues f f') (h' : Continues f' f'') : Continues f f'' :=
  ⟨h'.sound, fun hc => h'.covered (h.covered hc), h'.schedule.trans h.schedule⟩

/-- A form with another schedule. -/
def withSchedule (f : Form) (schedule : Schedule) : Form :=
  { f with schedule }

/-- A form that does not recompute anything for the time being. -/
def paused (f : Form) : Form :=
  f.withSchedule (f.schedule.push .recomputeEagerly false)

/-- A form that recomputes as it did before it was paused. -/
def resumed (f : Form) : Form :=
  f.withSchedule (f.schedule.pop .recomputeEagerly)

theorem Settled.withSchedule (h : Settled f) (schedule : Schedule) :
    Settled (f.withSchedule schedule) :=
  h.congr rfl rfl rfl h.levels

theorem quiet_paused (h : f.isSet .updateGraph = true) : f.paused.Quiet :=
  ⟨h, rfl⟩

/-- The schedule of a form does not matter for what an edit has done. -/
theorem Advance.resumed (h : Advance f.paused g) : Advance f g.resumed where
  schedule := by
    show g.schedule.pop .recomputeEagerly = f.schedule
    rw [h.schedule]
    exact Schedule.pop_push f.schedule .recomputeEagerly false
  stopAtOverride := h.stopAtOverride
  cacheRefresh := h.cacheRefresh
  carries := h.carries
  marks := by
    obtain ⟨gone, hm⟩ := h.marks
    exact ⟨gone, hm.formula, hm.pending⟩

theorem updating_of_schedule (h : f.isSet .updateGraph = true) (hschedule : f'.schedule = f.schedule) :
    f'.isSet .updateGraph = true := by
  unfold isSet at h ⊢
  rw [hschedule]
  exact h

/-- An edit that keeps a form settled, up to what follows it. -/
theorem Sound.advance (h : Sound f) (hset : Settled g) (hshaped : g.tree.Shaped) (hadv : Advance f g) :
    Continues f g where
  sound := ⟨hset, hshaped, updating_of_schedule h.updating hadv.schedule⟩
  covered hc := hc.traced h.settled hset hadv.marks (hadv.traced h.settled.current.tree)
  schedule := hadv.schedule

/-- The edit of a paused form, up to what follows it. -/
theorem Sound.resumed (h : Sound f) (hset : Settled g) (hshaped : g.tree.Shaped)
    (hadv : Advance f.paused g) : Continues f g.resumed :=
  h.advance (hset.withSchedule _) hshaped hadv.resumed

/-- A recomputation leaves a sound form sound. -/
theorem Recomputed.continues {report : Report} (hr : Recomputed f report f') (h : Sound f) :
    Continues f f' where
  sound := ⟨hr.settled, hr.shaped h.shaped, updating_of_schedule h.updating hr.schedule⟩
  covered hc n hn := absurd hn (hr.fresh hc n)
  schedule := hr.schedule

theorem Sound.recomputePending (h : Sound f) : ∃ report f', recomputePending f = .ok report f' ∧
    Recomputed f report f' :=
  h.settled.recomputePendingBy

/-- Following up what is pending leaves nothing pending if the form recomputes eagerly. -/
theorem Sound.settle (h : Sound f) : Ends (settle f)
    (fun _ f' => Continues f f' ∧ (f.isSet .recomputeEagerly = true → f'.pending = ∅) ∧
      f'.tree.blank = f.tree.blank)
    (fun _ _ => False) := by
  unfold Form.settle
  split
  next =>
    obtain ⟨report, f', hrun, hr⟩ := h.recomputePending
    refine Ends.bind ?_
    rw [hrun]
    exact ⟨hr.continues h, fun _ => hr.pending, hr.blank⟩
  next hidle =>
    refine ⟨.refl h, fun heager => ?_, rfl⟩
    rw [heager, Bool.true_and] at hidle
    exact Std.ExtTreeSet.isEmpty_iff.1 (by simpa using hidle)

/-- An edit that keeps a form settled keeps it sound, and leaves nothing pending if the form recomputes eagerly. -/
theorem Sound.batch (h : Sound f) {edit : FormM α} (ok : α → Form → Prop) (failed : FormError → Form → Prop)
    (hedit : Ends (edit f.paused)
      (fun a g => Settled g ∧ g.tree.Shaped ∧ Advance f.paused g ∧ ok a g) failed) :
    Ends (batch edit f)
      (fun a f' => Continues f f' ∧ (f.isSet .recomputeEagerly = true → f'.pending = ∅) ∧
        ∃ g, ok a g ∧ f'.tree.blank = g.tree.blank ∧ f'.registry = g.registry ∧
          f'.graph.vertices = g.graph.vertices)
      (fun e f' => ∃ g, failed e g ∧ f' = g.resumed) := by
  unfold Form.batch
  refine Ends.bind (Ends.pure (Ends.bind ?_))
  refine ends_inScope (hedit.mono ?_ fun e g he => ⟨g, he, rfl⟩)
  rintro a g ⟨hset, hshaped, hadv, hok⟩
  have hresumed : Continues f g.resumed := h.resumed hset hshaped hadv
  dsimp only
  split
  next heager =>
    obtain ⟨report, f', hrun, hr⟩ := hresumed.sound.recomputePending
    refine Ends.bind (Ends.bind ?_)
    show Ends (Form.recomputePending g.resumed) _ _
    rw [hrun]
    exact ⟨hresumed.trans (hr.continues hresumed.sound), fun _ => hr.pending, g, hok, hr.blank,
      hr.registry, hr.vertices⟩
  next heager =>
    exact ⟨hresumed, fun he => absurd he heager, g, hok, rfl, rfl, rfl⟩

end LiveForm.Form
