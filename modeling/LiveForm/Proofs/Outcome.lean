import LiveForm.Form.Basic

/-!
# The two ways in which an operation ends

`Ends` says of the outcome of an operation what holds if it returns and what holds if it fails. There is one
rule for each way in which operations are put together.
-/

set_option autoImplicit false

namespace LiveForm

variable {ε σ α β : Type}

/-- An outcome satisfies the first condition if it is a result, and the second one if it is an error. -/
def Ends (r : EStateM.Result ε σ α) (ok : α → σ → Prop) (failed : ε → σ → Prop) : Prop :=
  match r with
  | .ok a s => ok a s
  | .error e s => failed e s

/-- Whether an outcome is a result. -/
def succeeds : EStateM.Result ε σ α → Bool
  | .ok .. => true
  | .error .. => false

/-- The error that an outcome is, with the state that is left. -/
def failure? : EStateM.Result ε σ α → Option (ε × σ)
  | .ok .. => none
  | .error e s => some (e, s)

theorem failure?_eq_some {r : EStateM.Result ε σ α} {e : ε} {s : σ} : failure? r = some (e, s) ↔ r = .error e s := by
  cases r <;> simp [failure?]

theorem exists_ok_of_succeeds {r : EStateM.Result ε σ α} (h : succeeds r = true) : ∃ a s, r = .ok a s := by
  cases r with
  | ok a s => exact ⟨a, s, rfl⟩
  | error e s => cases h

theorem exists_error_of_fails {r : EStateM.Result ε σ α} (h : succeeds r = false) : ∃ e s, r = .error e s := by
  cases r with
  | ok a s => cases h
  | error e s => exact ⟨e, s, rfl⟩

theorem bind_of_ok {x : EStateM ε σ α} {k : α → EStateM ε σ β} {a : α} {s s' : σ} (h : x s = .ok a s') :
    (x >>= k) s = k a s' := by
  have heq : (x >>= k) s = EStateM.bind x k s := rfl
  rw [heq, EStateM.bind, h]

theorem bind_of_error {x : EStateM ε σ α} {k : α → EStateM ε σ β} {e : ε} {s s' : σ} (h : x s = .error e s') :
    (x >>= k) s = .error e s' := by
  have heq : (x >>= k) s = EStateM.bind x k s := rfl
  rw [heq, EStateM.bind, h]

/-- Operations put together return only if each of them does. -/
theorem exists_of_bind_ok {x : EStateM ε σ α} {k : α → EStateM ε σ β} {b : β} {s s' : σ} (h : (x >>= k) s = .ok b s') :
    ∃ a s₁, x s = .ok a s₁ ∧ k a s₁ = .ok b s' := by
  cases hx : x s with
  | ok a s₁ =>
    rw [bind_of_ok hx] at h
    exact ⟨a, s₁, rfl, h⟩
  | error e s₁ =>
    rw [bind_of_error hx] at h
    cases h

namespace Ends

variable {ok ok' : α → σ → Prop} {failed failed' : ε → σ → Prop}

theorem mono {r : EStateM.Result ε σ α} (h : Ends r ok failed) (hok : ∀ a s, ok a s → ok' a s)
    (hfailed : ∀ e s, failed e s → failed' e s) : Ends r ok' failed' := by
  cases r with
  | ok a s => exact hok a s h
  | error e s => exact hfailed e s h

theorem and {r : EStateM.Result ε σ α} (h : Ends r ok failed) (h' : Ends r ok' failed') :
    Ends r (fun a s => ok a s ∧ ok' a s) (fun e s => failed e s ∧ failed' e s) := by
  cases r <;> exact ⟨h, h'⟩

theorem of_ok {r : EStateM.Result ε σ α} (h : Ends r ok failed) {a : α} {s : σ} (hr : r = .ok a s) :
    ok a s := by
  subst hr
  exact h

theorem of_error {r : EStateM.Result ε σ α} (h : Ends r ok failed) {e : ε} {s : σ}
    (hr : r = .error e s) : failed e s := by
  subst hr
  exact h

/-- An outcome is known once it is known how it ends. -/
theorem eq {r r' : EStateM.Result ε σ α} (h : Ends r (fun a s => r' = .ok a s) fun e s => r' = .error e s) :
    r = r' := by
  cases r <;> exact h.symm

theorem bind {x : EStateM ε σ α} {k : α → EStateM ε σ β} {s : σ} {okb : β → σ → Prop}
    (h : Ends (x s) (fun a s' => Ends (k a s') okb failed) failed) :
    Ends ((x >>= k) s) okb failed := by
  have heq : (x >>= k) s = EStateM.bind x k s := rfl
  rw [heq, EStateM.bind]
  cases hx : x s with
  | ok a s' => rw [hx] at h; exact h
  | error e s' => rw [hx] at h; exact h

theorem pure {a : α} {s : σ} (h : ok a s) : Ends ((Pure.pure a : EStateM ε σ α) s) ok failed := h

/-- A loop keeps what each of its rounds keeps. The invariant may speak of the items that are left. -/
theorem forM {ι : Type} {I : List ι → σ → Prop} {body : ι → EStateM ε σ PUnit} {l : List ι} {s : σ}
    (hstep : ∀ a rest s, I (a :: rest) s → Ends (body a s) (fun _ s' => I rest s') failed)
    (h : I l s) : Ends (l.forM body s) (fun _ s' => I [] s') failed := by
  induction l generalizing s with
  | nil => exact h
  | cons a rest ih =>
    have heq : (a :: rest).forM body s = (body a >>= fun _ => rest.forM body) s := rfl
    rw [heq]
    exact bind ((hstep a rest s h).mono (fun _ s' h' => ih h') fun _ _ he => he)

end Ends

/-- The state that an operation leaves behind, whether it returns or fails. -/
def after (x : EStateM ε σ α) (s : σ) : σ :=
  match x s with
  | .ok _ s' => s'
  | .error _ s' => s'

theorem after_of_ok {x : EStateM ε σ α} {a : α} {s s' : σ} (h : x s = .ok a s') : after x s = s' := by
  rw [after, h]

theorem after_of_error {x : EStateM ε σ α} {e : ε} {s s' : σ} (h : x s = .error e s') : after x s = s' := by
  rw [after, h]

theorem Ends.after {x : EStateM ε σ α} {s : σ} {P : σ → Prop} (h : Ends (x s) (fun _ => P) (fun _ => P)) :
    P (after x s) := by
  unfold LiveForm.after
  cases hx : x s with
  | ok a s' => exact h.of_ok hx
  | error e s' => exact h.of_error hx

/-- An operation keeps a property of the state, however it ends. -/
def Preserves (P : σ → Prop) (x : EStateM ε σ α) : Prop :=
  ∀ s, P s → Ends (x s) (fun _ => P) (fun _ => P)

namespace Preserves

variable {P : σ → Prop}

theorem pure (a : α) : Preserves P (Pure.pure a : EStateM ε σ α) :=
  fun _ h => h

theorem bind {x : EStateM ε σ α} {k : α → EStateM ε σ β} (hx : Preserves P x)
    (hk : ∀ a, Preserves P (k a)) : Preserves P (x >>= k) :=
  fun s h => Ends.bind ((hx s h).mono (fun a s' h' => hk a s' h') fun _ _ h' => h')

theorem forM {ι : Type} {body : ι → EStateM ε σ PUnit} (h : ∀ a, Preserves P (body a))
    (l : List ι) : Preserves P (l.forM body) :=
  fun _ hs => Ends.forM (I := fun _ => P) (fun a _ s h' => h a s h') hs

theorem discard {x : EStateM ε σ α} (hx : Preserves P x) : Preserves P (discard x) :=
  bind hx fun _ => pure _

end Preserves

/-- An operation comes out as planned: it fails with the error of the plan, or it returns, and what it returns and leaves
behind is as it should be by the plan. -/
def Realizes (r : EStateM.Result ε σ α) (plan : Except ε β) (ok : β → α → σ → Prop) : Prop :=
  match plan with
  | .ok b => ∃ a s, r = .ok a s ∧ ok b a s
  | .error e => ∃ s, r = .error e s

namespace Realizes

variable {γ δ : Type} {plan : Except ε β} {ok ok' : β → α → σ → Prop}

theorem bind {x : EStateM ε σ α} {k : α → EStateM ε σ γ} {s : σ} {next : β → Except ε δ} {okd : δ → γ → σ → Prop}
    (h : Realizes (x s) plan ok) (hk : ∀ b a s', ok b a s' → Realizes (k a s') (next b) okd) :
    Realizes ((x >>= k) s) (plan >>= next) okd := by
  cases plan with
  | ok b =>
    obtain ⟨a, s', hrun, hok⟩ := h
    rw [bind_of_ok hrun]
    exact hk b a s' hok
  | error e =>
    obtain ⟨s', hrun⟩ := h
    exact ⟨s', bind_of_error hrun⟩

theorem mono {r : EStateM.Result ε σ α} (h : Realizes r plan ok) (hok : ∀ b a s, ok b a s → ok' b a s) :
    Realizes r plan ok' := by
  cases plan with
  | ok b =>
    obtain ⟨a, s, hrun, hb⟩ := h
    exact ⟨a, s, hrun, hok b a s hb⟩
  | error e => exact h

/-- A plan may say something else about the same outcome. -/
theorem map {r : EStateM.Result ε σ α} {φ : β → δ} {okd : δ → α → σ → Prop} (h : Realizes r plan ok)
    (hok : ∀ b a s, ok b a s → okd (φ b) a s) : Realizes r (plan >>= fun b => .ok (φ b)) okd := by
  cases plan with
  | ok b =>
    obtain ⟨a, s, hrun, hb⟩ := h
    exact ⟨a, s, hrun, hok b a s hb⟩
  | error e => exact h

end Realizes

namespace FormM

variable {P : Form → Prop} {f : Form} {ok : α → Form → Prop} {failed : FormError → Form → Prop}

theorem ends_update {g : Form → Form} {ok : PUnit → Form → Prop} (h : ok () (g f)) :
    Ends (update g f) ok failed := h

theorem preserves_update {g : Form → Form} (h : ∀ f, P f → P (g f)) : Preserves P (update g) :=
  h

theorem ends_orUndo {x : FormM α} {undo : Form → Form}
    (h : Ends (x f) ok fun e f => failed e (undo f)) : Ends (orUndo x undo f) ok failed := by
  unfold orUndo
  cases hx : x f with
  | ok a f' => rw [hx] at h; exact h
  | error e f' => rw [hx] at h; exact h

theorem ends_onTree {action : FieldTree → Except FormError (α × FieldTree)}
    (hok : ∀ a t, action f.tree = .ok (a, t) → ok a { f with tree := t })
    (hfailed : ∀ e, action f.tree = .error e → failed e f) : Ends (onTree action f) ok failed := by
  unfold onTree
  cases h : action f.tree with
  | ok p => exact hok p.1 p.2 h
  | error e => exact hfailed e h

theorem ends_editTree {action : FieldTree → Except FormError FieldTree} {ok : Unit → Form → Prop}
    (hok : ∀ t, action f.tree = .ok t → ok () { f with tree := t })
    (hfailed : ∀ e, action f.tree = .error e → failed e f) : Ends (editTree action f) ok failed := by
  refine ends_onTree ?_ ?_
  · intro _ t h
    cases ht : action f.tree with
    | ok t' =>
      simp only [ht, Except.map, Except.ok.injEq, Prod.mk.injEq, true_and] at h
      exact h ▸ hok t' ht
    | error => simp [ht, Except.map] at h
  · intro e h
    cases ht : action f.tree with
    | ok t' => simp [ht, Except.map] at h
    | error e' =>
      simp only [ht, Except.map, Except.error.injEq] at h
      exact h ▸ hfailed e' ht

end FormM

/-- A scope only changes the schedule before and after. -/
theorem ends_inScope {x : FormM α} {f : Form} {switch : Switch} {value : Bool}
    {ok : α → Form → Prop} {failed : FormError → Form → Prop}
    (h : Ends (x { f with schedule := f.schedule.push switch value })
      (fun a f' => ok a { f' with schedule := f'.schedule.pop switch })
      (fun e f' => failed e { f' with schedule := f'.schedule.pop switch })) :
    Ends (inScope switch value x f) ok failed := by
  cases hx : x { f with schedule := f.schedule.push switch value } with
  | ok a f' =>
    rw [hx] at h
    simp only [inScope, Scheduled.withSchedule, Scheduled.schedule, hx]
    exact h
  | error e f' =>
    rw [hx] at h
    simp only [inScope, Scheduled.withSchedule, Scheduled.schedule, hx]
    exact h

/-- The same for what has been planned. -/
theorem Realizes.inScope {plan : Except FormError β} {ok : β → α → Form → Prop} {x : FormM α} {f : Form} {switch : Switch}
    {value : Bool} (h : Realizes (x { f with schedule := f.schedule.push switch value }) plan ok) :
    Realizes (LiveForm.inScope switch value x f) plan fun b a g =>
      ∃ g₀, ok b a g₀ ∧ g = { g₀ with schedule := g₀.schedule.pop switch } := by
  unfold Realizes at h ⊢
  cases plan with
  | ok b =>
    obtain ⟨a, g, hrun, hok⟩ := h
    refine ⟨a, _, ?_, g, hok, rfl⟩
    simp only [LiveForm.inScope, Scheduled.withSchedule, Scheduled.schedule, hrun]
  | error e =>
    obtain ⟨g, hrun⟩ := h
    refine ⟨{ g with schedule := g.schedule.pop switch }, ?_⟩
    simp only [LiveForm.inScope, Scheduled.withSchedule, Scheduled.schedule, hrun]

theorem Schedule.pop_push (s : Schedule) (switch : Switch) (value : Bool) :
    (s.push switch value).pop switch = s := by
  cases switch <;> rfl

end LiveForm
