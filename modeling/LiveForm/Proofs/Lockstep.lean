import LiveForm.Proofs.Outcome
import LiveForm.Proofs.Tree.Unevaluated

/-!
# Two runs side by side

`Both` says of two outcomes that they are of the same kind and carry the same result or the same error, and what holds of
the two states that are left. An operation goes in lockstep with itself if its runs from related states end like this and
in related states. There is one rule for each way in which operations are put together.
-/

set_option autoImplicit false

namespace LiveForm

variable {ε σ α β : Type}

/-- Two outcomes are the same result, and the states satisfy the first condition, or they are the same error, and the
states satisfy the second one. -/
def Both (r r' : EStateM.Result ε σ α) (ok : α → σ → σ → Prop) (failed : ε → σ → σ → Prop) : Prop :=
  match r, r' with
  | .ok a s, .ok a' s' => a' = a ∧ ok a s s'
  | .error e s, .error e' s' => e' = e ∧ failed e s s'
  | _, _ => False

namespace Both

variable {r r' : EStateM.Result ε σ α} {ok ok' : α → σ → σ → Prop} {failed failed' : ε → σ → σ → Prop}

theorem mono (h : Both r r' ok failed) (hok : ∀ a s s', ok a s s' → ok' a s s')
    (hfailed : ∀ e s s', failed e s s' → failed' e s s') : Both r r' ok' failed' := by
  cases r <;> cases r'
  case ok.ok => exact ⟨h.1, hok _ _ _ h.2⟩
  case error.error => exact ⟨h.1, hfailed _ _ _ h.2⟩
  all_goals exact h

/-- What holds of each of the two outcomes holds of both. -/
theorem and_ends {okl okr : α → σ → Prop} {failedl failedr : ε → σ → Prop} (h : Both r r' ok failed)
    (hl : Ends r okl failedl) (hr : Ends r' okr failedr) :
    Both r r' (fun a s s' => ok a s s' ∧ okl a s ∧ okr a s') (fun e s s' => failed e s s' ∧ failedl e s ∧ failedr e s') := by
  cases r <;> cases r'
  case ok.ok a s a' s' =>
    obtain ⟨rfl, h⟩ := h
    exact ⟨rfl, h, hl, hr⟩
  case error.error e s e' s' =>
    obtain ⟨rfl, h⟩ := h
    exact ⟨rfl, h, hl, hr⟩
  all_goals exact h

theorem bind {x x' : EStateM ε σ α} {k k' : α → EStateM ε σ β} {s s' : σ} {okb : β → σ → σ → Prop}
    (h : Both (x s) (x' s') (fun a t t' => Both (k a t) (k' a t') okb failed) failed) :
    Both ((x >>= k) s) ((x' >>= k') s') okb failed := by
  have heq : (x >>= k) s = EStateM.bind x k s := rfl
  have heq' : (x' >>= k') s' = EStateM.bind x' k' s' := rfl
  rw [heq, heq', EStateM.bind, EStateM.bind]
  cases hx : x s <;> cases hx' : x' s' <;> rw [hx, hx'] at h
  case ok.ok =>
    obtain ⟨rfl, h⟩ := h
    exact h
  case error.error => exact h
  all_goals exact h.elim

theorem pure {a : α} {s s' : σ} (h : ok a s s') :
    Both ((Pure.pure a : EStateM ε σ α) s) ((Pure.pure a : EStateM ε σ α) s') ok failed :=
  ⟨rfl, h⟩

/-- An operation goes on from the state that it is in. -/
theorem get {k k' : σ → EStateM ε σ α} {s s' : σ} (h : Both (k s s) (k' s' s') ok failed) :
    Both ((MonadState.get >>= k) s) ((MonadState.get >>= k') s') ok failed :=
  h

/-- Both runs fail with the same error, or none of them does. -/
theorem failure?_eq (h : Both r r' ok failed) : (failure? r').map Prod.fst = (failure? r).map Prod.fst := by
  cases r <;> cases r'
  case ok.ok => rfl
  case error.error => exact congrArg some h.1
  all_goals exact h.elim

theorem after {x x' : EStateM ε σ α} {s s' : σ} {R : σ → σ → Prop}
    (h : Both (x s) (x' s') (fun _ => R) fun _ => R) : R (after x s) (after x' s') := by
  unfold LiveForm.after
  cases hx : x s <;> cases hx' : x' s' <;> rw [hx, hx'] at h
  case ok.ok | error.error => exact h.2
  all_goals exact h.elim

end Both

/-- An operation that is run from related states has the same outcome, and leaves related states. -/
def Lockstep (R : σ → σ → Prop) (x : EStateM ε σ α) : Prop :=
  ∀ s s', R s s' → Both (x s) (x s') (fun _ => R) (fun _ => R)

namespace Lockstep

variable {R : σ → σ → Prop}

theorem pure (a : α) : Lockstep R (Pure.pure a : EStateM ε σ α) :=
  fun _ _ h => Both.pure h

theorem bind {x : EStateM ε σ α} {k : α → EStateM ε σ β} (hx : Lockstep R x) (hk : ∀ a, Lockstep R (k a)) :
    Lockstep R (x >>= k) :=
  fun s s' h => Both.bind ((hx s s' h).mono (fun a _ _ h' => hk a _ _ h') fun _ _ _ h' => h')

theorem forM {ι : Type} {body : ι → EStateM ε σ PUnit} (h : ∀ a, Lockstep R (body a)) (l : List ι) :
    Lockstep R (l.forM body) := by
  induction l with
  | nil => exact pure _
  | cons a rest ih =>
    have heq : (a :: rest).forM body = body a >>= fun _ => rest.forM body := rfl
    rw [heq]
    exact bind (h a) fun _ => ih

theorem discard {x : EStateM ε σ α} (hx : Lockstep R x) : Lockstep R (discard x) :=
  bind hx fun _ => pure _

end Lockstep

namespace FormM

variable {R : Form → Form → Prop}

theorem lockstep_update {u : Form → Form} (h : ∀ f g, R f g → R (u f) (u g)) : Lockstep R (update u) :=
  fun f g hfg => ⟨rfl, h f g hfg⟩

theorem both_orUndo {x : FormM α} {undo : Form → Form} {f g : Form} {ok : α → Form → Form → Prop}
    {failed : FormError → Form → Form → Prop}
    (h : Both (x f) (x g) ok fun e f' g' => failed e (undo f') (undo g')) :
    Both (orUndo x undo f) (orUndo x undo g) ok failed := by
  unfold orUndo
  cases hf : x f <;> cases hg : x g <;> rw [hf, hg] at h
  case ok.ok => exact h
  case error.error => exact h
  all_goals exact h.elim

theorem lockstep_orUndo {x : FormM α} {undo : Form → Form} (hx : Lockstep R x)
    (hundo : ∀ f g, R f g → R (undo f) (undo g)) : Lockstep R (orUndo x undo) :=
  fun f g h => both_orUndo ((hx f g h).mono (fun _ _ _ h' => h') fun _ _ _ h' => hundo _ _ h')

/-- What has been changed before an operation fails is changed back by another one, and the operation still fails. -/
theorem both_recover {x undo : FormM Unit} {k : FormM α} {f g : Form} {ok : α → Form → Form → Prop}
    {failed : FormError → Form → Form → Prop}
    (h : Both (x f) (x g) (fun _ f' g' => Both (k f') (k g') ok failed) fun e f' g' =>
      Both (undo f') (undo g') (fun _ => failed e) failed) :
    Both (match x f with
        | .ok () f' => k f'
        | .error e f' =>
          match undo f' with
          | .ok () f' => .error e f'
          | .error e f' => .error e f')
      (match x g with
        | .ok () g' => k g'
        | .error e g' =>
          match undo g' with
          | .ok () g' => .error e g'
          | .error e g' => .error e g') ok failed := by
  cases hf : x f <;> cases hg : x g <;> rw [hf, hg] at h
  case ok.ok => exact h.2
  case error.error e f' e' g' =>
    obtain ⟨rfl, h⟩ := h
    dsimp only
    cases hf' : undo f' <;> cases hg' : undo g' <;> rw [hf', hg'] at h
    case ok.ok => exact ⟨rfl, h.2⟩
    case error.error => exact h
    all_goals exact h.elim
  all_goals exact h.elim

/-- An operation on trees that does not look at the values of formulas is run on both forms. -/
theorem lockstep_onTree {action : FieldTree → Except FormError (α × FieldTree)} (haction : FieldTree.Oblivious action)
    (htree : ∀ f g, R f g → g.tree.unevaluated = f.tree.unevaluated)
    (h : ∀ f g t t', R f g → t'.unevaluated = t.unevaluated → R { f with tree := t } { g with tree := t' }) :
    Lockstep R (onTree action) := by
  intro f g hfg
  have hf := haction f.tree
  have hg := haction g.tree
  rw [htree f g hfg, hf] at hg
  unfold onTree
  cases hf' : action f.tree <;> cases hg' : action g.tree <;> rw [hf', hg'] at hg
  case ok.ok r r' =>
    obtain ⟨ha, ht⟩ := Prod.mk.inj (Except.ok.inj hg)
    exact ⟨ha.symm, h f g r.2 r'.2 hfg ht.symm⟩
  case error.error =>
    exact ⟨(Except.error.inj hg).symm, hfg⟩
  all_goals simp [Except.map] at hg

end FormM

/-- A scope only changes the schedules before and after. -/
theorem both_inScope {x : FormM α} {f g : Form} {switch : Switch} {value : Bool} {ok : α → Form → Form → Prop}
    {failed : FormError → Form → Form → Prop}
    (h : Both (x { f with schedule := f.schedule.push switch value }) (x { g with schedule := g.schedule.push switch value })
      (fun a f' g' => ok a { f' with schedule := f'.schedule.pop switch } { g' with schedule := g'.schedule.pop switch })
      (fun e f' g' =>
        failed e { f' with schedule := f'.schedule.pop switch } { g' with schedule := g'.schedule.pop switch })) :
    Both (inScope switch value x f) (inScope switch value x g) ok failed := by
  unfold inScope
  simp only [Scheduled.withSchedule, Scheduled.schedule]
  cases hf : x { f with schedule := f.schedule.push switch value } <;>
    cases hg : x { g with schedule := g.schedule.push switch value } <;> rw [hf, hg] at h
  case ok.ok => exact h
  case error.error => exact h
  all_goals exact h.elim

end LiveForm
