import LiveForm.Proofs.Form.Agreement

/-!
# What becomes pending

Whatever is reported to the graph, a node becomes pending only if it has a formula, or else if its value was entered. A
node that was pending stays so until it leaves the graph or all that is pending is followed up.
-/

set_option autoImplicit false

namespace LiveForm.Form

variable {α β : Type} {f f' g : Form} {new gone : NodeId → Prop} {n m x : NodeId} {id : BindingId}
  {unread : NodeId → Prop} {order : VisitOrder} {mode : Refresh}

/-- Only users of bindings have become pending, and all that was pending still is. No formula has changed. -/
structure Tells (f g : Form) : Prop where
  formula : ∀ x, g.graph.formula? x = f.graph.formula? x
  serves : ∀ id x, g.registry.Serves id x → f.registry.Serves id x
  pending : ∀ x ∈ g.pending, x ∈ f.pending ∨ ∃ id, f.registry.Serves id x
  kept : ∀ x ∈ f.pending, x ∈ g.pending

/-- Only formulas and nodes that are `new` have become pending, and of what was pending only nodes that are `gone` are
not any more. A node that is pending has kept its formula, unless it is new. -/
structure Minds (new gone : NodeId → Prop) (f g : Form) : Prop where
  pending : ∀ x ∈ g.pending, x ∈ f.pending ∨ new x ∨ (g.graph.formula? x).isSome
  formula : ∀ x ∈ g.pending, (f.graph.formula? x).isSome → new x ∨ (g.graph.formula? x).isSome
  kept : ∀ x ∈ f.pending, x ∈ g.pending ∨ gone x

theorem Tells.refl (f : Form) : Tells f f :=
  ⟨fun _ => rfl, fun _ _ hs => hs, fun _ hx => .inl hx, fun _ hx => hx⟩

theorem Tells.trans (h : Tells f f') (h' : Tells f' g) : Tells f g where
  formula x := (h'.formula x).trans (h.formula x)
  serves id x hs := h.serves id x (h'.serves id x hs)
  pending x hx := by
    rcases h'.pending x hx with hx | ⟨id, hs⟩
    · exact h.pending x hx
    · exact .inr ⟨id, h.serves id x hs⟩
  kept x hx := h'.kept x (h.kept x hx)

theorem Minds.refl (f : Form) : Minds new gone f f :=
  ⟨fun _ hx => .inl hx, fun _ _ hF => .inr hF, fun _ hx => .inl hx⟩

theorem Minds.trans (h : Minds new gone f f') (h' : Minds new gone f' g) : Minds new gone f g where
  pending x hx := by
    rcases h'.pending x hx with hx' | hx'
    · rcases h.pending x hx' with hold | hnew | hF
      · exact .inl hold
      · exact .inr (.inl hnew)
      · exact .inr (h'.formula x hx hF)
    · exact .inr hx'
  formula x hx hF := by
    rcases h'.pending x hx with hx' | hx'
    · exact (h.formula x hx' hF).elim .inl (h'.formula x hx)
    · exact hx'
  kept x hx := (h.kept x hx).elim (h'.kept x) .inr

/-- The users of bindings have formulas. -/
theorem Tells.minds (h : Tells f g) (hco : CoherentBut { unread } f) : Minds new gone f g where
  pending x hx := by
    rcases h.pending x hx with hold | ⟨id, hs⟩
    · exact .inl hold
    · obtain ⟨F, hF, -⟩ := ((hco.consumers id x).1 hs).resolve_right not_false
      exact .inr (.inr (by rw [h.formula, hF]; rfl))
  formula x _ hF := .inr (by rwa [h.formula])
  kept x hx := .inl (h.kept x hx)

/-- The tree, the levels and the schedule do not matter. -/
theorem Minds.congr {f₀ g₀ : Form} (h : Minds new gone f g) (hf : f₀.pending = f.pending)
    (hf' : f₀.graph.vertices = f.graph.vertices) (hg : g₀.pending = g.pending)
    (hg' : g₀.graph.vertices = g.graph.vertices) : Minds new gone f₀ g₀ := by
  have hformula {f g : Form} (h : f.graph.vertices = g.graph.vertices) (x : NodeId) :
      f.graph.formula? x = g.graph.formula? x := by
    rw [Graph.formula?, Graph.get?, h, Graph.formula?, Graph.get?]
  refine ⟨fun x hx => ?_, fun x hx hF => ?_, fun x hx => ?_⟩
  · rw [hg] at hx
    rw [hf, hformula hg']
    exact h.pending x hx
  · rw [hg] at hx
    rw [hformula hf'] at hF
    rw [hformula hg']
    exact h.formula x hx hF
  · rw [hf] at hx
    rw [hg]
    exact h.kept x hx

section Linking

theorem tells_resetPredecessors : Tells f (f.resetPredecessors n) :=
  ⟨fun _ => by simp [resetPredecessors], fun _ _ hs => hs, fun _ hx => .inl hx, fun _ hx => hx⟩

theorem tells_prune : Tells f (f.prune n) :=
  ⟨fun _ => by simp [prune], fun _ _ hs => hs, fun _ hx => .inl hx, fun _ hx => hx⟩

theorem tells_unlink : Tells f (f.unlink id m) :=
  ⟨fun _ => formula?_unlink, fun _ _ hs => serves_unlink.1 hs, fun _ hx => (mem_pending_unlink.1 hx).imp_right fun hs =>
    ⟨id, hs⟩, fun _ hx => mem_pending_unlink.2 (.inl hx)⟩

theorem tells_linked : Tells f (f.linked id m) :=
  ⟨fun _ => formula?_linked, fun _ _ hs => serves_linked.1 hs, fun _ hx => (mem_pending_linked.1 hx).imp_right fun hs =>
    ⟨id, hs⟩, fun _ hx => mem_pending_linked.2 (.inl hx)⟩

theorem ends_tells_link : Ends (link id m f) (fun _ => Tells f) (fun _ => Tells f) := by
  rw [link_eq]
  split
  · exact .refl f
  · exact tells_linked

theorem tells_foldl_unlink {ι : Type} (items : List ι) (step : Form → ι → Form) (hstep : ∀ f i, Tells f (step f i)) :
    Tells f (items.foldl step f) := by
  induction items generalizing f with
  | nil => exact .refl f
  | cons i rest ih => exact (hstep f i).trans ih

theorem ends_tells_forM {ι : Type} (items : List ι) (body : ι → FormM Unit)
    (hbody : ∀ i f, Ends (body i f) (fun _ => Tells f) (fun _ => Tells f)) :
    Ends (items.forM body f) (fun _ => Tells f) (fun _ => Tells f) := by
  refine Ends.forM (I := fun _ => Tells f) (fun i rest g hg => ?_) (.refl f)
  exact (hbody i g).mono (fun _ _ hg' => hg.trans hg') fun _ _ hg' => hg.trans hg'

/-- Bringing a cache up to date tells the users of the binding. -/
theorem ends_tells_syncBy : Ends (syncBy order mode id f) (fun _ => Tells f) (fun _ => Tells f) := by
  unfold syncBy
  split
  · exact .refl f
  · have hremoved (fields : List NodeId) : Tells f (fields.foldl (·.unlink id ·) f) :=
      tells_foldl_unlink fields _ fun _ _ => tells_unlink
    refine (ends_tells_forM _ (link id) fun _ _ => ends_tells_link).mono ?_ ?_
    · exact fun _ _ hg => (hremoved _).trans hg
    · exact fun _ _ hg => (hremoved _).trans hg

theorem ends_tells_refuseCircle : Ends (refuseCircle n id f) (fun _ => Tells f) (fun _ => Tells f) := by
  unfold refuseCircle
  dsimp only
  split
  · exact .refl f
  · exact .refl f

theorem ends_tells_connect (ids : List BindingId) : Ends (connect n ids f) (fun _ => Tells f) (fun _ => Tells f) := by
  refine Ends.bind ((ends_tells_forM ids _ fun id g => Ends.bind (ends_tells_refuseCircle.mono ?_ ?_)).mono ?_ ?_)
  · exact fun _ g' hg' => ends_tells_syncBy.mono (fun _ _ hg => hg'.trans hg) fun _ _ hg => hg'.trans hg
  · exact fun _ _ hg => hg
  · exact fun _ g hg => FormM.ends_update (hg.trans tells_resetPredecessors)
  · exact fun _ _ hg => hg

end Linking

section Leaving

theorem tells_forget : Tells f (f.forget n id) :=
  ⟨fun _ => formula?_forget, fun _ _ hs => serves_forget.1 hs, fun _ hx => (mem_pending_forget.1 hx).imp_right fun hs =>
    ⟨id, hs.1⟩, fun _ hx => mem_pending_forget.2 (.inl hx)⟩

theorem tells_unlinkAll (fields : List NodeId) : Tells f (f.unlinkAll id fields) := by
  refine tells_foldl_unlink fields _ fun g field => ?_
  exact ⟨fun _ => by simp [prune], fun _ _ hs => hs, fun _ hx => .inl hx, fun _ hx => hx⟩

theorem tells_giveUp : Tells f (f.giveUp n id) := by
  unfold giveUp
  have hserves (i : BindingId) (x : NodeId) (hs : (f.registry.release id n).2.Serves i x) : f.registry.Serves i x :=
    (Registry.serves_release.1 hs).1
  have hreleased : Tells f { f with registry := (f.registry.release id n).2 } :=
    ⟨fun _ => rfl, hserves, fun _ hx => .inl hx, fun _ hx => hx⟩
  split
  next hrel =>
    rw [hrel] at hreleased
    exact hreleased
  next hrel =>
    rw [hrel] at hreleased
    exact hreleased.trans (tells_unlinkAll _)

/-- A node that leaves the graph is not pending any more. -/
theorem CoherentBut.minds_detach (h : CoherentBut { unread } f) (hunread : ∀ x, unread x → x = n) (hn : gone n) :
    Minds new gone f (f.detach n) := by
  have hdet : Detached n f (f.detach n) := h.detach_spec hunread
  unfold Form.detach at hdet ⊢
  cases hv : f.graph.get? n with
  | none => exact .refl f
  | some v =>
    simp only [hv] at hdet
    dsimp only at hdet ⊢
    generalize hg : List.foldl _ (List.foldl _ { f with graph := f.graph.erase n } _) _ = g at hdet ⊢
    have htells : Tells { f with graph := f.graph.erase n } g := by
      rw [← hg]
      exact (tells_foldl_unlink _ _ fun _ _ => tells_forget).trans (tells_foldl_unlink _ _ fun _ _ => tells_giveUp)
    have hleft {x : NodeId} (hx : x ∈ g.pending.erase n) : x ≠ n ∧ x ∈ g.pending := by
      rw [Std.ExtTreeSet.mem_erase] at hx
      exact ⟨fun heq => hx.1 (by simp [heq]), hx.2⟩
    have hformula {x : NodeId} (hx : x ≠ n) : g.graph.formula? x = f.graph.formula? x := by
      have hF := hdet.formula x
      rwa [if_neg hx] at hF
    refine ⟨fun x hx => ?_, fun x hx hF => ?_, fun x hx => ?_⟩
    · obtain ⟨hxn, hx⟩ := hleft hx
      rcases htells.pending x hx with hold | ⟨id, hs⟩
      · exact .inl hold
      · obtain ⟨F, hF, -⟩ := ((h.consumers id x).1 hs).resolve_right not_false
        exact .inr (.inr (by rw [Graph.formula?_outdated, hformula hxn, hF]; rfl))
    · exact .inr (by rwa [Graph.formula?_outdated, hformula (hleft hx).1])
    · by_cases hxn : x = n
      · exact .inr (hxn ▸ hn)
      · refine .inl (Std.ExtTreeSet.mem_erase.2 ⟨fun heq => hxn ?_, htells.kept x hx⟩)
        exact (Std.LawfulEqCmp.compare_eq_iff_eq.1 heq).symm

end Leaving

section Reporting

variable {e : Option String} {R : Form → Form → Prop}

/-- A relation between forms that composes, and that holds for each of the steps that a report of a node consists of. -/
structure Carried (n : NodeId) (R : Form → Form → Prop) : Prop where
  refl : ∀ f, R f f
  trans : ∀ f f' g, R f f' → R f' g → R f g
  tells : ∀ (unread : NodeId → Prop) f g, CoherentBut { unread } f → Tells f g → R f g
  detach : ∀ (unread : NodeId → Prop) f, CoherentBut { unread } f → (∀ x, unread x → x = n) → R f (f.detach n)
  seats : ∀ f r, R f { f with registry := r }
  withFormula : ∀ f F r, R f (f.withFormula n F r)
  read : ∀ f, (f.graph.formula? n).isSome → R f (f.addPending [n])

theorem carried_minds (hn : gone n) : Carried n (Minds new gone) where
  refl := .refl
  trans _ _ _ h h' := h.trans h'
  tells _ _ _ hco h := h.minds hco
  detach _ _ hco hunread := hco.minds_detach hunread hn
  seats f _ := (Minds.refl f).congr rfl rfl rfl rfl
  withFormula f F r :=
    { pending := fun x hx => by
        rcases mem_addPending.1 hx with hold | hnew
        · exact .inl hold
        · obtain rfl := List.mem_singleton.1 hnew
          exact .inr (.inr (by rw [formula?_withFormula, if_pos rfl]; rfl))
      formula := fun x _ hF => by
        rw [formula?_withFormula]
        split
        · exact .inr rfl
        · exact .inr hF
      kept := fun x hx => .inl (mem_addPending.2 (.inl hx)) }
  read f hF :=
    { pending := fun x hx => (mem_addPending.1 hx).imp_right fun hnew => by
        obtain rfl := List.mem_singleton.1 hnew
        exact .inr hF
      formula := fun x _ hFx => .inr hFx
      kept := fun x hx => .inl (mem_addPending.2 (.inl hx)) }

/-- Reading and connecting a formula. -/
theorem Consistent.carried_attachFormula (h : Consistent f) (hR : Carried n R) (hn : f.graph.formula? n = none)
    (text : String) : Ends (Form.attachFormula n text f) (fun _ => R f) (fun _ => R f) := by
  have hparse := Formula.parse_spec (t := f.tree) h.coherent.fresh (h.coherent.not_serves hn) h.coherent.used text
  rw [attachFormula_eq]
  cases hp : Formula.parse f.tree n text f.registry with
  | error error r => exact hR.seats f r
  | ok F r =>
    obtain ⟨hanchor, htaken⟩ := hparse.of_ok hp
    have hjoining := h.joining hn hanchor htaken
    have hconnect := hjoining.connect (P := fun _ _ => True) (fun id hid => uses_withFormula hid) trivial
      fun _ _ _ _ _ _ _ _ _ _ => trivial
    have hread : R f (f.withFormula n F r) := hR.withFormula f F r
    refine FormM.ends_orUndo ((hconnect.and (ends_tells_connect F.bindings)).mono ?_ ?_)
    · rintro _ g ⟨-, hg⟩
      exact hR.trans _ _ _ hread (hR.tells _ _ _ hjoining.coherent hg)
    · rintro error g ⟨⟨hj, -⟩, hg⟩
      have hconnected := hR.trans _ _ _ hread (hR.tells _ _ _ hjoining.coherent hg)
      exact hR.trans _ _ _ hconnected (hR.detach _ g hj.coherent fun _ hx => hx)

theorem Consistent.carried_linkOnce (h : Consistent f) (hR : Carried n R) :
    Ends (linkOnce n id f) (fun _ => R f) (fun _ => R f) := by
  unfold Form.linkOnce
  split
  · exact hR.refl f
  · refine FormM.ends_orUndo ((h.coherent.link_spec.and ends_tells_link).mono ?_ ?_)
    · rintro _ g ⟨_, hg⟩
      exact hR.tells _ _ _ h.coherent hg
    · rintro _ g ⟨⟨rfl, -⟩, -⟩
      exact hR.detach _ g h.coherent fun _ hx => hx.elim

/-- Taking a node into the graph. -/
theorem Consistent.carried_attach (h : Consistent f) (hR : Carried n R) (e : Option String) :
    Ends (attach n e f) (fun _ => R f) (fun _ => R f) := by
  unfold Form.attach
  split
  · exact hR.refl f
  split
  · exact hR.refl f
  dsimp only
  generalize hf₀ : (if (f.graph.formula? n).isSome then f.detach n else f) = f₀
  have h₀ : R f f₀ ∧ Consistent f₀ ∧ f₀.graph.formula? n = none := by
    rw [← hf₀]
    split
    next =>
      obtain ⟨hcons, hdet⟩ := h.detach n
      exact ⟨hR.detach _ f h.coherent fun _ hx => hx.elim, hcons, by rw [hdet.formula, if_pos rfl]⟩
    next hnone => exact ⟨hR.refl f, h, by simpa using hnone⟩
  obtain ⟨hleft, hcons, hnone⟩ := h₀
  have hread : Ends ((e.forM (Form.attachFormula n) : FormM Unit) f₀)
      (fun _ g => Consistent g ∧ R f g) (fun _ => R f) := by
    cases e with
    | none => exact ⟨hcons, hleft⟩
    | some text =>
      have hattach : Ends (Form.attachFormula n text f₀) (fun _ => R f₀) (fun _ => R f₀) :=
        hcons.carried_attachFormula hR hnone text
      refine ((hcons.attachFormula hnone text).and hattach).mono ?_ ?_
      · rintro _ g ⟨hg, hg'⟩
        exact ⟨hg.1, hR.trans _ _ _ hleft hg'⟩
      · rintro _ g ⟨_, hg'⟩
        exact hR.trans _ _ _ hleft hg'
  refine Ends.bind (hread.mono ?_ fun _ _ hg => hg)
  rintro _ g ⟨hg, hfg⟩
  refine Ends.bind (Ends.pure (Ends.bind ?_))
  -- The bindings that stand for the node are in the registry, and stay there.
  refine (Ends.forM (I := fun rest g' => Steady g.tree.blank g.schedule g' ∧ R f g' ∧
    ∀ id ∈ rest, (g'.registry.get? id).isSome) ?_ ⟨.start hg, hfg, fun id hid => ?_⟩).mono ?_ fun _ _ hg' => hg'
  · rintro id rest g' ⟨hsteady, hg', hsome⟩
    have hlink : Ends (Form.linkOnce n id g') (fun _ => R g') (fun _ => R g') :=
      hsteady.consistent.carried_linkOnce hR
    refine ((hsteady.linkOnce (hsome id List.mem_cons_self)).and hlink).mono ?_ ?_
    · rintro _ g'' ⟨⟨hsteady', hsame⟩, hg''⟩
      exact ⟨hsteady', hR.trans _ _ _ hg' hg'', fun i hi => by rw [hsame]; exact hsome i (List.mem_cons_of_mem _ hi)⟩
    · rintro _ g'' ⟨_, hg''⟩
      exact hR.trans _ _ _ hg' hg''
  · obtain ⟨b, hb, -⟩ := Registry.mem_accepting.1 hid
    rw [hb]
    rfl
  · rintro _ g' ⟨hsteady, hg', -⟩
    exact FormM.ends_update (hR.trans _ _ _ hg' (hR.tells _ _ _ hsteady.consistent.coherent tells_prune))

/-- Determining the links of a node again. -/
theorem Consistent.carried_relink (h : Consistent f) (hR : Carried n R) :
    Ends (relink n f) (fun _ => R f) (fun _ => R f) := by
  unfold relink
  split
  · exact hR.refl f
  have hformula : Ends (relinkFormula n f) (fun _ => R f) (fun _ => R f) := by
    unfold relinkFormula
    split
    · exact hR.refl f
    next F hF =>
      have hsync := Preserves.forM (fun id => (Steady.syncBy .fromScratch id :
        Preserves (Steady f.tree.blank f.schedule) (sync .fromScratch id))) F.bindings f (.start h)
      refine Ends.bind ((hsync.and (ends_tells_forM F.bindings (sync .fromScratch) fun _ _ => ends_tells_syncBy)).mono
        ?_ ?_)
      · rintro _ g ⟨hsteady, hg⟩
        have hreset : Tells g (g.resetPredecessors n) := tells_resetPredecessors
        have hsome : ((g.resetPredecessors n).graph.formula? n).isSome := by
          rw [hreset.formula, hg.formula, hF]
          rfl
        have hcached := hR.trans _ _ _ (hR.tells _ _ _ h.coherent hg) (hR.tells _ _ _ hsteady.consistent.coherent hreset)
        exact FormM.ends_update (hR.trans _ _ _ hcached (hR.read _ hsome))
      · exact fun _ _ hg => hR.tells _ _ _ h.coherent hg.2
  refine Ends.bind (((Steady.relinkFormula n f (.start h)).and hformula).mono ?_ fun _ _ hg => hg.2)
  rintro _ g ⟨hsteady, hg⟩
  have hnode : Ends (relinkNode n g) (fun _ => Tells g) (fun _ => Tells g) := by
    unfold relinkNode
    have hunlinked (ids : List BindingId) : Tells g (ids.foldl (·.unlink · n) g) :=
      tells_foldl_unlink ids _ fun _ _ => tells_unlink
    refine (ends_tells_forM _ (link · n) fun _ _ => ends_tells_link).mono ?_ ?_
    · exact fun _ _ hg => (hunlinked _).trans hg
    · exact fun _ _ hg => (hunlinked _).trans hg
  have htold {g' : Form} (hg' : Tells g g') : R f g' :=
    hR.trans _ _ _ hg (hR.tells _ _ _ hsteady.consistent.coherent hg')
  refine Ends.bind (hnode.mono ?_ fun _ _ => htold)
  intro _ g' hg'
  have hpruned : Tells g' { g'.prune n with graph := (g'.prune n).graph.outdated } := by
    have htells : Tells g' (g'.prune n) := tells_prune
    exact ⟨htells.formula, htells.serves, htells.pending, htells.kept⟩
  exact FormM.ends_update (htold (hg'.trans hpruned))

theorem carried_whenUpdating {action : FormM Unit} (hR : Carried n R)
    (h : Ends (action f) (fun _ => R f) (fun _ => R f)) :
    Ends (whenUpdating action f) (fun _ => R f) (fun _ => R f) := by
  unfold whenUpdating
  split
  · exact h
  · exact hR.refl f

/-- Bindings that get to know the new path of their base. -/
theorem tells_rekey (old : Path) (new : Path) : Tells f { f with registry := f.registry.rekey old new } :=
  ⟨fun _ => rfl, fun _ _ hs => Registry.serves_rekey.1 hs, fun _ hx => .inl hx, fun _ hx => hx⟩

theorem Consistent.carried_moveBindings (h : Consistent f) (hR : Carried n R) (old : Path) :
    Ends (moveBindings old n f) (fun _ => R f) (fun _ => R f) :=
  carried_whenUpdating hR (FormM.ends_update (hR.tells _ _ _ h.coherent (tells_rekey old (f.tree.path n))))

section Settling

variable (h : Consistent f) (hR : Carried n R)
  (hsettle : ∀ g, Steady f.tree.blank f.schedule g → Ends (Form.settle g) (fun _ => R g) (fun _ => R g))

include hR hsettle in
/-- What has been done is followed up, if that is to be done eagerly. -/
theorem Steady.carried_settle {g : Form} (hg : Steady f.tree.blank f.schedule g) (hfg : R f g) :
    Ends (Form.settle g) (fun _ => R f) (fun _ => R f) :=
  (hsettle g hg).mono (fun _ _ hg' => hR.trans _ _ _ hfg hg') fun _ _ hg' => hR.trans _ _ _ hfg hg'

include h hR hsettle in
/-- Reporting a new node. -/
theorem Consistent.carried_register (e : Option String) : Ends (register n e f) (fun _ => R f) (fun _ => R f) := by
  have hattach : Ends (Form.attach n e f) (fun _ => R f) (fun _ => R f) := h.carried_attach hR e
  refine carried_whenUpdating hR (Ends.bind (((Steady.attach n e f (.start h)).and hattach).mono ?_ fun _ _ hg => hg.2))
  rintro _ g ⟨hsteady, hg⟩
  exact hsteady.carried_settle hR hsettle hg

include h hR hsettle in
/-- Reporting that a node is about to be removed. -/
theorem Consistent.carried_unregister : Ends (unregister n f) (fun _ => R f) (fun _ => R f) := by
  refine carried_whenUpdating hR (Ends.bind (FormM.ends_update ?_))
  exact ((Steady.start h).detach n).carried_settle hR hsettle (hR.detach _ f h.coherent fun _ hx => hx.elim)

include h hR hsettle in
theorem Consistent.carried_updateLinks : Ends (updateLinks n f) (fun _ => R f) (fun _ => R f) := by
  have hrelink : Ends (Form.relink n f) (fun _ => R f) (fun _ => R f) := h.carried_relink hR
  refine carried_whenUpdating hR (Ends.bind (((Steady.relink n f (.start h)).and hrelink).mono ?_ fun _ _ hg => hg.2))
  rintro _ g ⟨hsteady, hg⟩
  exact hsteady.carried_settle hR hsettle hg

include h hR hsettle in
/-- Reporting that a node has moved. -/
theorem Consistent.carried_rename (old : Path) : Ends (rename old n f) (fun _ => R f) (fun _ => R f) := by
  have hmoved : Ends (moveBindings old n f) (fun _ => R f) (fun _ => R f) := h.carried_moveBindings hR old
  refine Ends.bind (((Steady.moveBindings old n f (.start h)).and hmoved).mono ?_ fun _ _ hg => hg.2)
  rintro _ g ⟨hsteady, hg⟩
  have hlinks : Ends (updateLinks n g) (fun _ => R g) (fun _ => R g) :=
    hsteady.consistent.carried_updateLinks hR fun g' hg' =>
      hsettle g' ⟨hg'.consistent, hg'.tree.trans hsteady.tree, hg'.schedule.trans hsteady.schedule⟩
  exact hlinks.mono (fun _ _ hg' => hR.trans _ _ _ hg hg') fun _ _ hg' => hR.trans _ _ _ hg hg'

end Settling

end Reporting

section Recomputing

/-- Apart from the nodes that are followed up themselves, only formulas are affected. -/
theorem CoherentBut.formula?_of_affected (h : Coherent f) {seeds : NodeSet} (hx : x ∈ f.affected seeds) :
    x ∈ seeds ∨ (f.graph.formula? x).isSome := by
  refine (mem_affected.1 hx).imp_right fun hreach => ?_
  have hfed {m : NodeId} (hdep : x ∈ f.dependents m) : (f.graph.formula? x).isSome := by
    obtain ⟨F, hF⟩ := (h.mem_dependents.1 hdep).formula?
    rw [hF]
    rfl
  cases Search.reached_of_mem_reach hreach with
  | target ht =>
    obtain ⟨m, -, hdep⟩ := List.mem_flatMap.1 ht
    exact hfed hdep
  | step _ _ hdep => exact hfed hdep

/-- Following up what is pending leaves nothing else pending. -/
theorem Consistent.minds_recomputePendingBy (h : Consistent f) (hgone : ∀ x, gone x) :
    Ends (recomputePendingBy order f) (fun _ => Minds new gone f) (fun _ => Minds new gone f) := by
  have hempty {g : Form} (hg : g.pending = ∅) : Minds new gone f g :=
    ⟨fun x hx => by simp [hg] at hx, fun x hx => by simp [hg] at hx, fun x _ => .inr (hgone x)⟩
  unfold Form.recomputePendingBy
  split
  · exact hempty rfl
  next =>
    dsimp only
    have hclear : Consistent f.clearPending := h.congr rfl rfl h.levels
    have htells := ends_tells_forM (f := f.clearPending)
      (order.bindings (f.bindingsUsed (f.affected f.seeds)).toList) (syncBy order f.cacheRefresh)
      fun _ _ => ends_tells_syncBy
    have hsync := Preserves.forM (fun id => (Steady.syncBy f.cacheRefresh id :
      Preserves (Steady f.tree.blank f.schedule) (Form.syncBy order f.cacheRefresh id)))
      (order.bindings (f.bindingsUsed (f.affected f.seeds)).toList) f.clearPending (.start hclear)
    split
    next e g hrun =>
      have hg := htells.of_error hrun
      refine ⟨fun x hx => ?_, fun x _ hF => .inr (by rwa [Form.addPending, hg.formula]), fun x _ => .inr (hgone x)⟩
      rw [Form.addPending, hg.formula]
      rcases mem_addPending.1 hx with hx | hx
      · obtain ⟨id, hs⟩ := (hg.pending x hx).resolve_left (by simp [clearPending])
        obtain ⟨F, hF, -⟩ := ((h.coherent.consumers id x).1 hs).resolve_right not_false
        exact .inr (.inr (by rw [clearPending, hF]; rfl))
      · rcases h.coherent.formula?_of_affected (Std.ExtTreeSet.mem_toList.1 hx) with hseed | hF
        · exact .inl (Std.ExtTreeSet.mem_filter.1 hseed).1
        · exact .inr (.inr hF)
    next g hrun =>
      obtain ⟨levels, report, g', -, hrun', hreported, -⟩ :=
        (hsync.of_ok hrun).consistent.evaluateAffected order (f.affected f.seeds)
      rw [hrun']
      refine hempty ?_
      rw [hreported.valued.same]
      rfl

theorem Consistent.minds_settle (h : Consistent f) (hgone : f.isSet .recomputeEagerly = true → ∀ x, gone x) :
    Ends (settle f) (fun _ => Minds new gone f) (fun _ => Minds new gone f) := by
  unfold Form.settle
  split
  next heager =>
    have heager' : f.isSet .recomputeEagerly = true := by simp_all
    exact Ends.bind (h.minds_recomputePendingBy (hgone heager'))
  next => exact .refl f

/-- Reporting that a value was entered makes the field pending, whether it has a formula or not. -/
theorem Consistent.minds_valueChanged (h : Consistent f) (hgone : ∀ x, gone x) (hnew : new n) :
    Ends (valueChanged n f) (fun _ => Minds new gone f) (fun _ => Minds new gone f) := by
  refine Ends.bind (FormM.ends_update ?_)
  split
  next =>
    have hadded : Minds new gone f (f.addPending [n]) := by
      refine ⟨fun x hx => ?_, fun x _ hF => .inr hF, fun x hx => .inl (mem_addPending.2 (.inl hx))⟩
      refine (mem_addPending.1 hx).imp_right fun hmem => .inl ?_
      rwa [List.mem_singleton.1 hmem]
    have hcons : Consistent (f.addPending [n]) := h.congr rfl rfl h.levels
    exact (hcons.minds_settle fun _ => hgone).mono (fun _ _ hg => hadded.trans hg) fun _ _ hg => hadded.trans hg
  next => exact h.minds_settle fun _ => hgone

theorem Consistent.minds_recomputeAll (h : Consistent f) (hgone : ∀ x, gone x) :
    Ends (recomputeAll f) (fun _ => Minds new gone f) (fun _ => Minds new gone f) := by
  refine Ends.bind (FormM.ends_update ?_)
  have hadded : Minds new gone f (f.addPending f.graph.formulaNodes) := by
    refine ⟨fun x hx => ?_, fun x _ hF => .inr hF, fun x hx => .inl (mem_addPending.2 (.inl hx))⟩
    exact (mem_addPending.1 hx).imp_right fun hmem => .inr (Graph.mem_formulaNodes.1 hmem)
  have hcons : Consistent (f.addPending f.graph.formulaNodes) := h.congr rfl rfl h.levels
  exact (hcons.minds_recomputePendingBy hgone).mono (fun _ _ hg => hadded.trans hg) fun _ _ hg => hadded.trans hg

end Recomputing

section Reports

/-- What has been done is followed up, if that is to be done eagerly. -/
theorem Steady.minds_settle {g : Form} (h : Steady f.tree.blank f.schedule g)
    (hgone : f.isSet .recomputeEagerly = true → ∀ x, gone x) :
    Ends (Form.settle g) (fun _ => Minds new gone g) (fun _ => Minds new gone g) :=
  h.consistent.minds_settle fun heager => hgone (by rwa [isSet, ← h.schedule])

/-- Reporting a new node. -/
theorem Consistent.minds_register (h : Consistent f) (hn : gone n) (e : Option String)
    (hgone : f.isSet .recomputeEagerly = true → ∀ x, gone x) :
    Ends (register n e f) (fun _ => Minds new gone f) (fun _ => Minds new gone f) :=
  h.carried_register (carried_minds hn) (fun _ hg => hg.minds_settle hgone) e

/-- Reporting that a node is about to be removed. -/
theorem Consistent.minds_unregister (h : Consistent f) (hn : gone n)
    (hgone : f.isSet .recomputeEagerly = true → ∀ x, gone x) :
    Ends (unregister n f) (fun _ => Minds new gone f) (fun _ => Minds new gone f) :=
  h.carried_unregister (carried_minds hn) fun _ hg => hg.minds_settle hgone

/-- Reporting that a node has moved. -/
theorem Consistent.minds_rename (h : Consistent f) (hn : gone n) (old : Path)
    (hgone : f.isSet .recomputeEagerly = true → ∀ x, gone x) :
    Ends (rename old n f) (fun _ => Minds new gone f) (fun _ => Minds new gone f) :=
  h.carried_rename (carried_minds hn) (fun _ hg => hg.minds_settle hgone) old

end Reports

end LiveForm.Form
