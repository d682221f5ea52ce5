import LiveForm.Proofs.Form.TreeEdits

/-!
# Reporting and discarding subtrees

In the course of an edit the nodes of a new subtree are reported one after the other. If one of them is rejected
the subtree is discarded: all its nodes are taken out of the graph, and then it is removed from the tree.
-/

set_option autoImplicit false

namespace LiveForm.Form

variable {f f' f'' g : Form} {new new' : NodeId → Prop} {n id parent : NodeId} {t' : FieldTree}

/-- What lies between two states of a form in the course of edits: nodes that survive keep their data, and what has
changed otherwise is pending. -/
structure Advance (f f' : Form) : Prop where
  schedule : f'.schedule = f.schedule
  stopAtOverride : f'.stopAtOverride = f.stopAtOverride
  cacheRefresh : f'.cacheRefresh = f.cacheRefresh
  carries : f.tree.Carries f'.tree
  marks : Marks f f'

theorem Advance.refl (f : Form) : Advance f f :=
  ⟨rfl, rfl, rfl, .refl _, .refl f⟩

theorem Advance.trans (ht : f.tree.WellFormed) (h : Advance f f') (h' : Advance f' f'') :
    Advance f f'' :=
  ⟨h'.schedule.trans h.schedule, h'.stopAtOverride.trans h.stopAtOverride,
    h'.cacheRefresh.trans h.cacheRefresh, h.carries.trans ht h'.carries, h.marks.trans h'.marks⟩

theorem SameBeside.advance (h : SameBeside f f') (hmarks : Marks f f') : Advance f f' :=
  ⟨h.schedule, h.stopAtOverride, h.cacheRefresh, h.tree ▸ .refl _, hmarks⟩

theorem Progress.advance (h : Progress f f') : Advance f f' :=
  h.beside.advance h.marks

theorem advance_withTree (h : f.tree.Carries t') : Advance f (f.withTree t') :=
  ⟨rfl, rfl, rfl, h, ⟨_, (MarksBut.refl f).formula, (MarksBut.refl f).pending⟩⟩

theorem Advance.quiet (h : Advance f f') (hf : f.Quiet) : f'.Quiet := by
  unfold Quiet isSet
  rw [h.schedule]
  exact hf

/-- Nodes that no selector stands for, and that have no formulas, need not be reported. -/
theorem Upkept.drop (h : Upkept new f) (hn : ∀ x q, new x → ¬ new' x → f.tree.place? x = some q →
    q.inTemplate = true ∨ q.node.kind ≠ .field) : Upkept new' f where
  coherent := h.coherent
  acyclic := h.acyclic
  levels := h.levels
  current :=
    { h.current with
      complete := by
        intro id d m hd hr hm hnm
        refine h.current.complete id d m hd hr hm fun hc => ?_
        obtain ⟨_, q, _, _, hq, _, hkind, hlive, _⟩ := hm
        rcases hn m q hc hnm hq with ht | hk
        · simp [hlive] at ht
        · exact hk hkind
      registered := by
        intro x e he hx
        refine h.current.registered x e he fun hc => ?_
        obtain ⟨q, hq, hlive, hformula⟩ := he
        rcases hn x q hc hx hq with ht | hk
        · simp [hlive] at ht
        · exact hk (h.current.tree.formulas x q hq (by rw [hformula]; rfl)) }

theorem Upkept.mono (h : Upkept new f) (hnew : ∀ x, new x → new' x) : Upkept new' f :=
  h.drop fun x _ hx hnot _ => absurd (hnew x hx) hnot

section Adding

/-- What reporting a new node does. -/
theorem Upkept.nodeAdded (h : Upkept new f) (hquiet : f.Quiet) (hnew : new n)
    (hn : f.graph.formula? n = none) : Ends (nodeAdded n f)
      (fun _ f' => Upkept (fun x => new x ∧ x ≠ n) f' ∧ Progress f f' ∧
        ∀ x, x ≠ n → f'.graph.formula? x = f.graph.formula? x)
      (fun e f' => Upkept new f' ∧ Progress f f' ∧ Rejected n e f f') := by
  unfold Form.nodeAdded
  cases hl : f.tree.locate? n with
  | none =>
    refine ⟨h.drop fun x q hx hnot hq => ?_, .refl f, fun _ _ => rfl⟩
    obtain rfl : x = n := by
      by_contra hxn
      exact hnot ⟨hx, hxn⟩
    simp [FieldTree.place?, hl] at hq
  | some l =>
    have hq : f.tree.place? n = some l.place := (FieldTree.locate?_eq_some hl).1
    dsimp only
    split
    next hskip =>
      refine ⟨h.drop fun x q hx hnot hq' => ?_, .refl f, fun _ _ => rfl⟩
      obtain rfl : x = n := by
        by_contra hxn
        exact hnot ⟨hx, hxn⟩
      obtain rfl := Option.some.inj (hq.symm.trans hq')
      have hskip' : l.node.kind ≠ .field ∨ l.inTemplate = true := by simpa using hskip
      exact hskip'.symm
    next hfield =>
      have hlive : l.inTemplate = false := by
        by_contra hc
        simp [hc] at hfield
      unfold register
      rw [whenUpdating_of_quiet hquiet]
      refine Ends.bind ((h.attach hnew hq hlive hn).mono ?_ ?_)
      · rintro _ f' ⟨hup, hprog, hother⟩
        rw [settle_of_quiet (hprog.beside.quiet hquiet)]
        exact ⟨hup, hprog, hother⟩
      · exact fun e f' he => he

/-- What reporting new nodes one after the other does. -/
theorem Upkept.reportAll (h : Upkept new f) (hquiet : f.Quiet) {created : List NodeId}
    (hnew : ∀ x, new x → x ∈ created) (hnodup : created.Nodup)
    (hformula : ∀ x ∈ created, f.graph.formula? x = none) : Ends (created.forM Form.nodeAdded f)
      (fun _ f' => Upkept (fun _ => False) f' ∧ Progress f f')
      (fun e f' => Upkept (fun x => x ∈ created) f' ∧ Progress f f' ∧ f.tree.Explains e) := by
  have hloop : Ends (created.forM Form.nodeAdded f) _
      fun e f' => Upkept (fun x => x ∈ created) f' ∧ Progress f f' ∧ f.tree.Explains e :=
    Ends.forM (I := fun rest g => Upkept (fun x => x ∈ rest) g ∧ Progress f g ∧
      (∀ x ∈ rest, x ∈ created ∧ g.graph.formula? x = none) ∧ rest.Nodup) ?_
    ⟨h.mono hnew, .refl f, fun x hx => ⟨hx, hformula x hx⟩, hnodup⟩
  · refine hloop.mono ?_ fun _ _ he => he
    rintro _ f' ⟨hup, hprog, -, -⟩
    exact ⟨hup.mono fun x hx => by simp at hx, hprog⟩
  · rintro a rest g ⟨hup, hprog, hrest, hnd⟩
    obtain ⟨ha, hnd'⟩ := List.nodup_cons.1 hnd
    refine (hup.nodeAdded (hprog.beside.quiet hquiet) List.mem_cons_self
      (hrest a List.mem_cons_self).2).mono ?_ ?_
    · rintro _ g' ⟨hup', hprog', hother⟩
      refine ⟨hup'.mono fun x hx => (List.mem_cons.1 hx.1).resolve_left hx.2, hprog.trans hprog',
        fun x hx => ?_, hnd'⟩
      have hxa : x ≠ a := by
        rintro rfl
        exact ha hx
      rw [hother x hxa]
      exact hrest x (List.mem_cons_of_mem _ hx)
    · rintro e g' ⟨hup', hprog', hrej⟩
      exact ⟨hup'.mono fun x hx => (hrest x hx).1, hprog.trans hprog', hprog.beside.tree ▸ hrej.error⟩

end Adding

section Discarding

/-- A state from which some nodes, which had no formulas at first, have left. -/
structure Leaving (gone : List NodeId) (f g : Form) : Prop where
  beside : SameBeside f g
  marks : Marks f g
  formula : ∀ x ∈ gone, g.graph.formula? x = none
  uncached : ∀ x ∈ gone, ∀ i, ¬ g.registry.Caches i x
  keeps : ∀ f₀, Coherent f₀ → (∀ x ∈ gone, f₀.graph.formula? x = none) → Keeps f₀ f → Keeps f₀ g

theorem Leaving.detached {gone : List NodeId} (h : Leaving gone f g) (hdet : Detached n g f') :
    Leaving (n :: gone) f f' where
  beside := h.beside.trans hdet.beside
  marks := h.marks.trans hdet.marks
  formula x hx := by
    rw [hdet.formula]
    split
    · rfl
    next hxn => exact h.formula x ((List.mem_cons.1 hx).resolve_left hxn)
  uncached x hx i hc := by
    obtain ⟨hc', hxn, -⟩ := (hdet.caches i x).1 hc
    exact h.uncached x ((List.mem_cons.1 hx).resolve_left hxn) i hc'
  keeps f₀ hco hnone hk :=
    (h.keeps f₀ hco (fun x hx => hnone x (List.mem_cons_of_mem _ hx)) hk).detached hco
      (hnone n List.mem_cons_self) hdet

theorem unregister_of_quiet (hquiet : f.Quiet) (h : SameBeside f (f.detach n)) :
    unregister n f = .ok () (f.detach n) := by
  have heq : (do FormM.update (·.detach n); settle : FormM Unit) f = settle (f.detach n) := rfl
  rw [unregister, whenUpdating_of_quiet hquiet, heq, settle_of_quiet (h.quiet hquiet)]

/-- Nodes are taken out of the graph one after the other. -/
theorem Upkept.unregisterAll (h : Upkept new f) (hquiet : f.Quiet) (nodes : List NodeId) :
    Ends (nodes.forM unregister f)
      (fun _ g => Upkept (fun x => new x ∨ x ∈ nodes) g ∧ Leaving nodes.reverse f g)
      (fun _ _ => False) := by
  have hloop : Ends (nodes.forM unregister f) _ fun _ _ => False :=
    Ends.forM (I := fun rest g => ∃ gone, nodes = gone.reverse ++ rest ∧
      Upkept (fun x => new x ∨ x ∈ gone) g ∧ Leaving gone f g) ?_ ⟨[], rfl, h.mono fun x hx => .inl hx, ?_⟩
  · refine hloop.mono ?_ fun _ _ he => he
    rintro _ g ⟨gone, hgone, hup, hleave⟩
    rw [List.append_nil] at hgone
    subst hgone
    rw [List.reverse_reverse]
    exact ⟨hup.mono fun x hx => by simpa using hx, hleave⟩
  · rintro a rest g ⟨gone, hgone, hup, hleave⟩
    obtain ⟨hup', hdet⟩ := hup.detach a
    rw [unregister_of_quiet (hleave.beside.quiet hquiet) hdet.beside]
    refine ⟨a :: gone, by simp [hgone], hup'.mono fun x hx => ?_, hleave.detached hdet⟩
    rw [List.mem_cons]
    grind
  · exact ⟨.refl f, .refl f, by simp, by simp, fun _ _ _ hk => hk⟩

/-- What discarding a subtree does. It always succeeds. -/
theorem Upkept.discardSubtree (h : Upkept new f) (hquiet : f.Quiet) (hid : id ≠ rootId)
    (hplaced : (f.tree.place? id).isSome) : Ends (discardSubtree id f)
      (fun _ g => Upkept (fun x => new x ∧ ¬ f.tree.Within id x) g ∧ g.tree = f.tree.without id ∧
        Advance f g ∧ ∀ f₀, Coherent f₀ → (∀ x, f.tree.Within id x → f₀.graph.formula? x = none) →
          Keeps f₀ f → Keeps f₀ g)
      (fun _ _ => False) := by
  have hwf := h.current.tree
  have hmem (x : NodeId) : x ∈ (f.tree.postorderFrom id).reverse ↔ f.tree.Within id x := by
    rw [List.mem_reverse, FieldTree.mem_postorderFrom hwf.keyed]
  unfold Form.discardSubtree
  refine Ends.bind (Ends.pure ?_)
  refine Ends.bind ((h.unregisterAll hquiet _).mono ?_ fun _ _ he => he)
  rintro _ g ⟨hup, hleave⟩
  have ht := hleave.beside.tree
  refine Ends.bind (FormM.ends_onTree ?_ ?_)
  · intro gone t hremove
    rw [FieldTree.removeSubtree_eq, if_neg hid] at hremove
    split at hremove
    · obtain ⟨-, rfl⟩ := Prod.mk.inj (Except.ok.inj hremove)
      have hcut := hup.cut hid (fun x hx => hleave.formula x ((hmem x).2 (ht ▸ hx)))
        fun x hx => hleave.uncached x ((hmem x).2 (ht ▸ hx))
      refine Ends.pure ⟨hcut.mono ?_, congrArg (·.without id) ht, ?_, fun f₀ hco hnone hk => ?_⟩
      · rintro x ⟨hx, hnot⟩
        rw [ht] at hnot
        refine ⟨hx.resolve_right fun hp => hnot ?_, hnot⟩
        exact (FieldTree.mem_postorderFrom hwf.keyed).1 hp
      · have hcarries : g.tree.Carries (g.tree.without id) :=
          FieldTree.carries_without hup.current.tree hid
        exact (hleave.beside.advance hleave.marks).trans hwf (advance_withTree hcarries)
      · have hk' := hleave.keeps f₀ hco (fun x hx => hnone x ((hmem x).1 hx)) hk
        exact ⟨hk'.formula, hk'.bound⟩
    · simp at hremove
  · intro e hremove
    rw [FieldTree.removeSubtree_eq, if_neg hid, FieldTree.contains_eq, ht, if_pos hplaced] at hremove
    simp at hremove

end Discarding

end LiveForm.Form
