import LiveForm.Form.Edit
import LiveForm.Proofs.Form.Attachment

/-!
# Reporting nodes

What reporting a new node does, and what reporting does that a node is about to be removed. In the course of
an edit nothing is recomputed, so a form is quiet then.
-/

set_option autoImplicit false

namespace LiveForm.Form

variable {f f' f'' g : Form} {new : NodeId → Prop} {n : NodeId} {id : BindingId}

/-- The graph follows the tree, and nothing is recomputed before the edit is over. -/
def Quiet (f : Form) : Prop :=
  f.isSet .updateGraph = true ∧ f.isSet .recomputeEagerly = false

theorem SameBeside.quiet (h : SameBeside f f') (hf : f.Quiet) : f'.Quiet := by
  unfold Quiet isSet
  rw [h.schedule]
  exact hf

theorem settle_of_quiet (h : f.Quiet) : settle f = .ok () f := by
  unfold settle
  rw [h.2]
  rfl

theorem whenUpdating_of_quiet (h : f.Quiet) (action : FormM Unit) :
    whenUpdating action f = action f := by
  unfold whenUpdating
  rw [if_pos h.1]

section Pruning

theorem feeds_prune (a b : NodeId) : (f.prune n).Feeds a b ↔ f.Feeds a b := by
  have hformula : (f.prune n).graph.formula? b = f.graph.formula? b := Graph.formula?_prune
  unfold Feeds Graph.Uses
  rw [hformula]
  rfl

/-- A vertex that is pruned was of no use. -/
theorem CoherentBut.prune (h : Coherent f) (n : NodeId) :
    Coherent (f.prune n) ∧ Relinked f (f.prune n) := by
  have hformula (x : NodeId) : (f.prune n).graph.formula? x = f.graph.formula? x :=
    Graph.formula?_prune
  have hsucc (x : NodeId) : (f.prune n).graph.successors x = f.graph.successors x :=
    Graph.successors_prune
  have hpred (x : NodeId) : (f.prune n).graph.predecessors x = f.graph.predecessors x :=
    Graph.predecessors_prune fun hn => h.predecessors_of_none hn
  refine ⟨?_, ?_⟩
  · exact
      { successors := fun id m => by rw [hsucc]; exact h.successors id m
        consumers := fun id c => by
          unfold Graph.Uses
          rw [hformula]
          exact h.consumers id c
        reads := fun x hx m => by rw [hpred, feeds_prune]; exact h.reads x hx m
        unread := fun _ hx => hx.elim
        used := h.used
        tidy := h.tidy.prune
        anchors := fun x F hF => h.anchors x F (hformula x ▸ hF)
        fresh := h.fresh }
  · exact
      { beside := ⟨rfl, rfl, rfl, rfl⟩
        formula := hformula
        bound := fun _ => rfl
        marks := ⟨fun _ => False,
          { formula := fun x F hF _ =>
              ⟨hformula x ▸ hF, not_false, fun _ _ _ => ⟨Iff.rfl, fun _ => not_false⟩⟩
            pending := fun _ hx => .inl hx }⟩ }

theorem levelsRight_prune (h : f.graph.LevelsRight) : (f.prune n).graph.LevelsRight := by
  intro levels hlevels
  have hgraph : (f.prune n).graph = f.graph ∨ (f.prune n).graph.levels = none := by
    simp only [Form.prune, Graph.prune]
    split
    · exact .inr rfl
    · exact .inl rfl
  rcases hgraph with hg | hg
  · rw [hg] at hlevels ⊢
    exact h levels hlevels
  · simp [hg] at hlevels

theorem Consistent.prune (h : Consistent f) (n : NodeId) : Consistent (f.prune n) :=
  ⟨(h.coherent.prune n).1, fun x hx => h.acyclic x (Relation.TransGen.mono (fun a b => (feeds_prune a b).1) _ _ hx),
    levelsRight_prune h.levels⟩

theorem Upkept.prune (h : Upkept new f) (n : NodeId) :
    Upkept new (f.prune n) ∧ Relinked f (f.prune n) := by
  obtain ⟨-, hrel⟩ := h.coherent.prune n
  have hcurrent := h.current.relinked hrel h.current.cached h.current.complete h.current.registered
  exact ⟨(h.consistent.prune n).upkept hcurrent, hrel⟩

end Pruning

/-- A link that closes no circle may be made. -/
theorem Consistent.linked (h : Consistent f) (hid : (f.registry.get? id).isSome)
    (hpath : ∀ c, f.graph.Uses c id → ¬ Relation.ReflTransGen f.Feeds c n) : Consistent (f.linked id n) := by
  refine h.relinked (h.coherent.linked hid) (fun hacyclic => ?_) (.of_none levels_linked)
  rw [← acyclicBy_all] at hacyclic ⊢
  exact hacyclic.linked hid hpath

/-- A link that fits the tree may be made, too. -/
theorem Upkept.linked (h : Upkept new f) {b : Binding} (hb : f.registry.get? id = some b)
    (hmatch : f.tree.Matches b.selector b.base n)
    (hpath : ∀ c, f.graph.Uses c id → ¬ Relation.ReflTransGen f.Feeds c n) :
    Upkept new (f.linked id n) := by
  have hid : (f.registry.get? id).isSome := by
    rw [hb]
    rfl
  refine (h.consistent.linked hid hpath).upkept (h.current.relinked (h.coherent.relinked_linked hid)
    (fun i d m hd hm => ?_) (fun i d m hd hraw hm hnew => ?_) h.current.registered)
  · rcases (caches_linked hid).1 hm with hm | ⟨rfl, rfl⟩
    · exact h.current.cached i d m hd hm
    · rw [Registry.bound?, hb, Option.map_some] at hd
      exact Option.some.inj hd ▸ hmatch
  · exact (caches_linked hid).2 (.inl (h.current.complete i d m hd hraw hm hnew))

/-- One of the bindings that stand for a new node is linked with it. -/
theorem Upkept.linkOnce (h : Upkept new g) (hnew : new n) {b : Binding}
    (hb : g.registry.get? id = some b) (hmatch : g.tree.Matches b.selector b.base n) :
    Ends (linkOnce n id g)
      (fun _ f' => Upkept new f' ∧ Relinked g f' ∧
        ∀ i, f'.registry.Caches i n ↔ g.registry.Caches i n ∨ i = id)
      (fun e f' => Upkept new f' ∧ Detached n g f' ∧ g.tree.Explains e) := by
  have hid : (g.registry.get? id).isSome := by
    rw [hb]
    rfl
  unfold Form.linkOnce
  split
  next hlinked =>
    refine ⟨h, .refl g, fun i => ⟨.inl, fun hi => hi.elim (fun hc => hc) ?_⟩⟩
    rintro rfl
    have := (h.coherent.successors i n).1 (by simpa using hlinked)
    exact this.1
  next =>
    refine FormM.ends_orUndo (h.coherent.link_spec.mono ?_ ?_)
    · rintro _ f' ⟨rfl, hpath⟩
      refine ⟨h.linked hb hmatch hpath, h.coherent.relinked_linked hid, fun i => ?_⟩
      rw [caches_linked hid]
      simp
    · rintro e f' ⟨rfl, hcloses⟩
      obtain ⟨hup, hdet⟩ := h.detach n
      refine ⟨⟨hup.coherent, hup.current.mono (fun x hx => hx.elim (fun hx => hx) fun hx => hx ▸ hnew)
        (fun _ hid => hid), hup.acyclic, hup.levels⟩, hdet, .inl ?_⟩
      have hd : f'.registry.bound? id = some b.bound := by rw [Registry.bound?, hb, Option.map_some]
      have hmatches : ∀ m, m = n → f'.tree.Matches b.bound.selector b.bound.base m := fun m hm => hm ▸ hmatch
      exact h.current.follows.linksAmong.circular hd hmatches hcloses

/-- The new node is linked with the bindings that stand for it, one after the other. -/
theorem Upkept.linkAll (h : Upkept new g) (hnew : new n)
    (hreg : ∀ e, g.tree.FormulaAt n e → (g.graph.formula? n).isSome) :
    Ends ((g.registry.accepting g.tree n).forM (Form.linkOnce n) g)
      (fun _ f' => Upkept (fun x => new x ∧ x ≠ n) f' ∧ Relinked g f')
      (fun e f' => Upkept new f' ∧ (∃ f'', Relinked g f'' ∧ Detached n f'' f') ∧ g.tree.Explains e) := by
  have hmem (id : BindingId) : id ∈ g.registry.accepting g.tree n ↔
      ∃ b, g.registry.get? id = some b ∧ g.tree.Matches b.selector b.base n := by
    rw [Registry.mem_accepting]
    exact exists_congr fun b => and_congr_right fun hb => h.current.follows.accepts_iff hb
  -- What is still to be linked is among the bindings that are left.
  have hloop : Ends ((g.registry.accepting g.tree n).forM (Form.linkOnce n) g) _
      fun e f' => Upkept new f' ∧ (∃ f'', Relinked g f'' ∧ Detached n f'' f') ∧ g.tree.Explains e :=
    Ends.forM (I := fun rest g' => Upkept new g' ∧ Relinked g g' ∧
      (∀ id ∈ rest, id ∈ g.registry.accepting g.tree n) ∧
      ∀ id ∈ g.registry.accepting g.tree n, id ∈ rest ∨ g'.registry.Caches id n) ?_
    ⟨h, .refl g, fun _ hid => hid, fun _ hid => .inl hid⟩
  · refine hloop.mono ?_ fun _ _ he => he
    rintro _ f' ⟨hup, hrel, -, hall⟩
    refine ⟨⟨hup.coherent, ?_, hup.acyclic, hup.levels⟩, hrel⟩
    refine { hup.current with complete := ?_, registered := ?_ }
    · intro id d m hd _ hm hnm
      by_cases hmn : m = n
      · subst hmn
        obtain ⟨b, hb, rfl⟩ := Option.map_eq_some_iff.1 ((hrel.bound id).symm.trans hd)
        exact (hall id ((hmem id).2 ⟨b, hb, hrel.beside.tree ▸ hm⟩)).resolve_left (by simp)
      · exact hup.current.complete id d m hd not_false hm fun hc => hnm ⟨hc, hmn⟩
    · intro x e he hx
      by_cases hxn : x = n
      · subst hxn
        rw [hrel.formula]
        exact hreg e (hrel.beside.tree ▸ he)
      · exact hup.current.registered x e he fun hc => hx ⟨hc, hxn⟩
  · rintro a rest s ⟨hup, hrel, hsub, hall⟩
    obtain ⟨b, hb, hm⟩ := (hmem a).1 (hsub a List.mem_cons_self)
    have hbound : s.registry.bound? a = some b.bound := by
      rw [hrel.bound, Registry.bound?, hb, Option.map_some]
    obtain ⟨b', hb', hbb⟩ := Option.map_eq_some_iff.1 hbound
    have hm' : s.tree.Matches b'.selector b'.base n := by
      have hsel : b'.selector = b.selector := congrArg Bound.selector hbb
      have hbase : b'.base = b.base := congrArg Bound.base hbb
      rw [hsel, hbase, hrel.beside.tree]
      exact hm
    refine (hup.linkOnce hnew hb' hm').mono ?_ ?_
    · rintro _ f' ⟨hup', hrel', hc⟩
      refine ⟨hup', hrel.trans hrel', fun id hid => hsub id (List.mem_cons_of_mem _ hid),
        fun id hid => ?_⟩
      rw [hc]
      rcases hall id hid with hin | hin
      · rcases List.mem_cons.1 hin with rfl | hin
        · exact .inr (.inr rfl)
        · exact .inl hin
      · exact .inr (.inl hin)
    · rintro e f' ⟨hup', hdet, hrej⟩
      exact ⟨hup', ⟨s, hrel, hdet⟩, hrel.beside.tree ▸ hrej⟩

/-- What taking a new node into the graph does. -/
theorem Upkept.attach (h : Upkept new f) (hnew : new n) {q : Place} (hq : f.tree.place? n = some q)
    (hlive : q.inTemplate = false) (hn : f.graph.formula? n = none) :
    Ends (attach n q.node.formula f)
      (fun _ f' => Upkept (fun x => new x ∧ x ≠ n) f' ∧ Progress f f' ∧
        ∀ x, x ≠ n → f'.graph.formula? x = f.graph.formula? x)
      (fun e f' => Upkept new f' ∧ Progress f f' ∧ Rejected n e f f') := by
  have hcontains : (!f.tree.contains n) = false := by simp [FieldTree.contains_eq, hq]
  have htemplate : f.tree.inTemplate n = false := by simp [FieldTree.inTemplate_eq, hq, hlive]
  have hformula : (if (f.graph.formula? n).isSome then f.detach n else f) = f := by simp [hn]
  have hlink (g : Form) (hup : Upkept new g) (hprog : Progress f g)
      (hother : ∀ x, x ≠ n → g.graph.formula? x = f.graph.formula? x)
      (hreg : ∀ e, g.tree.FormulaAt n e → (g.graph.formula? n).isSome) :
      Ends ((do
          let f ← get
          (f.registry.accepting f.tree n).forM (Form.linkOnce n)
          FormM.update (·.prune n) : FormM Unit) g)
        (fun _ f' => Upkept (fun x => new x ∧ x ≠ n) f' ∧ Progress f f' ∧
          ∀ x, x ≠ n → f'.graph.formula? x = f.graph.formula? x)
        (fun e f' => Upkept new f' ∧ Progress f f' ∧ Rejected n e f f') := by
    refine Ends.bind (Ends.bind ((hup.linkAll hnew hreg).mono ?_ ?_))
    · rintro _ f' ⟨hup', hrel⟩
      obtain ⟨hpruned, hrel'⟩ := hup'.prune n
      refine FormM.ends_update ⟨hpruned, hprog.trans (hrel.trans hrel').progress, fun x hx => ?_⟩
      rw [hrel'.formula, hrel.formula, hother x hx]
    · rintro e f' ⟨hup', ⟨f'', hrel, hdet⟩, herror⟩
      refine ⟨hup', (hprog.trans hrel.progress).detached h.coherent hn hdet, fun x => ?_,
        fun i hc => absurd rfl ((hdet.caches i n).1 hc).2.1, hprog.beside.tree ▸ herror⟩
      rw [hdet.formula, hrel.formula]
      split
      next hx => rw [hx, hn]
      next hx => exact hother x hx
  unfold Form.attach
  rw [hcontains, htemplate]
  simp only [Bool.false_eq_true, if_false, hformula]
  cases he : q.node.formula with
  | none =>
    refine Ends.bind (Ends.pure (hlink f h (.refl f) (fun _ _ => rfl) ?_))
    rintro e ⟨q', hq', -, he'⟩
    rw [Option.some.inj (hq.symm.trans hq')] at he
    simp [he] at he'
  | some e =>
    refine Ends.bind ((h.attachFormula hnew ⟨q, hq, hlive, he⟩ hn).mono ?_ ?_)
    · rintro _ g ⟨hup, hprog, hsome, hother⟩
      exact hlink g hup hprog hother fun _ _ => hsome
    · rintro error g ⟨hup, hprog, hrej⟩
      exact ⟨hup, hprog, hrej⟩

end LiveForm.Form
