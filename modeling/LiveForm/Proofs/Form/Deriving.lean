import LiveForm.Form.Rebuild
import LiveForm.Proofs.Form.Additions
import LiveForm.Proofs.Form.Recomputing
import LiveForm.Proofs.Form.Selecting

/-!
# Deriving the graph from the tree

The graph is emptied, all formulas are read, their bindings are filled, and only then it is asked whether some formula
depends on itself. So this fails only if a formula is at fault or the tree itself has a circle.
-/

set_option autoImplicit false

namespace LiveForm.Form

open Relation

variable {f g : Form} {n c : NodeId} {id : BindingId}

section Clearing

/-- When a node gives up some bindings, those that are left still have users. -/
theorem releaseAll_spec {r : Registry} {ids : List BindingId} (hfresh : r.Fresh)
    (hused : ∀ id b, r.get? id = some b → ∃ m, m ∈ b.consumers) :
    (Formula.releaseAll r ids c).Fresh ∧
      (∀ id b, (Formula.releaseAll r ids c).get? id = some b → ∃ m, m ∈ b.consumers) ∧
      ∀ id m, (Formula.releaseAll r ids c).Serves id m ↔ r.Serves id m ∧ ¬ (m = c ∧ id ∈ ids) := by
  induction ids generalizing r with
  | nil => exact ⟨hfresh, hused, fun id m => by simp [Formula.releaseAll]⟩
  | cons a rest ih =>
    have hused' : ∀ id b, (r.release a c).2.get? id = some b → ∃ m, m ∈ b.consumers := by
      intro id b hb
      obtain ⟨b', hb', -, -, hsame, hother⟩ := Registry.of_get?_release hb
      by_cases hid : id = a
      · exact hother hid
      · exact hsame hid ▸ hused id b' hb'
    obtain ⟨hfresh'', hused'', hserves⟩ := ih (Registry.Fresh.release hfresh) hused'
    refine ⟨hfresh'', hused'', fun id m => ?_⟩
    have hstep : (Formula.releaseAll r (a :: rest) c).Serves id m ↔ _ := hserves id m
    rw [hstep, Registry.serves_release, List.mem_cons]
    grind

/-- What is left of the bindings once the formula of a node has given up its own. -/
def released (g : Graph) (r : Registry) (node : NodeId) : Registry :=
  match g.formula? node with
  | some formula => (formula.release r).2
  | none => r

/-- When all formulas have given up their bindings, there is none left. -/
theorem CoherentBut.clear (h : Coherent f) :
    f.clear.registry.Fresh ∧ ∀ id, f.clear.registry.get? id = none := by
  have hfold (nodes : List NodeId) (r : Registry) (hfresh : r.Fresh)
      (hused : ∀ id b, r.get? id = some b → ∃ m, m ∈ b.consumers)
      (hserves : ∀ id c, r.Serves id c → c ∈ nodes ∧ f.graph.Uses c id) :
      (nodes.foldl (released f.graph) r).Fresh ∧ ∀ id, (nodes.foldl (released f.graph) r).get? id = none := by
    induction nodes generalizing r with
    | nil =>
      refine ⟨hfresh, fun id => ?_⟩
      rw [List.foldl_nil, Option.eq_none_iff_forall_ne_some]
      intro b hb
      obtain ⟨m, hm⟩ := hused id b hb
      exact List.not_mem_nil (hserves id m ⟨b, hb, hm⟩).1
    | cons n rest ih =>
      rw [List.foldl_cons, released]
      cases hF : f.graph.formula? n with
      | none =>
        refine ih r hfresh hused fun id c hc => ?_
        obtain ⟨hmem, F, hF', hid⟩ := hserves id c hc
        refine ⟨(List.mem_cons.1 hmem).resolve_left ?_, F, hF', hid⟩
        rintro rfl
        simp [hF] at hF'
      | some F =>
        obtain ⟨hfresh', hused', hserves'⟩ := releaseAll_spec (c := F.anchor) hfresh hused
        refine ih _ hfresh' hused' fun id c hc => ?_
        obtain ⟨hc, hnot⟩ := (hserves' id c).1 hc
        obtain ⟨hmem, F', hF', hid⟩ := hserves id c hc
        refine ⟨(List.mem_cons.1 hmem).resolve_left ?_, F', hF', hid⟩
        rintro rfl
        obtain rfl := Option.some.inj (hF.symm.trans hF')
        exact hnot ⟨(h.anchors c F hF).symm, hid⟩
  refine hfold f.graph.formulaNodes f.registry h.fresh h.used fun id c hc => ?_
  obtain ⟨F, hF, hid⟩ := ((h.consumers id c).1 hc).resolve_right not_false
  exact ⟨Graph.mem_formulaNodes.2 (by rw [hF]; rfl), F, hF, hid⟩

/-- Emptying the graph does not start the numbers of bindings anew. -/
theorem serial_clear (f : Form) : f.clear.registry.serial = f.registry.serial := by
  have hrelease (ids : List BindingId) (c : NodeId) (r : Registry) :
      (Formula.releaseAll r ids c).serial = r.serial := by
    induction ids generalizing r with
    | nil => rfl
    | cons a rest ih => exact (ih (r.release a c).2).trans Registry.serial_release
  have hfold (nodes : List NodeId) (r : Registry) : (nodes.foldl (released f.graph) r).serial = r.serial := by
    induction nodes generalizing r with
    | nil => rfl
    | cons n rest ih =>
      rw [List.foldl_cons, ih, released]
      split
      · exact hrelease _ _ r
      · rfl
  exact hfold f.graph.formulaNodes f.registry

end Clearing

section Anchors

variable {t : FieldTree} {e : String}

theorem mem_located (ht : t.Keyed) {l : Located} : l ∈ t.located ↔ t.locate? l.id = some l := by
  rw [FieldTree.located, List.mem_cons, Forest.mem_located ht.nodup, FieldTree.locate?]
  split
  next hroot =>
    have hnone : t.fields.locate? l.id rootId t.locatedRoot.path t.root.isTemplate = none := by
      have hplace := Forest.map_place_locate? l.id rootId t.locatedRoot.path t.root.isTemplate t.fields
      have hspot : t.fields.spot? l.id = none := by
        rw [← Option.not_isSome_iff_eq_none, Forest.isSome_spot?]
        exact fun hmem => ht.ne_root _ hmem hroot
      rw [hspot] at hplace
      simpa using hplace
    rw [hnone, Option.some.injEq]
    simp [eq_comm]
  next hroot =>
    refine or_iff_right ?_
    rintro rfl
    exact hroot rfl

/-- The nodes whose formulas are to be read. -/
theorem mem_anchors (ht : t.Keyed) : (n, e) ∈ anchors t ↔ t.FormulaAt n e := by
  unfold anchors FieldTree.FormulaAt
  rw [List.mem_filterMap]
  constructor
  · rintro ⟨l, hl, hsome⟩
    split at hsome
    · cases hsome
    next hlive =>
      obtain ⟨e', he', heq⟩ := Option.map_eq_some_iff.1 hsome
      obtain ⟨rfl, rfl⟩ := Prod.mk.inj heq
      exact ⟨l.place, (FieldTree.locate?_eq_some ((mem_located ht).1 hl)).1, Bool.eq_false_iff.2 hlive, he'⟩
  · rintro ⟨q, hq, hlive, he⟩
    obtain ⟨l, hl, rfl⟩ := FieldTree.exists_locate? hq
    obtain ⟨-, -, rfl⟩ := FieldTree.locate?_eq_some hl
    have hlive' : l.inTemplate = false := hlive
    have he' : l.node.formula = some e := he
    exact ⟨l, (mem_located ht).2 hl, by simp [hlive', he']⟩

/-- Each formula is read once. -/
theorem nodup_anchors (hnodup : t.fields.ids.Nodup) (hroot : rootId ∉ t.fields.ids) :
    ((anchors t).map Prod.fst).Nodup := by
  have hsub : ((anchors t).map Prod.fst).Sublist (t.located.map Located.id) := by
    unfold anchors
    generalize t.located = nodes
    induction nodes with
    | nil => exact .slnil
    | cons l rest ih =>
      rw [List.filterMap_cons]
      split
      next => exact ih.cons _
      next a ha =>
        split at ha
        · cases ha
        · obtain ⟨e, -, rfl⟩ := Option.map_eq_some_iff.1 ha
          exact ih.cons_cons _
  refine hsub.nodup ?_
  rw [FieldTree.located, List.map_cons, Forest.ids_eq_map_located, List.nodup_cons]
  exact ⟨hroot, hnodup⟩

end Anchors

section Reading

/-- A vertex for a formula is new if the node has none yet. -/
theorem insert_eq_update {G : Graph} {F : Formula} (h : G.get? n = none) :
    G.vertices.insert n { formula := some F } = (G.update n ({ · with formula := some F })).vertices := by
  refine Std.ExtTreeMap.ext_getElem? fun x => ?_
  show _ = (G.update n ({ · with formula := some F })).get? x
  rw [Graph.get?_update, Std.ExtTreeMap.getElem?_insert]
  simp only [Std.LawfulEqCmp.compare_eq_iff_eq]
  by_cases hx : x = n
  · rw [if_pos hx, if_pos hx.symm, hx, h]
    rfl
  · rw [if_neg hx, if_neg (Ne.symm hx)]
    rfl

/-- Some formulas have been read into an empty graph. Nothing is linked yet. -/
structure Read (f : Form) (left : List NodeId) (g : Form) : Prop where
  coherent : Coherent g
  beside : SameBeside f g
  uncached : ∀ id m, ¬ g.registry.Caches id m
  unread : ∀ n ∈ left, g.graph.formula? n = none
  levels : g.graph.levels = none
  pending : ∀ n, (g.graph.formula? n).isSome → n ∈ g.pending

/-- One more formula has been read. It reads no fields yet, since nothing is cached. -/
theorem Read.withFormula {left : List NodeId} {F : Formula} {r : Registry} (h : Read f (n :: left) g) (hn : n ∉ left)
    (hanchor : F.anchor = n) (htaken : Registry.Taken n F.bindings g.registry r) :
    Read f left (g.withFormula n F r) := by
  have hpart := h.coherent.withFormula (h.unread n List.mem_cons_self) hanchor htaken
  have hcaches (id : BindingId) (m : NodeId) : ¬ (g.withFormula n F r).registry.Caches id m := fun hc =>
    h.uncached id m (htaken.caches.1 hc)
  have hformula (x : NodeId) (hx : x ≠ n) : (g.withFormula n F r).graph.formula? x = g.graph.formula? x := by
    rw [formula?_withFormula, if_neg hx]
  refine
    { coherent := { hpart with reads := fun x _ m => ?_, unread := fun _ hx => hx.elim }
      beside := h.beside.trans sameBeside_withFormula
      uncached := hcaches
      unread := fun x hx => by rw [hformula x (fun hxn => hn (hxn ▸ hx)), h.unread x (List.mem_cons_of_mem _ hx)]
      levels := rfl
      pending := fun x hx => ?_ }
  · have hfeeds : ¬ (g.withFormula n F r).Feeds m x := by
      rintro ⟨id, hc, -⟩
      exact hcaches id m hc
    have hpred : m ∉ (g.withFormula n F r).graph.predecessors x := by
      rw [predecessors_withFormula, h.coherent.reads x not_false]
      rintro ⟨id, hc, -⟩
      exact h.uncached id m hc
    exact iff_of_false hpred hfeeds
  · by_cases hxn : x = n
    · exact mem_addPending.2 (.inr (by simp [hxn]))
    · rw [hformula x hxn] at hx
      exact mem_addPending.2 (.inl (h.pending x hx))

/-- A formula is read, unless it is at fault. -/
theorem Read.addFormula {left : List NodeId} (h : Read f (n :: left) g) (hn : n ∉ left) (e : String) :
    Ends (addFormula n e g)
      (fun _ g' => Read f left g' ∧ ∃ F r, Formula.parse g.tree n e g.registry = .ok F r ∧ g' = g.withFormula n F r)
      (fun error g' => Coherent g' ∧ SameBeside f g' ∧ error.IsOfFormula ∧
        ¬ Readable e) := by
  have hnone : g.graph.formula? n = none := h.unread n List.mem_cons_self
  have habsent : g.graph.get? n = none := by
    rw [h.coherent.tidy.get?_eq, if_pos]
    have hsucc : g.graph.successors n = ∅ := by
      rw [Std.ExtTreeSet.eq_empty_iff_forall_not_mem]
      exact fun id hid => h.uncached id n ((h.coherent.successors id n).1 hid).1
    simp [hnone, hsucc]
  have hparse := Formula.parse_spec (t := g.tree) h.coherent.fresh (h.coherent.not_serves hnone) h.coherent.used e
  have hbind : Form.addFormula n e g = EStateM.bind (FormM.onRegistry (Formula.parse g.tree n e)) (fun F =>
      FormM.update fun f =>
        { f with graph := { f.graph with
          vertices := f.graph.vertices.insert n { formula := some F } } }.addPending [n]) g := rfl
  rw [hbind, EStateM.bind, FormM.onRegistry]
  cases hp : Formula.parse g.tree n e g.registry with
  | error error r =>
    obtain ⟨hbindings, hfresh, herror, hnot⟩ := hparse.of_error hp
    obtain ⟨hco, hrel, -⟩ := h.coherent.of_bindings hbindings hfresh
    exact ⟨hco, h.beside.trans hrel.beside, herror, hnot⟩
  | ok F r =>
    obtain ⟨hanchor, htaken⟩ := hparse.of_ok hp
    have hform : { g with registry := r, graph := { g.graph with
        vertices := g.graph.vertices.insert n { formula := some F } } }.addPending [n] = g.withFormula n F r := by
      unfold Form.withFormula
      rw [Graph.outdated, ← h.levels, insert_eq_update habsent]
    refine ⟨?_, F, r, rfl, hform⟩
    show Read f left ({ g with registry := r, graph := { g.graph with
        vertices := g.graph.vertices.insert n { formula := some F } } }.addPending [n])
    rw [hform]
    exact h.withFormula hn hanchor htaken

/-- The formula of a node in the tree has been read. -/
theorem FollowsBut.addFormula {left : List NodeId} {e : String} {F : Formula} {r : Registry}
    (h : FollowsBut (· ∈ n :: left) (fun _ => True) g) (ht : g.tree.Keyed) (hread : Read f (n :: left) g)
    (he : g.tree.FormulaAt n e) (hp : Formula.parse g.tree n e g.registry = .ok F r) :
    FollowsBut (· ∈ left) (fun _ => True) (g.withFormula n F r) := by
  obtain ⟨q, hq, hlive, -⟩ := id he
  have hnone : g.graph.formula? n = none := hread.unread n List.mem_cons_self
  obtain ⟨-, htaken⟩ := (Formula.parse_spec (t := g.tree) hread.coherent.fresh (hread.coherent.not_serves hnone)
    hread.coherent.used e).of_ok hp
  obtain ⟨hright, hreads⟩ := (Formula.parse_right ht hq hlive h.right hread.coherent.fresh e).of_ok hp
  refine
    { h.withFormula he hreads hright htaken with
      complete := fun id d m _ hraw => (hraw trivial).elim
      registered := fun x e' he' hx => ?_ }
  by_cases hxn : x = n
  · rw [formula?_withFormula, if_pos hxn]
    rfl
  · rw [formula?_withFormula, if_neg hxn]
    exact h.registered x e' he' fun hmem => hx ((List.mem_cons.1 hmem).resolve_left hxn)

section Empty

variable (hfresh : f.registry.Fresh) (hempty : ∀ id, f.registry.get? id = none)
  (hvertices : f.graph.vertices = ∅)

include hvertices in
theorem formula?_of_empty (x : NodeId) : f.graph.formula? x = none := by
  rw [Graph.formula?, Graph.get?, hvertices, Std.ExtTreeMap.getElem?_empty, Option.bind_none]

include hempty in
theorem not_caches_of_empty (id : BindingId) (m : NodeId) : ¬ f.registry.Caches id m := by
  rintro ⟨b, hb, -⟩
  simp [hempty] at hb

include hfresh hempty hvertices in
/-- An empty graph agrees with an empty registry. -/
theorem coherent_of_empty : Coherent f := by
  have hget (x : NodeId) : f.graph.get? x = none := by
    rw [Graph.get?, hvertices]
    exact Std.ExtTreeMap.getElem?_empty
  have hformula := formula?_of_empty hvertices
  have hcaches := not_caches_of_empty hempty
  exact
    { successors := fun id m => by
        have hsucc : f.graph.successors m = ∅ := by rw [Graph.successors, hget]; rfl
        rw [hsucc]
        simp [hcaches]
      consumers := fun id c => by
        refine iff_of_false ?_ fun h => h.elim ?_ not_false
        · rintro ⟨b, hb, -⟩
          simp [hempty] at hb
        · rintro ⟨F, hF, -⟩
          simp [hformula] at hF
      reads := fun x _ m => by
        have hpred : f.graph.predecessors x = ∅ := by rw [Graph.predecessors, hget]; rfl
        rw [hpred]
        refine iff_of_false Std.ExtTreeSet.not_mem_empty ?_
        rintro ⟨id, hc, -⟩
        exact hcaches id m hc
      unread := fun _ hx => hx.elim
      used := fun id b hb => by simp [hempty] at hb
      tidy := fun x v hv => by simp [hget] at hv
      anchors := fun x F hF => by simp [hformula] at hF
      fresh := hfresh }

include hfresh hempty hvertices in
/-- An empty graph, before the first formula is read. -/
theorem Read.start {left : List NodeId} : Read f left { f with graph := f.graph.outdated } where
  coherent := (coherent_of_empty hfresh hempty hvertices).congr rfl rfl
  beside := ⟨rfl, rfl, rfl, rfl⟩
  uncached := not_caches_of_empty hempty
  unread x _ := formula?_of_empty hvertices x
  levels := rfl
  pending x hx := by
    have hx' : (f.graph.formula? x).isSome := hx
    simp [formula?_of_empty hvertices] at hx'

include hempty hvertices in
theorem FollowsBut.start (ht : f.tree.Keyed) :
    FollowsBut (· ∈ (anchors f.tree).map Prod.fst) (fun _ => True) { f with graph := f.graph.outdated } := by
  have hbound (id : BindingId) : f.registry.bound? id = none := by rw [Registry.bound?, hempty, Option.map_none]
  exact
    { right := ⟨fun id d hd => by simp [hbound] at hd, fun id _ d _ hd => by simp [hbound] at hd⟩
      cached := fun id d m hd => by simp [hbound] at hd
      complete := fun id d m hd => by simp [hbound] at hd
      reads := fun x F hF => by
        have hF' : f.graph.formula? x = some F := hF
        simp [formula?_of_empty hvertices] at hF'
      registered := fun x e he hx => (hx (List.mem_map.2 ⟨(x, e), (mem_anchors ht).2 he, rfl⟩)).elim }

end Empty

/-- All formulas are read, and whatever each of them keeps is kept. -/
theorem Read.all {P : List NodeId → Form → Prop} {list : List (NodeId × String)} (h : Read f (list.map Prod.fst) g)
    (hnodup : (list.map Prod.fst).Nodup) (hP : P (list.map Prod.fst) g)
    (hstep : ∀ n e left g F r, (n, e) ∈ list → Read f (n :: left) g →
      Formula.parse g.tree n e g.registry = .ok F r → P (n :: left) g → P left (g.withFormula n F r)) :
    Ends (list.forM (fun entry : NodeId × String => Form.addFormula entry.1 entry.2) g)
      (fun _ g' => Read f [] g' ∧ P [] g')
      (fun error g' => Coherent g' ∧ SameBeside f g' ∧ error.IsOfFormula ∧
        ∃ n e, (n, e) ∈ list ∧ ¬ Readable e) := by
  induction list generalizing g with
  | nil => exact ⟨h, hP⟩
  | cons entry rest ih =>
    obtain ⟨n, e⟩ := entry
    obtain ⟨hn, hrest⟩ := List.nodup_cons.1 hnodup
    refine Ends.bind ((h.addFormula hn e).mono ?_ fun _ _ ⟨hco, hbeside, herror, hnot⟩ =>
      ⟨hco, hbeside, herror, n, e, List.mem_cons_self, hnot⟩)
    rintro _ g' ⟨hg', F, r, hp, rfl⟩
    refine (ih hg' hrest (hstep n e _ g F r List.mem_cons_self h hp hP) fun n' e' left g F r hmem =>
      hstep n' e' left g F r (List.mem_cons_of_mem _ hmem)).mono (fun _ _ hg => hg) ?_
    rintro _ g' ⟨hco, hbeside, herror, n', e', hmem, hnot⟩
    exact ⟨hco, hbeside, herror, n', e', List.mem_cons_of_mem _ hmem, hnot⟩

end Reading

section Filling

/-- Bindings have been linked with the fields that they stand for. -/
structure Filled (f g : Form) : Prop where
  coherent : CoherentBut { unread := fun n => (g.graph.formula? n).isSome } g
  beside : SameBeside f g
  levels : g.graph.levels = none
  pending : ∀ n, (g.graph.formula? n).isSome → n ∈ g.pending

theorem Read.filled (h : Read f [] g) : Filled f g where
  coherent := { h.coherent with
    reads := fun n _ m => h.coherent.reads n not_false m
    unread := fun _ hn => hn }
  beside := h.beside
  levels := h.levels
  pending := h.pending

/-- When all formulas have been read, all bindings are still to be linked. -/
theorem FollowsBut.unfilled (h : FollowsBut (· ∈ []) (fun _ => True) g) :
    FollowsBut (fun _ => False) (· ∈ g.registry.ids) g :=
  { h with
    complete := fun id d m hd hraw => by
      refine (hraw (Registry.mem_ids.2 ?_)).elim
      obtain ⟨b, hb, -⟩ := Option.map_eq_some_iff.1 hd
      rw [hb]
      rfl
    registered := fun n e he _ => h.registered n e he List.not_mem_nil }

theorem formula?_foldl_addSuccessor (G : Graph) (nodes : List NodeId) :
    (nodes.foldl (·.addSuccessor · id) G).formula? n = G.formula? n := by
  induction nodes generalizing G with
  | nil => rfl
  | cons m rest ih => rw [List.foldl_cons, ih, Graph.formula?_addSuccessor]

theorem predecessors_foldl_addSuccessor (G : Graph) (nodes : List NodeId) :
    (nodes.foldl (·.addSuccessor · id) G).predecessors n = G.predecessors n := by
  induction nodes generalizing G with
  | nil => rfl
  | cons m rest ih => rw [List.foldl_cons, ih, Graph.predecessors_addSuccessor]

theorem successors_foldl_addSuccessor (G : Graph) (nodes : List NodeId) (i : BindingId) :
    i ∈ (nodes.foldl (·.addSuccessor · id) G).successors n ↔ i ∈ G.successors n ∨ (i = id ∧ n ∈ nodes) := by
  induction nodes generalizing G with
  | nil => simp
  | cons m rest ih =>
    rw [List.foldl_cons, ih, Graph.successors_addSuccessor, List.mem_cons]
    by_cases hn : n = m
    · rw [if_pos hn, Std.ExtTreeSet.mem_insert, Std.LawfulEqCmp.compare_eq_iff_eq]
      simp only [hn, true_or, and_true]
      grind
    · simp only [hn, if_false, false_or]

theorem levels_foldl_addSuccessor (G : Graph) (nodes : List NodeId) :
    (nodes.foldl (·.addSuccessor · id) G).levels = G.levels := by
  induction nodes generalizing G with
  | nil => rfl
  | cons m rest ih => rw [List.foldl_cons, ih]; rfl

theorem tidy_foldl_addSuccessor (G : Graph) (nodes : List NodeId) (h : G.Tidy) :
    (nodes.foldl (·.addSuccessor · id) G).Tidy := by
  induction nodes generalizing G with
  | nil => exact h
  | cons m rest ih => exact ih _ h.addSuccessor

/-- What linking a binding with its fields does. -/
theorem linkFields_spec {b : Binding} (hb : g.registry.get? id = some b) :
    SameBeside g (g.linkFields id) ∧ (g.linkFields id).pending = g.pending ∧
      (g.linkFields id).graph.levels = g.graph.levels ∧ (g.graph.Tidy → (g.linkFields id).graph.Tidy) ∧
      (∀ n, (g.linkFields id).graph.formula? n = g.graph.formula? n) ∧
      (∀ n, (g.linkFields id).graph.predecessors n = g.graph.predecessors n) ∧
      (∀ i n, i ∈ (g.linkFields id).graph.successors n ↔
        i ∈ g.graph.successors n ∨ (i = id ∧ n ∈ b.fresh g.tree .fromScratch)) ∧
      (g.linkFields id).registry = g.registry.modify id fun b' =>
        { b' with cache := b'.cache.insertMany (b.fresh g.tree .fromScratch).toList } := by
  have heq : g.linkFields id = { g with
      graph := (b.fresh g.tree .fromScratch).toList.foldl (·.addSuccessor · id) g.graph
      registry := g.registry.modify id fun b' =>
        { b' with cache := b'.cache.insertMany (b.fresh g.tree .fromScratch).toList } } := by
    simp only [Form.linkFields, Registry.fresh?, hb, Option.map_some]
  rw [heq]
  refine ⟨⟨rfl, rfl, rfl, rfl⟩, rfl, levels_foldl_addSuccessor _ _, tidy_foldl_addSuccessor _ _,
    fun n => formula?_foldl_addSuccessor _ _, fun n => predecessors_foldl_addSuccessor _ _, fun i n => ?_, rfl⟩
  exact (successors_foldl_addSuccessor _ _ i).trans (by rw [Std.ExtTreeSet.mem_toList])

section Links

variable {b : Binding} (hb : g.registry.get? id = some b)

include hb in
theorem bound?_linkFields (i : BindingId) : (g.linkFields id).registry.bound? i = g.registry.bound? i := by
  obtain ⟨-, -, -, -, -, -, -, hregistry⟩ := linkFields_spec hb
  rw [hregistry]
  exact Registry.bound?_modify fun _ => rfl

include hb in
theorem caches_linkFields (i : BindingId) (m : NodeId) : (g.linkFields id).registry.Caches i m ↔
    g.registry.Caches i m ∨ (i = id ∧ m ∈ b.fresh g.tree .fromScratch) := by
  obtain ⟨-, -, -, -, -, -, -, hregistry⟩ := linkFields_spec hb
  rw [hregistry, Registry.Caches, Registry.get?_modify, Registry.Caches]
  by_cases hi : i = id
  · subst hi
    simp [hb]
  · simp [hi]

include hb in
/-- A binding is linked with the fields that it stands for. -/
theorem Filled.linkFields (h : Filled f g) : Filled f (g.linkFields id) := by
  obtain ⟨hbeside, hpending, hlevels, htidy, hformula, hpred, hsucc, hregistry⟩ := linkFields_spec hb
  have hserves (i : BindingId) (c : NodeId) :
      (g.linkFields id).registry.Serves i c ↔ g.registry.Serves i c := by
    rw [hregistry]
    exact Registry.serves_modify fun _ => rfl
  exact
    { coherent :=
        { successors := fun i m => by rw [hsucc, caches_linkFields hb, h.coherent.successors]; simp
          consumers := fun i c => by
            rw [hserves, h.coherent.consumers]
            unfold Graph.Uses
            rw [hformula]
          reads := fun n hn m => by
            have hnot (F : Formula) (hF : g.graph.formula? n = some F) : False :=
              hn (by show Option.isSome _ = true; rw [hformula, hF]; rfl)
            have hn' : ¬ (g.graph.formula? n).isSome = true := by rwa [← hformula]
            rw [hpred, h.coherent.reads n hn']
            refine iff_of_false ?_ ?_
            · rintro ⟨_, -, F, hF, -⟩
              exact hnot F hF
            · rintro ⟨_, -, F, hF, -⟩
              rw [hformula] at hF
              exact hnot F hF
          unread := fun _ hn => hn
          used := fun i b' hb' => by
            rw [hregistry, Registry.get?_modify] at hb'
            split at hb'
            · obtain ⟨b'', hb'', rfl⟩ := Option.map_eq_some_iff.1 hb'
              exact h.coherent.used i b'' hb''
            · exact h.coherent.used i b' hb'
          tidy := htidy h.coherent.tidy
          anchors := fun n F hF => h.coherent.anchors n F (hformula n ▸ hF)
          fresh := by
            rw [hregistry]
            exact h.coherent.fresh.modify _ }
      beside := h.beside.trans hbeside
      levels := by rw [hlevels, h.levels]
      pending := fun n hn => by
        rw [hformula] at hn
        rw [hpending]
        exact h.pending n hn }

include hb in
theorem FollowsBut.linkFields {left : List BindingId} (h : FollowsBut (fun _ => False) (· ∈ id :: left) g)
    (ht : g.tree.Keyed) : FollowsBut (fun _ => False) (· ∈ left) (g.linkFields id) := by
  obtain ⟨hbeside, -, -, -, hformula, -⟩ := linkFields_spec hb
  have hbound := bound?_linkFields hb
  have hmatched {i : BindingId} {d : Bound} {m : NodeId} (hd : g.registry.bound? i = some d) (hi : i = id) :
      m ∈ b.fresh g.tree .fromScratch ↔ g.tree.Matches d.selector d.base m := by
    subst hi
    have hbd : g.registry.bound? i = some b.bound := by rw [Registry.bound?, hb, Option.map_some]
    obtain rfl := Option.some.inj (hbd.symm.trans hd)
    exact h.mem_fresh_fromScratch ht hb
  exact
    { right := by
        rw [hbeside.tree]
        exact h.right.of_bound? fun i d hd => by rwa [hbound] at hd
      cached := fun i d m hd hc => by
        rw [hbound] at hd
        rw [hbeside.tree]
        rcases (caches_linkFields hb i m).1 hc with hc | ⟨hi, hm⟩
        · exact h.cached i d m hd hc
        · exact (hmatched hd hi).1 hm
      complete := fun i d m hd hraw hm hnew => by
        rw [hbound] at hd
        rw [hbeside.tree] at hm
        rw [caches_linkFields hb]
        by_cases hi : i = id
        · exact .inr ⟨hi, (hmatched hd hi).2 hm⟩
        · exact .inl (h.complete i d m hd (fun hmem => hraw ((List.mem_cons.1 hmem).resolve_left hi)) hm hnew)
      reads := fun n F hF => by
        rw [hformula] at hF
        obtain ⟨e, he, hreads⟩ := h.reads n F hF
        rw [hbeside.tree]
        exact ⟨e, he, hreads.congr rfl fun i _ d hd => ⟨d, by rw [hbound, hd], rfl, rfl⟩⟩
      registered := fun n e he hnew => by
        rw [hbeside.tree] at he
        rw [hformula]
        exact h.registered n e he hnew }

end Links

/-- All bindings are linked with the fields that they stand for. -/
theorem Filled.all {left : List BindingId} (h : Filled f g) (hleft : ∀ id ∈ left, (g.registry.get? id).isSome) :
    Filled f (left.foldl Form.linkFields g) ∧ (g.tree.Keyed → FollowsBut (fun _ => False) (· ∈ left) g →
      Follows (left.foldl Form.linkFields g)) := by
  induction left generalizing g with
  | nil => exact ⟨h, fun _ hfol => hfol.mono (fun _ hx => hx) fun _ hid => by simp at hid⟩
  | cons id rest ih =>
    obtain ⟨b, hb⟩ := Option.isSome_iff_exists.1 (hleft id List.mem_cons_self)
    obtain ⟨hfilled, hfollows⟩ := ih (h.linkFields hb) fun i hi => by
      have hsome := hleft i (List.mem_cons_of_mem _ hi)
      obtain ⟨b', hb'⟩ := Option.isSome_iff_exists.1 hsome
      have hbound : (g.linkFields id).registry.bound? i = some b'.bound := by
        rw [bound?_linkFields hb, Registry.bound?, hb', Option.map_some]
      obtain ⟨b'', hb'', -⟩ := Option.map_eq_some_iff.1 hbound
      rw [hb'']
      rfl
    have htree : (g.linkFields id).tree = g.tree := (linkFields_spec hb).1.tree
    exact ⟨hfilled, fun ht hfol => hfollows (htree ▸ ht) (hfol.linkFields hb ht)⟩

end Filling

section Finishing

/-- It is determined for some nodes what their formulas read. -/
theorem CoherentBut.resetAll {unread : NodeId → Prop} (h : CoherentBut { unread } g) (nodes : List NodeId) :
    CoherentBut { unread := fun x => unread x ∧ x ∉ nodes } (nodes.foldl Form.resetPredecessors g) ∧
      Relinked g (nodes.foldl Form.resetPredecessors g) ∧
      (nodes.foldl Form.resetPredecessors g).registry = g.registry ∧
      (nodes.foldl Form.resetPredecessors g).pending = g.pending ∧
      (nodes.foldl Form.resetPredecessors g).graph.levels = g.graph.levels := by
  induction nodes generalizing g unread with
  | nil => exact ⟨by simpa using h, .refl g, rfl, rfl, rfl⟩
  | cons n rest ih =>
    obtain ⟨hco, hrel, hregistry, hpending, hlevels⟩ := ih (h.resetPredecessors (n := n))
    refine ⟨?_, relinked_resetPredecessors.trans hrel, hregistry, hpending, ?_⟩
    · rw [List.foldl_cons]
      simpa only [List.mem_cons, not_or, and_assoc, ne_eq] using hco
    · rw [List.foldl_cons, hlevels, levels_resetPredecessors]

/-- A form of which all formulas have been read, with all its links. -/
def filled (g : Form) : Form :=
  let g := g.registry.ids.foldl Form.linkFields g
  g.graph.formulaNodes.foldl Form.resetPredecessors g

/-- Once all links are made, nothing is missing but the levels. -/
theorem Read.finished (h : Read f [] g) : Coherent g.filled ∧ SameBeside f g.filled ∧ g.filled.graph.levels = none ∧
    (∀ n, (g.filled.graph.formula? n).isSome → n ∈ g.filled.pending) ∧
    (g.tree.Keyed → FollowsBut (· ∈ []) (fun _ => True) g → Follows g.filled) := by
  obtain ⟨hfilled, hfollows⟩ := h.filled.all fun id hid => Registry.mem_ids.1 hid
  unfold Form.filled
  dsimp only
  generalize g.registry.ids.foldl Form.linkFields g = g' at *
  obtain ⟨hbut, hrel, hregistry, hpending, hlevels⟩ := hfilled.coherent.resetAll g'.graph.formulaNodes
  refine ⟨hbut.of_unread fun x ⟨hx, hnot⟩ => hnot (Graph.mem_formulaNodes.2 hx), hfilled.beside.trans hrel.beside,
    by rw [hlevels, hfilled.levels], fun n hn => ?_, fun ht hfol => ?_⟩
  · rw [hrel.formula] at hn
    rw [hpending]
    exact hfilled.pending n hn
  · have hfol' := hfollows ht hfol.unfilled
    refine hfol'.relinked hrel (fun id d m hd hc => ?_) (fun id d m hd _ hm hnew => ?_) hfol'.registered
    · exact hfol'.cached id d m hd (hregistry ▸ hc)
    · rw [hregistry]
      exact hfol'.complete id d m hd not_false hm hnew

/-- No bindings are made when links are. -/
theorem newerThan_filled {k : Nat} (h : g.registry.NewerThan k) : g.filled.registry.NewerThan k := by
  have hlink (g : Form) (id : BindingId) (hg : g.registry.NewerThan k) : (g.linkFields id).registry.NewerThan k := by
    unfold Form.linkFields
    split
    · exact hg
    · exact hg.modify _
  have hlinks (ids : List BindingId) (g : Form) (hg : g.registry.NewerThan k) :
      (ids.foldl Form.linkFields g).registry.NewerThan k := by
    induction ids generalizing g with
    | nil => exact hg
    | cons id rest ih => exact ih _ (hlink g id hg)
  have hreset (nodes : List NodeId) (g : Form) (hg : g.registry.NewerThan k) :
      (nodes.foldl Form.resetPredecessors g).registry.NewerThan k := by
    induction nodes generalizing g with
    | nil => exact hg
    | cons n rest ih => exact ih _ hg
  exact hreset _ _ (hlinks _ _ h)

/-- The levels tell whether there is a circle. -/
theorem CoherentBut.levels_spec (h : Coherent f) (hnone : f.graph.levels = none) : Ends (Form.levels f)
    (fun levels g => f.Acyclic ∧ g = { f with graph := { f.graph with levels := some levels } } ∧ g.graph.LevelsRight)
    (fun e g => g = f ∧ ∃ circle, Graph.Circular f.Feeds circle ∧ e = f.cycleError circle) := by
  have hedges {m n : NodeId} (hm : m ∈ f.graph.sources n) : f.Feeds m n :=
    (h.reads n not_false m).1 (Graph.mem_sources.1 hm).1
  rw [Form.levels_eq]
  rw [hnone]
  cases hc : f.graph.computeLevels with
  | error circle =>
    exact ⟨rfl, circle, (Graph.circular_of_computeLevelsBy hc).mono fun m n => hedges, rfl⟩
  | ok levels =>
    refine ⟨fun n hn => ?_, rfl, fun levels' hlevels' => ?_⟩
    · have hstep {a b : NodeId} (hfeeds : TransGen f.Feeds a b) : levels.getD a 0 < levels.getD b 0 := by
        induction hfeeds with
        | single hab => exact h.level_lt hc hab
        | tail _ hbc ih => exact ih.trans (h.level_lt hc hbc)
      exact absurd (hstep hn) (lt_irrefl _)
    · obtain rfl := Option.some.inj hlevels'
      refine Graph.computeLevels_congr ?_ ?_ hc <;> exact fun _ => rfl

/-- A graph is derived in three steps: formulas are read, links are made, and levels are determined. -/
theorem ends_derive {ok : Unit → Form → Prop} {failed : FormError → Form → Prop}
    (h : Ends ((anchors f.tree).forM (fun entry : NodeId × String => Form.addFormula entry.1 entry.2)
        { f with graph := f.graph.outdated })
      (fun _ g => Ends (Form.levels g.filled) (fun _ => ok ()) failed) failed) : Ends (derive f) ok failed := by
  unfold Form.derive
  refine Ends.bind (FormM.ends_update (Ends.bind (Ends.pure (Ends.bind (h.mono ?_ fun _ _ he => he)))))
  rintro _ g hlevels
  exact Ends.bind (FormM.ends_update (Ends.bind (FormM.ends_update (Ends.bind hlevels))))

section Derive

variable (hfresh : f.registry.Fresh) (hempty : ∀ id, f.registry.get? id = none) (hvertices : f.graph.vertices = ∅)

include hfresh hempty hvertices in
/-- Deriving the graph makes it agree with the registry, whatever the tree is like. -/
theorem derive_consistent (hnodup : f.tree.fields.ids.Nodup) (hroot : rootId ∉ f.tree.fields.ids) :
    Ends (derive f) (fun _ g => Consistent g ∧ SameBeside f g) (fun _ g => Coherent g ∧ SameBeside f g) := by
  refine ends_derive (((Read.start hfresh hempty hvertices).all (P := fun _ _ => True)
    (nodup_anchors hnodup hroot) trivial fun _ _ _ _ _ _ _ _ _ _ => trivial).mono ?_ ?_)
  · rintro _ g ⟨hread, -⟩
    obtain ⟨hco, hbeside, hnone, -⟩ := hread.finished
    refine (hco.levels_spec hnone).mono ?_ ?_
    · rintro levels g' ⟨hacyclic, rfl, hright⟩
      exact ⟨⟨hco.congr rfl rfl, hacyclic, hright⟩, hbeside.tree, hbeside.schedule, hbeside.stopAtOverride,
        hbeside.cacheRefresh⟩
    · rintro _ g' ⟨rfl, -⟩
      exact ⟨hco, hbeside⟩
  · rintro _ g ⟨hco, hbeside, -⟩
    exact ⟨hco, hbeside⟩

include hfresh hempty hvertices in
/-- Deriving the graph from the tree fails only if a formula is at fault or depends on itself. -/
theorem derive_spec (ht : f.tree.Keyed) : Ends (derive f)
      (fun _ g => Tracking g ∧ SameBeside f g ∧ (∀ n, (g.graph.formula? n).isSome → n ∈ g.pending) ∧
        g.registry.NewerThan f.registry.serial)
      (fun e g => Coherent g ∧ SameBeside f g ∧ f.tree.Explains e) := by
  have hroot : rootId ∉ f.tree.fields.ids := fun hmem => ht.ne_root _ hmem rfl
  refine ends_derive (((Read.start hfresh hempty hvertices).all
    (P := fun left g => g.tree = f.tree ∧ FollowsBut (· ∈ left) (fun _ => True) g ∧
      g.registry.NewerThan f.registry.serial) (nodup_anchors ht.nodup hroot)
    ⟨rfl, FollowsBut.start hempty hvertices ht, Nat.le_refl _, fun id hid => by simp [hempty] at hid⟩ ?_).mono ?_ ?_)
  · rintro n e left g F r hmem hread hp ⟨htree, hfol, hnewer⟩
    refine ⟨htree, hfol.addFormula (htree ▸ ht) hread ?_ hp, (Formula.parse_newerThan hnewer e).of_ok hp⟩
    rw [htree]
    exact (mem_anchors ht).1 hmem
  · rintro _ g ⟨hread, htree, hfol, hnewer⟩
    obtain ⟨hco, hbeside, hnone, hmarked, hfollows⟩ := hread.finished
    have hfollows' := hfollows (htree ▸ ht) hfol
    refine (hco.levels_spec hnone).mono ?_ ?_
    · rintro levels g' ⟨hacyclic, rfl, hright⟩
      have htrack : Tracking g.filled := ⟨hco, hbeside.tree ▸ ht, hfollows', hacyclic, Graph.levelsRight_of_none hnone⟩
      exact ⟨htrack.congr rfl rfl rfl hright, ⟨hbeside.tree, hbeside.schedule, hbeside.stopAtOverride,
        hbeside.cacheRefresh⟩, hmarked, newerThan_filled hnewer⟩
    · rintro e g' ⟨rfl, circle, hcircle, rfl⟩
      refine ⟨hco, hbeside, .inl ?_⟩
      rw [← hbeside.tree]
      exact ⟨circle, hcircle.mono fun _ _ => hfollows'.tree_feeds, rfl⟩
  · rintro e g ⟨hco, hbeside, herror, n, text, hmem, hnot⟩
    exact ⟨hco, hbeside, .inr ⟨herror, n, text, (mem_anchors ht).1 hmem, hnot⟩⟩

end Derive

end Finishing

section Rebuilding

/-- A form whose graph has been derived anew, and all of whose formulas have been evaluated. -/
structure Rebuilt (f g : Form) : Prop where
  settled : Settled g
  pending : g.pending = ∅
  fresh : ∀ n, ¬ g.Stale n
  blank : g.tree.blank = f.tree.blank
  shaped : f.tree.Shaped → g.tree.Shaped
  schedule : g.schedule = f.schedule

/-- A graph could not be derived, for the reason that the error gives. It is left empty. -/
structure Emptied (e : FormError) (f g : Form) : Prop where
  consistent : Consistent g
  tree : g.tree = f.tree
  schedule : g.schedule = f.schedule
  reason : f.tree.Explains e

theorem levelsRight_empty : ({} : Graph).LevelsRight := by
  rintro levels hlevels
  obtain rfl : ∅ = levels := Option.some.inj hlevels
  have hnodes : ({} : Graph).nodes = [] := by
    rw [List.eq_nil_iff_forall_not_mem]
    intro n hn
    rw [Graph.mem_nodes, Graph.contains_eq, Graph.get?] at hn
    simp at hn
  rw [Graph.computeLevels, Graph.computeLevelsBy, hnodes]
  simp [SearchOrder.ascending, Graph.explore]

/-- An emptied form is ready for its graph to be derived. -/
theorem CoherentBut.clear_spec (h : Coherent f) : Consistent f.clear ∧ SameBeside f f.clear := by
  obtain ⟨hfresh, hempty⟩ := h.clear
  refine ⟨⟨coherent_of_empty hfresh hempty rfl, fun n hn => ?_, levelsRight_empty⟩, rfl, rfl, rfl, rfl⟩
  obtain ⟨_, ⟨_, ⟨b, hb, -⟩, -⟩, -⟩ := TransGen.head'_iff.1 hn
  simp [hempty] at hb

/-- A form whose graph has been derived anew from its tree, and all of whose formulas have been evaluated. Nothing is left
of what the registry held. -/
structure Renewed (f g : Form) : Prop where
  tracking : Tracking g
  pending : g.pending = ∅
  blank : g.tree.blank = f.tree.blank
  others : ∀ n, g.graph.formula? n = none → g.tree.place? n = f.tree.place? n
  evaluated : ∀ n, (g.graph.formula? n).isSome → g.Evaluated n
  newer : g.registry.NewerThan f.registry.serial
  schedule : g.schedule = f.schedule

/-- Whatever the graph of a form holds, and whichever nodes of its tree have formulas, deriving it anew makes it follow
the tree, unless a formula is at fault or there is a circle. -/
theorem CoherentBut.renew (h : Coherent f) (ht : f.tree.Keyed) : Ends (rebuild f) (fun _ g => Renewed f g)
    (fun e g => ∃ g₀, Coherent g₀ ∧ SameBeside f g₀ ∧ g = g₀.clear ∧ f.tree.Explains e) := by
  obtain ⟨hfresh, hempty⟩ := h.clear
  unfold Form.rebuild Form.rebuildGraph
  refine Ends.bind (FormM.ends_update (Ends.bind (FormM.ends_orUndo ?_)))
  refine (derive_spec (f := f.clear) hfresh hempty rfl ht).mono ?_ ?_
  · rintro _ d ⟨htrack, hbeside, hmarked, hnewer⟩
    obtain ⟨f₀, report, g, hrun, hclear, hreported, hevaluated⟩ := htrack.recomputePendingBy .ascending
    rw [if_pos rfl]
    refine Ends.bind ?_
    show Ends (Form.recomputePending d) _ _
    unfold Form.recomputePending
    rw [hrun]
    have hval := hreported.valued
    have htrack₀ : Tracking f₀ := htrack.congr hclear.beside.tree hclear.registry hclear.vertices hclear.levels
    have hgraph : g.graph = f₀.graph := by rw [hval.same]; rfl
    have hregistry : g.registry = d.registry := by
      rw [← hclear.registry, hval.same]
      rfl
    have hformula (x : NodeId) : g.graph.formula? x = d.graph.formula? x := by
      rw [hgraph, Graph.formula?, Graph.get?, hclear.vertices, Graph.formula?, Graph.get?]
    have htree : d.tree = f.tree := hbeside.tree
    have hdone (x : NodeId) (hx : (d.graph.formula? x).isSome) : x ∈ report.evaluated := by
      obtain ⟨F, hF⟩ := Option.isSome_iff_exists.1 hx
      obtain ⟨e, ⟨q, hq, -⟩, -⟩ := htrack.follows.reads x F hF
      have hcontains : d.tree.contains x = true := by
        rw [FieldTree.contains_eq, hq]
        rfl
      refine (hevaluated x).2 ⟨mem_affected.2 (.inl ?_), hcontains, hx⟩
      simp only [seeds, Std.ExtTreeSet.mem_filter]
      exact ⟨hmarked x hx, by simp [Graph.contains_of_formula? hF, hcontains]⟩
    refine Ends.pure
      { tracking := ?_, pending := ?_, blank := ?_, others := fun x hx => ?_, evaluated := fun x hx => ?_, newer := ?_,
        schedule := ?_ }
    · rw [hval.same]
      exact htrack₀.of_blank hval.blank
    · rw [hval.same]
      exact hclear.pending
    · rw [hval.blank, hclear.beside.tree, htree]
    · rw [hval.others x fun hmem => ?_, hclear.beside.tree, htree]
      have hsome := ((hevaluated x).1 hmem).2.2
      rw [← hformula, hx] at hsome
      simp at hsome
    · exact hval.evaluated x (hdone x (hformula x ▸ hx))
    · rw [hregistry, ← serial_clear]
      exact hnewer
    · rw [hval.same]
      exact hclear.beside.schedule.trans hbeside.schedule
  · rintro error g ⟨hco, hbeside, hreason⟩
    exact ⟨g, hco, ⟨hbeside.tree, hbeside.schedule, hbeside.stopAtOverride, hbeside.cacheRefresh⟩, rfl, hreason⟩

/-- Whatever the graph of a form holds, deriving it anew makes it follow the tree. -/
theorem CoherentBut.rebuild (h : Coherent f) (ht : f.tree.WellFormed) : Ends (rebuild f)
    (fun _ g => Rebuilt f g) (fun e g => Emptied e f g) := by
  refine (h.renew ht.keyed).mono ?_ ?_
  · rintro _ g hg
    have hset : Settled g := hg.tracking.upkept (ht.of_blank hg.blank)
    refine ⟨hset, hg.pending, fun n hn => ?_, hg.blank, fun hs => hs.of_blank hg.blank, hg.schedule⟩
    obtain ⟨F, q, hF, hq, hvalue⟩ := hset.stale_iff.1 hn
    obtain ⟨F', q', hF', hq', hv⟩ := hg.evaluated n (by rw [hF]; rfl)
    obtain rfl := Option.some.inj (hF.symm.trans hF')
    obtain rfl := Option.some.inj (hq.symm.trans hq')
    exact hvalue hv
  · rintro error g ⟨g₀, hco, hbeside, rfl, hreason⟩
    obtain ⟨hcons, hbeside'⟩ := hco.clear_spec
    exact ⟨hcons, hbeside'.tree.trans hbeside.tree, hbeside'.schedule.trans hbeside.schedule, hreason⟩

end Rebuilding

end LiveForm.Form
