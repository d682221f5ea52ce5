import LiveForm.Form.Recompute
import LiveForm.Proofs.Form.Staleness
import LiveForm.Proofs.Tree.Blank

/-!
# Evaluating formulas

As long as graph and registry agree, and whatever the tree is like, there are levels, and a formula that is evaluated by
them comes after those that it reads. So it has the value that the caches of its bindings give it, then and when all is
done. There is only one way to give formulas such values.
-/

set_option autoImplicit false

namespace LiveForm

/-- The value that is stored for the formula of a node. -/
def FieldTree.formulaValue? (t : FieldTree) (n : NodeId) : Option Value :=
  (t.get? n).bind (·.formulaValue)

theorem FieldTree.formulaValue?_of_place? {t : FieldTree} {n : NodeId} {q : Place} (h : t.place? n = some q) :
    t.formulaValue? n = q.node.formulaValue := by
  rw [formulaValue?, get?_eq, h]
  rfl

theorem FieldTree.formulaValue?_congr {t t' : FieldTree} {n : NodeId} (h : t'.place? n = t.place? n) :
    t'.formulaValue? n = t.formulaValue? n := by
  rw [formulaValue?, formulaValue?, get?_eq, get?_eq, h]

/-- Nodes of trees that differ in the values of formulas only are equal if these are. -/
theorem FieldTree.get?_eq_of_blank {t t' : FieldTree} (hblank : t'.blank = t.blank) {n : NodeId}
    (hvalue : t'.formulaValue? n = t.formulaValue? n) : t'.get? n = t.get? n := by
  cases hq : t.place? n with
  | none =>
    have hq' : t'.place? n = none := by
      have hcontains := contains_of_blank hblank n
      rw [contains_eq, contains_eq, hq] at hcontains
      simpa using hcontains
    rw [get?_eq, get?_eq, hq, hq']
  | some q =>
    obtain ⟨q', hq', hqq⟩ := place?_of_blank hblank hq
    rw [formulaValue?_of_place? hq, formulaValue?_of_place? hq'] at hvalue
    rw [get?_eq, get?_eq, hq, hq', Option.map_some, Option.map_some,
      Node.eq_of_blank (congrArg Place.node hqq) hvalue]

/-- Whether the values that two trees store for the formula of a node count as different. -/
def FieldTree.differsAt (t t' : FieldTree) (n : NodeId) : Bool :=
  t.formulaValue? n != t'.formulaValue? n

/-- The value of one formula has been set, and nothing else in the tree has changed. -/
structure FieldTree.Filled (t : FieldTree) (n : NodeId) (q : Place) (value : Option Value) (t' : FieldTree) : Prop where
  blank : t'.blank = t.blank
  others : ∀ x, x ≠ n → t'.place? x = t.place? x
  place : t'.place? n = some { q with node := { q.node with formulaValue := value } }

theorem FieldTree.filled_modify {t : FieldTree} {n : NodeId} {q : Place} (hq : t.place? n = some q)
    (value : Option Value) : t.Filled n q value (t.modify n fun node => { node with formulaValue := value }) := by
  have hplace (x : NodeId) : (t.modify n fun node => { node with formulaValue := value }).place? x =
      (t.place? x).map fun p =>
        { p with node := if x = n then { p.node with formulaValue := value } else p.node } :=
    place?_modify (f := fun node => { node with formulaValue := value }) (fun _ => rfl) x
  refine ⟨blank_modify (m := fun node => { node with formulaValue := value }) (fun _ => rfl) n, fun x hx => ?_, ?_⟩
  · rw [hplace]
    cases t.place? x with
    | none => rfl
    | some p => simp [hx]
  · rw [hplace, hq, Option.map_some, if_pos rfl]

/-- Setting a value is a difference more if the node had the old value in the other tree, and the values differ. -/
theorem FieldTree.Filled.countP_differsAt {t₀ t t' : FieldTree} {n : NodeId} {q : Place} {value : Option Value}
    (h : t.Filled n q value t') (hq : t₀.place? n = some q) {done : List NodeId} (hn : n ∉ done) :
    (done ++ [n]).countP (t₀.differsAt t') =
      done.countP (t₀.differsAt t) + if q.node.formulaValue != value then 1 else 0 := by
  have hold : done.countP (t₀.differsAt t') = done.countP (t₀.differsAt t) := by
    refine List.countP_congr fun x hx => ?_
    rw [differsAt, differsAt, formulaValue?_congr (h.others x fun hxn => hn (hxn ▸ hx))]
  have hnew : t₀.differsAt t' n = (q.node.formulaValue != value) := by
    rw [differsAt, formulaValue?_of_place? hq, formulaValue?_of_place? h.place]
  rw [List.countP_append, List.countP_singleton, hold, hnew]

namespace Form

variable {f g : Form} {n m : NodeId} {F : Formula} {order : VisitOrder} {report : Report}

section Levels

theorem Consistent.acyclic_sources (h : Consistent f) (n : NodeId) :
    ¬ Relation.TransGen (fun m n => m ∈ f.graph.sources n) n n := fun hn =>
  h.acyclic n (Relation.TransGen.mono (fun _ _ hm =>
    (h.coherent.reads _ not_false _).1 (Graph.mem_sources.1 hm).1) _ _ hn)

/-- There are levels. -/
theorem Consistent.levels_ok (h : Consistent f) : ∃ levels,
    f.graph.computeLevels = .ok levels ∧
      Form.levels f = .ok levels { f with graph := { f.graph with levels := some levels } } := by
  rw [Form.levels_eq]
  cases hl : f.graph.levels with
  | some levels =>
    refine ⟨levels, h.levels levels hl, ?_⟩
    dsimp only
    congr 2
    rw [← hl]
  | none =>
    obtain ⟨levels, hlevels⟩ := Graph.exists_computeLevels h.acyclic_sources
    refine ⟨levels, hlevels, ?_⟩
    simp only [hlevels]

/-- A formula has a greater level than the fields that it reads. -/
theorem CoherentBut.level_lt (h : Coherent f) {levels : Std.ExtTreeMap NodeId Nat}
    (hlevels : f.graph.computeLevels = .ok levels) (hfeeds : f.Feeds m n) :
    levels.getD m 0 < levels.getD n 0 := by
  obtain ⟨hmem, hasc⟩ := Graph.ascending_of_computeLevels hlevels
  have ⟨_, _, _, hF, _⟩ := hfeeds
  have hm : f.graph.contains m = true := h.contains_of_feeds hfeeds
  have hn' : n ∈ levels := (hmem n).2 (Graph.contains_of_formula? hF)
  obtain ⟨k, hk⟩ : ∃ k, levels[n]? = some k := by
    rw [← Option.isSome_iff_exists]
    simpa using hn'
  have hsource : m ∈ f.graph.sources n :=
    Graph.mem_sources.2 ⟨(h.reads n not_false m).2 hfeeds, hm⟩
  obtain ⟨k', hk', hlt⟩ := hasc n k hk m hsource
  rw [Std.ExtTreeMap.getD_eq_getD_getElem?, Std.ExtTreeMap.getD_eq_getD_getElem?, hk, hk']
  exact hlt

end Levels

section Evaluating

/-- The value of a node is that of its formula. -/
def Evaluated (f : Form) (n : NodeId) : Prop :=
  ∃ F q, f.graph.formula? n = some F ∧ f.tree.place? n = some q ∧
    q.node.formulaValue = F.evaluateCached f.registry f.tree

/-- Some formulas have been evaluated, and nothing else has changed. -/
structure Valued (f g : Form) (done : List NodeId) : Prop where
  same : g = f.withTree g.tree
  blank : g.tree.blank = f.tree.blank
  others : ∀ x, x ∉ done → g.tree.place? x = f.tree.place? x
  evaluated : ∀ x ∈ done, g.Evaluated x

/-- The values of formulas do not matter for what registry and graph hold. -/
theorem FollowsBut.of_blank (h : Follows f) {t : FieldTree} (hblank : t.blank = f.tree.blank) :
    Follows (f.withTree t) :=
  h.withTree (fun x _ => FieldTree.outline_of_blank hblank x) (fun _ (hx : False) => hx.elim)
    (fun _ hx => hx.elim) (fun _ _ _ hx => hx) (fun _ hx => hx.elim) fun _ hx _ => hx

theorem Tracking.of_blank (h : Tracking f) {t : FieldTree} (hblank : t.blank = f.tree.blank) :
    Tracking (f.withTree t) :=
  ⟨Coherent.withTree h.coherent, h.keyed.of_blank hblank, h.follows.of_blank hblank, h.acyclic, h.levels⟩

/-- The formulas that a report names have been evaluated, each one after those that it reads, and it tells how many of
their values have changed. -/
structure Reported (f : Form) (report : Report) (g : Form) : Prop where
  valued : Valued f g report.evaluated
  changed : report.changed = report.evaluated.countP (f.tree.differsAt g.tree)
  nodup : report.evaluated.Nodup
  ordered : report.evaluated.Pairwise fun a b => ¬ f.Feeds b a

theorem Reported.start (f : Form) : Reported f {} f :=
  ⟨⟨rfl, rfl, fun _ _ => rfl, by simp⟩, rfl, .nil, .nil⟩

/-- A formula has the same value for two trees if the fields that it reads are worth the same. -/
theorem CoherentBut.evaluateCached_eq (h : Coherent f) {t t' : FieldTree} (hblank : t'.blank = t.blank)
    (hF : f.graph.formula? n = some F) (hsame : ∀ m, f.Feeds m n → t'.authoritative? m = t.authoritative? m) :
    F.evaluateCached f.registry t' = F.evaluateCached f.registry t := by
  refine Formula.evaluateCached_congr fun id hid => ?_
  obtain ⟨b, hb⟩ := h.exists_get? hF hid
  refine ⟨b, b, hb, hb, rfl, rfl, fun m _ => ?_, fun m _ k _ => ?_, fun m hm => ?_⟩
  · exact FieldTree.contains_of_blank hblank m
  · rw [FieldTree.path_of_blank hblank, FieldTree.path_of_blank hblank]
  · exact hsame m ⟨id, ⟨b, hb, hm⟩, F, hF, hid⟩

/-- A node at which recomputing stops is overridden, so its readers do not see the value of its formula. -/
theorem authoritative?_of_stop {t : FieldTree} (hblank : t.blank = f.tree.blank) (hstop : f.passes m = false) :
    t.authoritative? m = f.tree.authoritative? m := by
  unfold passes at hstop
  rw [Bool.not_eq_false', Bool.and_eq_true] at hstop
  cases hp : f.tree.place? m with
  | none => simp [FieldTree.get?_eq, hp] at hstop
  | some p =>
    obtain ⟨p', hp', hpp⟩ := FieldTree.place?_of_blank hblank hp
    obtain ⟨-, -, -, hval, -⟩ := Place.blank_eq hpp
    have hover : p.node.formula.isSome = true ∧ p.node.value.isVoid = false := by
      simpa [FieldTree.get?_eq, hp, Node.isOverridden] using hstop.2
    unfold FieldTree.authoritative?
    rw [FieldTree.get?_eq, FieldTree.get?_eq, hp, hp']
    simp [Node.authoritative?, hval, hover.2]

/-- A formula has the same value when some formulas have been evaluated, if recomputing stops at those that it reads. -/
theorem CoherentBut.evaluateCached_of_others (h : Coherent f) {t : FieldTree} {done : List NodeId}
    (hblank : t.blank = f.tree.blank) (hothers : ∀ x, x ∉ done → t.place? x = f.tree.place? x)
    (hF : f.graph.formula? n = some F) (hstop : ∀ m ∈ done, f.Feeds m n → f.passes m = false) :
    F.evaluateCached f.registry t = F.evaluateCached f.registry f.tree := by
  refine h.evaluateCached_eq hblank hF fun m hm => ?_
  by_cases hmn : m ∈ done
  · exact authoritative?_of_stop hblank (hstop m hmn hm)
  · unfold FieldTree.authoritative?
    rw [FieldTree.get?_eq, FieldTree.get?_eq, hothers m hmn]

theorem evaluate_eq {q : Place} (hF : f.graph.formula? n = some F) (hq : f.tree.place? n = some q) :
    f.evaluate n = (q.node.formulaValue != F.evaluateCached f.registry f.tree,
      f.withTree (f.tree.modify n fun node => { node with formulaValue := F.evaluateCached f.registry f.tree })) := by
  obtain ⟨l, hl, rfl⟩ := FieldTree.exists_locate? hq
  unfold Form.evaluate FieldTree.setFormulaValue FieldTree.require
  simp only [hF, hl, bind, Except.bind, pure, Except.pure]
  rfl

/-- One formula more is evaluated. -/
def evaluateNext (done : Report × Form) (node : NodeId) : Report × Form :=
  ({ evaluated := done.1.evaluated ++ [node]
     changed := if (evaluate done.2 node).1 then done.1.changed + 1 else done.1.changed }, (evaluate done.2 node).2)

/-- A formula that does not read a node keeps its value when another value is set there. -/
theorem CoherentBut.evaluateCached_of_filled (h : Coherent f) {t t' : FieldTree} {q : Place} {value : Option Value}
    (ht : t.Filled n q value t') (hF : f.graph.formula? m = some F) (hm : ¬ f.Feeds n m) :
    F.evaluateCached f.registry t' = F.evaluateCached f.registry t := by
  refine h.evaluateCached_eq ht.blank hF fun x hx => ?_
  have hxn : x ≠ n := by
    rintro rfl
    exact hm hx
  unfold FieldTree.authoritative?
  rw [FieldTree.get?_eq, FieldTree.get?_eq, ht.others x hxn]

/-- What has been evaluated does not read the node that is evaluated next, so it keeps its value. -/
theorem Valued.step {done : List NodeId} (h : Valued f g done) (hco : Coherent f) (hF : f.graph.formula? n = some F)
    (hn : n ∉ done) (hself : ¬ f.Feeds n n) (hlater : ∀ x ∈ done, ¬ f.Feeds n x) {t : FieldTree} {q : Place}
    (ht : g.tree.Filled n q (F.evaluateCached f.registry g.tree) t) : Valued f (g.withTree t) (done ++ [n]) := by
  have hregistry : g.registry = f.registry := by rw [h.same]; rfl
  have hgraph : g.graph = f.graph := by rw [h.same]; rfl
  refine ⟨by rw [h.same]; rfl, ht.blank.trans h.blank, fun x hx => ?_, fun x hx => ?_⟩
  · rw [List.mem_append, not_or, List.mem_singleton] at hx
    exact (ht.others x hx.2).trans (h.others x hx.1)
  · show ∃ F' q', g.graph.formula? x = some F' ∧ t.place? x = some q' ∧
      q'.node.formulaValue = F'.evaluateCached g.registry t
    rw [hgraph, hregistry]
    rcases List.mem_append.1 hx with hdone | hlast
    · have hxn : x ≠ n := by
        rintro rfl
        exact hn hdone
      obtain ⟨F', q', hF', hq', hvalue⟩ := h.evaluated x hdone
      rw [hgraph] at hF'
      rw [hregistry, ← hco.evaluateCached_of_filled ht hF' (hlater x hdone)] at hvalue
      exact ⟨F', q', hF', (ht.others x hxn).trans hq', hvalue⟩
    · obtain rfl := List.mem_singleton.1 hlast
      exact ⟨F, _, hF, ht.place, (hco.evaluateCached_of_filled ht hF hself).symm⟩

/-- A formula is evaluated that none of those reads which have been evaluated. -/
theorem Reported.step (h : Reported f report g) (hco : Coherent f) {q : Place} (hF : f.graph.formula? n = some F)
    (hq : f.tree.place? n = some q) (hn : n ∉ report.evaluated) (hself : ¬ f.Feeds n n)
    (hlater : ∀ x ∈ report.evaluated, ¬ f.Feeds n x) :
    Reported f (evaluateNext (report, g) n).1 (evaluateNext (report, g) n).2 := by
  obtain ⟨hval, hchanged, hnodup, hordered⟩ := h
  have hregistry : g.registry = f.registry := by rw [hval.same]; rfl
  have hgF : g.graph.formula? n = some F := by rw [hval.same]; exact hF
  have hgq : g.tree.place? n = some q := (hval.others n hn).trans hq
  have hfilled := FieldTree.filled_modify hgq (F.evaluateCached f.registry g.tree)
  unfold evaluateNext
  rw [evaluate_eq hgF hgq, hregistry]
  refine ⟨hval.step hco hF hn hself hlater hfilled, ?_, ?_, ?_⟩
  · show (if (q.node.formulaValue != F.evaluateCached f.registry g.tree) = true then report.changed + 1
      else report.changed) = _
    rw [hchanged]
    refine .trans ?_ (hfilled.countP_differsAt hq hn).symm
    split <;> rfl
  · refine List.nodup_append.2 ⟨hnodup, List.nodup_singleton n, fun x hx y hy hxy => ?_⟩
    exact hn (List.mem_singleton.1 hy ▸ hxy ▸ hx)
  · refine List.pairwise_append.2 ⟨hordered, List.pairwise_singleton _ _, fun x hx y hy => ?_⟩
    obtain rfl := List.mem_singleton.1 hy
    exact hlater x hx

/-- The formulas of some nodes are evaluated, each one after those that it reads. -/
theorem Consistent.evaluateAll (h : Consistent f) (nodes : List NodeId) (hnodup : nodes.Nodup)
    (hnodes : ∀ x ∈ nodes, f.tree.contains x = true ∧ (f.graph.formula? x).isSome)
    (hsorted : nodes.Pairwise fun a b => ¬ f.Feeds b a) :
    (f.evaluateAll nodes).1.evaluated = nodes ∧ Reported f (f.evaluateAll nodes).1 (f.evaluateAll nodes).2 := by
  have hgen (rest : List NodeId) : ∀ (report : Report) (g : Form), nodes = report.evaluated ++ rest →
      Reported f report g → (rest.foldl evaluateNext (report, g)).1.evaluated = nodes ∧
      Reported f (rest.foldl evaluateNext (report, g)).1 (rest.foldl evaluateNext (report, g)).2 := by
    induction rest with
    | nil =>
      intro report g hdone hg
      exact ⟨by simpa using hdone.symm, hg⟩
    | cons a rest ih =>
      intro report g hdone hg
      obtain ⟨hcontains, hsome⟩ := hnodes a (by simp [hdone])
      obtain ⟨F, hF⟩ := Option.isSome_iff_exists.1 hsome
      rw [FieldTree.contains_eq] at hcontains
      obtain ⟨q, hq⟩ := Option.isSome_iff_exists.1 hcontains
      have hn : a ∉ report.evaluated := by
        intro hc
        rw [hdone, List.nodup_append] at hnodup
        exact hnodup.2.2 a hc a List.mem_cons_self rfl
      have hlater : ∀ x ∈ report.evaluated, ¬ f.Feeds a x := by
        intro x hx
        rw [hdone, List.pairwise_append] at hsorted
        exact hsorted.2.2 x hx a List.mem_cons_self
      have hself : ¬ f.Feeds a a := fun hfeeds => h.acyclic a (.single hfeeds)
      exact ih _ _ (by simp [hdone]) (hg.step h.coherent hF hq hn hself hlater)
  exact hgen nodes {} f rfl (.start f)

/-- Formulas can be given their values in one way only. -/
theorem Consistent.tree_eq (h : Consistent f) {t t' : FieldTree} (hnodup : t.fields.ids.Nodup)
    (hroot : rootId ∉ t.fields.ids) (hblank : t'.blank = t.blank)
    (hvalue : ∀ x, t'.formulaValue? x = t.formulaValue? x ∨ ∃ F, f.graph.formula? x = some F ∧
      t.formulaValue? x = F.evaluateCached f.registry t ∧
      t'.formulaValue? x = F.evaluateCached f.registry t') : t' = t := by
  obtain ⟨levels, hlevels, -⟩ := h.levels_ok
  refine FieldTree.eq_of_blank hnodup hroot hblank fun x => ?_
  -- By induction on the level: the fields that a formula reads have smaller ones.
  induction hk : levels.getD x 0 using Nat.strong_induction_on generalizing x with
  | _ k ih =>
    subst hk
    refine FieldTree.get?_eq_of_blank hblank ?_
    rcases hvalue x with hsame | ⟨F, hF, hv, hv'⟩
    · exact hsame
    · rw [hv, hv']
      refine h.coherent.evaluateCached_eq hblank hF fun m hm => ?_
      unfold FieldTree.authoritative?
      rw [ih _ (h.coherent.level_lt hlevels hm) m rfl]

end Evaluating

section Following

/-- What is evaluated if some nodes are affected. -/
theorem mem_evaluationOrder {levels : Std.ExtTreeMap NodeId Nat} {nodes : NodeSet} :
    n ∈ f.evaluationOrder order levels nodes ↔
      n ∈ nodes ∧ f.tree.contains n = true ∧ (f.graph.formula? n).isSome := by
  simp [evaluationOrder, (order.formulas_perm _).mem_iff]

theorem nodup_evaluationOrder {levels : Std.ExtTreeMap NodeId Nat} {nodes : NodeSet} :
    (f.evaluationOrder order levels nodes).Nodup := by
  unfold evaluationOrder
  rw [(List.mergeSort_perm _ _).nodup_iff, (order.formulas_perm _).nodup_iff]
  exact (nodup_toList nodes).filter _

theorem pairwise_evaluationOrder {levels : Std.ExtTreeMap NodeId Nat} {nodes : NodeSet} :
    (f.evaluationOrder order levels nodes).Pairwise fun a b => levels.getD a 0 ≤ levels.getD b 0 := by
  unfold evaluationOrder
  exact pairwise_mergeSort_le (levels.getD · 0) _

/-- The form whose formulas are evaluated: nothing is pending, and the levels have been determined. -/
def leveled (f : Form) (levels : Std.ExtTreeMap NodeId Nat) : Form :=
  { f.clearPending with graph := { f.graph with levels := some levels } }

theorem Consistent.leveled (h : Consistent f) {levels : Std.ExtTreeMap NodeId Nat}
    (hlevels : f.graph.computeLevels = .ok levels) : Consistent (f.leveled levels) := by
  refine h.congr rfl rfl fun lv hlv => ?_
  obtain rfl := Option.some.inj hlv
  refine Graph.computeLevels_congr ?_ ?_ hlevels <;> exact fun _ => rfl

/-- The nodes that bringing caches up to date has made pending in addition. -/
def late (f : Form) (affected : NodeSet) : NodeSet :=
  f.pending.filter fun node => !affected.contains node && f.graph.contains node

/-- The second half of a recomputation does not fail, and evaluates all formulas that are affected. -/
theorem Consistent.evaluateAffected (h : Consistent f) (order : VisitOrder) (affected : NodeSet) :
    ∃ levels report g, f.graph.computeLevels = .ok levels ∧ Form.evaluateAffected order affected f = .ok report g ∧
      Reported (f.leveled levels) report g ∧
      report.evaluated = (f.leveled levels).evaluationOrder order levels
        (affected.insertMany (f.affected (f.late affected)).toList) := by
  obtain ⟨levels, hcompute, hlevels⟩ :=
    (h.congr rfl rfl h.levels : Consistent f.clearPending).levels_ok
  have hcompute' : f.graph.computeLevels = .ok levels := hcompute
  have hcons := h.leveled hcompute'
  have hsorted (nodes : NodeSet) : ((f.leveled levels).evaluationOrder order levels nodes).Pairwise
      fun a b => ¬ (f.leveled levels).Feeds b a := by
    refine pairwise_evaluationOrder.imp fun hab hfeeds => ?_
    refine Nat.not_lt.2 hab (hcons.coherent.level_lt ?_ hfeeds)
    exact hcons.levels levels rfl
  obtain ⟨hevaluated, hreported⟩ := hcons.evaluateAll _ nodup_evaluationOrder
    (fun x hx => (mem_evaluationOrder.1 hx).2)
    (hsorted (affected.insertMany (f.affected (f.late affected)).toList))
  refine ⟨levels, _, _, hcompute', ?_, hreported, hevaluated⟩
  unfold Form.evaluateAffected
  dsimp only
  rw [hlevels]
  rfl

end Following

end Form

end LiveForm
