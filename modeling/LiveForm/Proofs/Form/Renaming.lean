import LiveForm.Proofs.Form.Batches
import LiveForm.Proofs.Form.Relinking
import LiveForm.Proofs.Form.Selecting
import LiveForm.Proofs.Registry.Telling
import LiveForm.Proofs.Tree.Shifting
import LiveForm.Proofs.Tree.Walks

/-!
# Relinking a moved subtree

The nodes of a subtree that has moved are relinked one after the other. In between, some selectors stand already for
what they stand for in the tree after the move, and others still for what they stood for before it. Which formulas read
which fields then is told by the two trees and by how far the relinking has come. A circle among these formulas makes
it fail, even if neither of the two trees has one.
-/

set_option autoImplicit false

namespace LiveForm

open Relation

namespace FieldTree

variable {t t' : FieldTree} {moved : List NodeId} {synced : List (Selector × NodeId)}

/-- What a selector stands for in the course of relinking: what it does in the second tree, as far as the field has been
relinked or the selector brought up to date, and else what it does in the first one. -/
def MatchesAmid (t t' : FieldTree) (moved : List NodeId) (synced : List (Selector × NodeId)) (s : Selector)
    (base m : NodeId) : Prop :=
  if m ∈ moved ∨ (s, base) ∈ synced then t'.Matches s base m else t.Matches s base m

/-- The formula of the second node reads the first one in the course of relinking. -/
def FeedsAmid (t t' : FieldTree) (moved : List NodeId) (synced : List (Selector × NodeId)) (m c : NodeId) : Prop :=
  ∃ s base, (s, base) ∈ t.selectionsAt c ∧ t.MatchesAmid t' moved synced s base m

/-- No formula depends on itself at some point of the course of relinking. -/
def AcyclicAmid (t t' : FieldTree) (moved : List NodeId) (synced : List (Selector × NodeId)) : Prop :=
  ∀ n, ¬ TransGen (t.FeedsAmid t' moved synced) n n

/-- The selectors that have been brought up to date once some nodes are relinked. -/
def selectionsOf (t : FieldTree) (nodes : List NodeId) : List (Selector × NodeId) :=
  nodes.flatMap t.selectionsAt

/-- No formula depends on itself while the selectors of a node are brought up to date one after the other. -/
def AcyclicWhile (t t' : FieldTree) (moved : List NodeId) (synced : List (Selector × NodeId)) (n : NodeId) : Prop :=
  ∀ used more, t.selectionsAt n = used ++ more → t.AcyclicAmid t' moved (synced ++ used)

/-- No formula depends on itself while some nodes are relinked one after the other: neither while the selectors of a
node are brought up to date, nor when the node has been linked again. -/
def Relinks (t t' : FieldTree) (nodes : List NodeId) : Prop :=
  ∀ pre n post, nodes = pre ++ n :: post → t.AcyclicWhile t' pre (t.selectionsOf pre) n ∧
    t.AcyclicAmid t' (pre ++ [n]) (t.selectionsOf (pre ++ [n]))

end FieldTree

namespace Form

variable {f g g' : Form} {t' : FieldTree} {e : NodeId}
  {told moved : List NodeId} {synced : List (Selector × NodeId)} {n m c : NodeId} {id : BindingId}

/-- The bindings of a formula are bound to the selections of its node. -/
theorem Settled.map_bindings (h : Settled f) {F : Formula} (hF : f.graph.formula? n = some F) :
    F.bindings.map (fun id => (f.registry.bound? id).map fun d => (d.selector, d.base)) =
      (f.tree.selectionsAt n).map some := by
  obtain ⟨e, ⟨q, hq, hlive, he⟩, hreads⟩ := h.current.reads n F hF
  rw [hreads.map_bindings h.current.right]
  unfold FieldTree.selectionsAt
  simp only [hq, hlive, he, Option.map_some, Option.getD_some, Bool.false_eq_true, if_false]

theorem Settled.selectionsAt_eq_nil (h : Settled f) (hn : f.graph.formula? n = none) :
    f.tree.selectionsAt n = [] := by
  rw [List.eq_nil_iff_forall_not_mem]
  rintro ⟨s, base⟩ hmem
  obtain ⟨id, d, ⟨F, hF, -⟩, -⟩ := h.current.follows.mem_selectionsAt.1 hmem
  simp [hn] at hF

/-- A form in the course of relinking. Of the bindings that are based at moved nodes, those have been told of their new
paths whose bases are among some nodes. -/
structure Amid (f : Form) (t' : FieldTree) (told moved : List NodeId) (synced : List (Selector × NodeId))
    (g : Form) : Prop where
  coherent : Coherent g
  beside : SameBeside (f.withTree t') g
  formula : ∀ n, g.graph.formula? n = f.graph.formula? n
  bound : f.registry.Informed t' told g.registry
  caches : ∀ id d m, f.registry.bound? id = some d →
    (g.registry.Caches id m ↔ f.tree.MatchesAmid t' moved synced d.selector d.base m)
  marks : Marks f g
  acyclic : g.Acyclic
  levels : g.graph.LevelsRight

theorem Amid.start (h : Settled f) : Amid f t' [] [] [] (f.withTree t') where
  coherent := Coherent.withTree h.coherent
  beside := .refl _
  formula _ := rfl
  bound := .start _ _
  caches id d m hd := by
    obtain ⟨b, hb, rfl⟩ := Option.map_eq_some_iff.1 hd
    have hm := h.caches_iff hb (m := m)
    simp only [FieldTree.MatchesAmid, List.not_mem_nil, or_self, if_false]
    rw [← show m ∈ b.cache ↔ f.tree.Matches b.bound.selector b.bound.base m from hm]
    exact ⟨fun ⟨b', hb', hm'⟩ => Option.some.inj (hb'.symm.trans hb) ▸ hm', fun hm' => ⟨b, hb, hm'⟩⟩
  marks := ⟨_, (MarksBut.refl f).formula, (MarksBut.refl f).pending⟩
  acyclic := h.acyclic
  levels := h.levels

/-- Relinking goes on. -/
theorem Amid.relinked (h : Amid f t' told moved synced g) (hco : Coherent g') (hr : Relinked g g')
    {moved' : List NodeId} {synced' : List (Selector × NodeId)}
    (hcaches : ∀ id d m, f.registry.bound? id = some d →
      (g'.registry.Caches id m ↔ f.tree.MatchesAmid t' moved' synced' d.selector d.base m))
    (hacyclic : g'.Acyclic) (hlevels : g'.graph.LevelsRight) : Amid f t' told moved' synced' g' where
  coherent := hco
  beside := h.beside.trans hr.beside
  formula n := (hr.formula n).trans (h.formula n)
  bound id := (hr.bound id).trans (h.bound id)
  caches := hcaches
  marks := h.marks.trans hr.marks
  acyclic := hacyclic
  levels := hlevels

/-- The trees tell which formulas read which fields. -/
theorem Amid.feeds_iff (h : Amid f t' told moved synced g) (hf : Settled f) :
    g.Feeds m c ↔ f.tree.FeedsAmid t' moved synced m c := by
  constructor
  · rintro ⟨id, hcache, F, hF, hid⟩
    rw [h.formula] at hF
    obtain ⟨b, hb⟩ := hf.coherent.exists_get? hF hid
    have hd : f.registry.bound? id = some b.bound := by rw [Registry.bound?, hb, Option.map_some]
    exact ⟨b.selector, b.base, hf.current.follows.mem_selectionsAt.2 ⟨id, _, ⟨F, hF, hid⟩, hd, rfl, rfl⟩,
      (h.caches id _ m hd).1 hcache⟩
  · rintro ⟨s, base, hmem, hmatch⟩
    obtain ⟨id, d, ⟨F, hF, hid⟩, hd, rfl, rfl⟩ := hf.current.follows.mem_selectionsAt.1 hmem
    exact ⟨id, (h.caches id d m hd).2 hmatch, F, (h.formula c).trans hF, hid⟩

theorem Amid.acyclicAmid (h : Amid f t' told moved synced g) (hf : Settled f) :
    f.tree.AcyclicAmid t' moved synced := fun n hn =>
  h.acyclic n (TransGen.mono (fun _ _ => (h.feeds_iff hf).2) _ _ hn)

/-- If a link is refused, the trees show the circle that it would close. -/
theorem Amid.not_acyclicAmid (h : Amid f t' told moved synced g) (hf : Settled f) (hr : Relinked g g')
    {moved' : List NodeId} {synced' : List (Selector × NodeId)} {fields : NodeId → Prop}
    (hcaches : ∀ id d m, f.registry.bound? id = some d → g'.registry.Caches id m →
      f.tree.MatchesAmid t' moved' synced' d.selector d.base m)
    (hfields : ∀ d m, f.registry.bound? id = some d → fields m →
      f.tree.MatchesAmid t' moved' synced' d.selector d.base m)
    {error : FormError} (hcloses : g'.ClosesBy id fields error) : ¬ f.tree.AcyclicAmid t' moved' synced' := by
  have hsub : ∀ a b, g'.Feeds a b → f.tree.FeedsAmid t' moved' synced' a b := by
    rintro a b ⟨j, hj, F', hF', hid'⟩
    rw [hr.formula, h.formula] at hF'
    obtain ⟨b', hb'⟩ := hf.coherent.exists_get? hF' hid'
    have hd : f.registry.bound? j = some b'.bound := by rw [Registry.bound?, hb', Option.map_some]
    exact ⟨_, _, hf.current.follows.mem_selectionsAt.2 ⟨j, _, ⟨F', hF', hid'⟩, hd, rfl, rfl⟩, hcaches j _ a hd hj⟩
  have hback : ∀ m c, fields m → g'.graph.Uses c id → f.tree.FeedsAmid t' moved' synced' m c := by
    rintro m c hm ⟨F, hF, hid⟩
    rw [hr.formula, h.formula] at hF
    obtain ⟨b, hb⟩ := hf.coherent.exists_get? hF hid
    have hd : f.registry.bound? id = some b.bound := by rw [Registry.bound?, hb, Option.map_some]
    exact ⟨_, _, hf.current.follows.mem_selectionsAt.2 ⟨id, _, ⟨F, hF, hid⟩, hd, rfl, rfl⟩, hfields _ m hd hm⟩
  obtain ⟨circle, hcircle, -⟩ := hcloses.circular hsub hback
  obtain ⟨n, hn⟩ := hcircle.transGen
  exact fun hacyclic => hacyclic n hn

section Steps

variable (hf : Settled f) (hm : f.tree.Relocates t' e) (hquiet : g.Quiet)
  (h : Amid f t' told moved synced g)

include h in
theorem Amid.tree : g.tree = t' :=
  h.beside.tree

include hf hm hquiet h in
/-- The registry is told that a node has moved. -/
theorem Amid.moveBindings (hn : f.tree.Within e n) (hnew : n ∉ told) :
    Form.moveBindings (f.tree.path n) n g =
      .ok () { g with registry := g.registry.rekey (f.tree.path n) (t'.path n) } ∧
    Amid f t' (told ++ [n]) moved synced
      { g with registry := g.registry.rekey (f.tree.path n) (t'.path n) } := by
  refine ⟨?_, ?_⟩
  · unfold Form.moveBindings
    rw [whenUpdating_of_quiet hquiet, ← h.tree]
    rfl
  · have hfeeds (a b : NodeId) : Feeds { g with
        registry := g.registry.rekey (f.tree.path n) (t'.path n) } a b ↔ g.Feeds a b := by
      unfold Feeds
      simp only [Registry.caches_rekey]
    refine
      { coherent := h.coherent.rekey _ _
        beside := ⟨h.beside.tree, h.beside.schedule, h.beside.stopAtOverride, h.beside.cacheRefresh⟩
        formula := h.formula
        bound := h.bound.rekey hm hf.current.right hn hnew
        caches := fun id d m hd => by rw [Registry.caches_rekey]; exact h.caches id d m hd
        marks := h.marks.trans ⟨fun _ => False, fun x F hF _ => ⟨hF, not_false, fun j _ m => ⟨?_, fun _ => not_false⟩⟩,
          fun x hx => .inl hx⟩
        acyclic := fun x hx => h.acyclic x (TransGen.mono (fun a b => (hfeeds a b).1) _ _ hx)
        levels := h.levels }
    exact Registry.caches_rekey

include hf hm h in
/-- One of the bindings is brought up to date. -/
theorem Amid.sync {d : Bound} (hd : f.registry.bound? id = some d) : Ends (Form.sync .fromScratch id g)
    (fun _ g' => Amid f t' told moved (synced ++ [(d.selector, d.base)]) g')
    (fun e _ => (∃ paths, e = .cycle paths) ∧
      ¬ f.tree.AcyclicAmid t' moved (synced ++ [(d.selector, d.base)])) := by
  obtain ⟨b, hb⟩ := h.bound.exists_get? hd
  obtain ⟨hs, hbase⟩ : b.selector = d.selector ∧ b.base = d.base := by
    obtain ⟨d', hd', hs, hbase, -⟩ := h.bound.exists_bound hb
    obtain rfl := Option.some.inj (hd.symm.trans hd')
    exact ⟨hs, hbase⟩
  have hfresh (m : NodeId) : m ∈ b.fresh g.tree .fromScratch ↔ t'.Matches d.selector d.base m := by
    have hpattern := Selector.pattern_ne_nil (hf.current.right.bound id d hd).parsed
    rw [← Selector.mem_fieldsBelow hm.after hpattern, Binding.fresh, h.tree, hs, hbase]
    simp
  -- The other bindings are bound to something else.
  have hother {j : BindingId} {d' : Bound} (hj : j ≠ id) (hd' : f.registry.bound? j = some d') :
      (d'.selector, d'.base) ∈ synced ++ [(d.selector, d.base)] ↔ (d'.selector, d'.base) ∈ synced := by
    rw [List.mem_append, List.mem_singleton]
    refine or_iff_left fun he => hj ?_
    exact hf.current.right.eq_of_bound hd' hd (congrArg Prod.fst he) (congrArg Prod.snd he)
  have hself : (d.selector, d.base) ∈ synced ++ [(d.selector, d.base)] := by simp
  refine (h.coherent.syncBy_spec hb .ascending).mono ?_ ?_
  · rintro _ _ ⟨hco, hsync, hcaches⟩
    refine h.relinked hco hsync.relinked (fun j d' m hd' => ?_) ?_ ?_
    · by_cases hj : j = id
      · subst hj
        obtain rfl := Option.some.inj (hd.symm.trans hd')
        rw [hcaches, hfresh, FieldTree.MatchesAmid, if_pos (.inr hself)]
      · rw [hsync.others j m hj, h.caches j d' m hd', FieldTree.MatchesAmid, FieldTree.MatchesAmid]
        simp only [hother hj hd']
    · exact acyclicBy_all.1 (hsync.acyclic _ (acyclicBy_all.2 h.acyclic))
    · exact hsync.levels.levelsRight h.levels
  · rintro error _ ⟨-, hsync, hcloses, hcaches⟩
    refine ⟨hcloses.error, h.not_acyclicAmid hf hsync.relinked (fun j d' m hd' hc => ?_) (fun d' m hd' hmem => ?_) hcloses⟩
    · by_cases hj : j = id
      · subst hj
        obtain rfl := Option.some.inj (hd.symm.trans hd')
        rw [FieldTree.MatchesAmid, if_pos (.inr hself)]
        exact (hfresh m).1 ((hcaches m).2 hc)
      · rw [hsync.others j m hj, h.caches j d' m hd', FieldTree.MatchesAmid] at hc
        rw [FieldTree.MatchesAmid]
        simpa only [hother hj hd'] using hc
    · obtain rfl := Option.some.inj (hd.symm.trans hd')
      rw [FieldTree.MatchesAmid, if_pos (.inr hself)]
      exact (hfresh m).1 hmem

include hf hm h in
/-- The bindings of a formula are brought up to date one after the other. -/
theorem Amid.syncAll {F : Formula} (hF : f.graph.formula? n = some F) :
    Ends (F.bindings.forM (Form.sync .fromScratch) g)
      (fun _ g' => Amid f t' told moved (synced ++ f.tree.selectionsAt n) g' ∧
        f.tree.AcyclicWhile t' moved synced n)
      (fun e _ => (∃ paths, e = .cycle paths) ∧ ¬ f.tree.AcyclicWhile t' moved synced n) := by
  have hbindings := hf.map_bindings hF
  generalize F.bindings = ids at hbindings
  -- The bindings that are left stand for the selections that are left.
  have hloop : Ends (ids.forM (Form.sync .fromScratch) g) _
      fun e _ => (∃ paths, e = .cycle paths) ∧ ¬ f.tree.AcyclicWhile t' moved synced n :=
    Ends.forM (I := fun rest g' => ∃ used left, f.tree.selectionsAt n = used ++ left ∧
      rest.map (fun id => (f.registry.bound? id).map fun d => (d.selector, d.base)) = left.map some ∧
      Amid f t' told moved (synced ++ used) g' ∧
      ∀ before after, used = before ++ after → f.tree.AcyclicAmid t' moved (synced ++ before)) ?_
    ⟨[], _, rfl, hbindings, ?_, ?_⟩
  · refine hloop.mono ?_ fun _ _ he => he
    rintro _ _ ⟨used, left, hsel, hleft, hamid, hall⟩
    obtain rfl : left = [] := by simpa using hleft
    rw [List.append_nil] at hsel
    subst hsel
    exact ⟨hamid, fun used more he => hall used more he⟩
  · rintro a rest g' ⟨used, left, hsel, hleft, hamid, hall⟩
    cases left with
    | nil => simp at hleft
    | cons x left =>
      simp only [List.map_cons, List.cons.injEq] at hleft
      obtain ⟨d, hd, hx⟩ := Option.map_eq_some_iff.1 hleft.1
      refine (hamid.sync hf hm hd).mono ?_ ?_
      · rintro _ g'' hamid'
        rw [hx, List.append_assoc] at hamid'
        refine ⟨used ++ [x], left, by rw [hsel, List.append_assoc]; rfl, hleft.2, hamid', fun before after hba => ?_⟩
        rcases List.eq_nil_or_concat after with rfl | ⟨after', y, rfl⟩
        · rw [List.append_nil] at hba
          exact hba ▸ hamid'.acyclicAmid hf
        · rw [List.concat_eq_append, ← List.append_assoc] at hba
          exact hall before after' (List.append_inj' hba rfl).1
      · rintro e g'' ⟨he, hnot⟩
        rw [hx, List.append_assoc] at hnot
        exact ⟨he, fun hall' => hnot (hall' (used ++ [x]) left (by rw [hsel, List.append_assoc]; rfl))⟩
  · rwa [List.append_nil]
  · rintro before after hba
    obtain ⟨rfl, -⟩ := List.append_eq_nil_iff.1 hba.symm
    rw [List.append_nil]
    exact h.acyclicAmid hf

include hf hm h in
/-- The bindings of a moved node's formula are brought up to date. -/
theorem Amid.relinkFormula (n : NodeId) : Ends (Form.relinkFormula n g)
    (fun _ g' => Amid f t' told moved (synced ++ f.tree.selectionsAt n) g' ∧
      f.tree.AcyclicWhile t' moved synced n)
    (fun e _ => (∃ paths, e = .cycle paths) ∧ ¬ f.tree.AcyclicWhile t' moved synced n) := by
  unfold Form.relinkFormula
  rw [h.formula]
  cases hF : f.graph.formula? n with
  | none =>
    have hnil := hf.selectionsAt_eq_nil hF
    refine ⟨by rwa [hnil, List.append_nil], fun used more he => ?_⟩
    obtain ⟨rfl, -⟩ := List.append_eq_nil_iff.1 (he.symm.trans hnil)
    rw [List.append_nil]
    exact h.acyclicAmid hf
  | some F =>
    refine Ends.bind ((h.syncAll hf hm hF).mono ?_ fun _ _ he => he)
    rintro _ g' ⟨hamid, hall⟩
    obtain ⟨hco, hrel, hlevels⟩ := hamid.coherent.resetPredecessors_spec n
    have hfeeds (a b : NodeId) : ((g'.resetPredecessors n).addPending [n]).Feeds a b → g'.Feeds a b := by
      rintro ⟨id, hc, hu⟩
      exact ⟨id, hc, hrel.uses.1 hu⟩
    exact ⟨hamid.relinked hco hrel hamid.caches
      (fun x hx => hamid.acyclic x (TransGen.mono hfeeds _ _ hx)) (hlevels hamid.levels), hall⟩

include hf hm h in
/-- A moved node is linked again. -/
theorem Amid.relinkNode (hn : f.tree.Within e n) (htold : ∀ b, f.tree.Within e b → b ∈ told ∨ ¬ f.tree.Within b n) :
    Ends (Form.relinkNode n g)
    (fun _ g' => Amid f t' told (moved ++ [n]) synced g')
    (fun e _ => (∃ paths, e = .cycle paths) ∧ ¬ f.tree.AcyclicAmid t' (moved ++ [n]) synced) := by
  have hlinked {id : BindingId} {d : Bound} (hd : f.registry.bound? id = some d) :
      id ∈ g.registry.accepting g.tree n ↔ t'.Matches d.selector d.base n := by
    rw [h.tree]
    exact h.bound.mem_accepting hm hf.current.right hn hd (htold d.base)
  have hself {d : Bound} {m : NodeId} (hmn : m = n) :
      f.tree.MatchesAmid t' (moved ++ [n]) synced d.selector d.base m ↔
        t'.Matches d.selector d.base m := by
    rw [FieldTree.MatchesAmid, if_pos (.inl (by simp [hmn]))]
  have hother {d : Bound} {m : NodeId} (hmn : m ≠ n) :
      f.tree.MatchesAmid t' (moved ++ [n]) synced d.selector d.base m ↔
        f.tree.MatchesAmid t' moved synced d.selector d.base m := by
    simp only [FieldTree.MatchesAmid, List.mem_append, List.mem_singleton, hmn, or_false]
  have hlinks {id : BindingId} {d : Bound} {m : NodeId} (hd : f.registry.bound? id = some d) :
      (if m = n then id ∈ g.registry.accepting g.tree n else g.registry.Caches id m) ↔
        f.tree.MatchesAmid t' (moved ++ [n]) synced d.selector d.base m := by
    by_cases hmn : m = n
    · subst hmn
      rw [if_pos rfl, hself rfl, hlinked hd]
    · rw [if_neg hmn, hother hmn, h.caches id d m hd]
  refine (h.coherent.relinkNode_spec (n := n)).mono ?_ ?_
  · rintro _ g' ⟨hgroup, hcaches⟩
    exact h.relinked hgroup.coherent hgroup.relinked (fun id d m hd => by rw [hcaches, hlinks hd])
      (hgroup.acyclic h.acyclic) (hgroup.levels.levelsRight h.levels)
  · rintro error g' ⟨hgroup, ⟨id, hid, hcloses⟩, hcaches⟩
    refine ⟨hcloses.error, h.not_acyclicAmid hf hgroup.relinked (fun i d m hd hc => (hlinks hd).1 (hcaches i m hc)) ?_ hcloses⟩
    rintro d m hd rfl
    exact (hself rfl).2 ((hlinked hd).1 hid)

include hf hm h in
/-- In a template there is nothing to relink. -/
theorem Amid.skip {q : Place} (hq : f.tree.place? n = some q) (hin : q.inTemplate = true) :
    Amid f t' told (moved ++ [n]) (synced ++ f.tree.selectionsAt n) g ∧
      f.tree.AcyclicWhile t' moved synced n := by
  have hnil : f.tree.selectionsAt n = [] := by
    unfold FieldTree.selectionsAt
    simp [hq, hin]
  obtain ⟨q', hq', -, -, hin'⟩ := hm.place? hq
  have hnot (s : Selector) (base : NodeId) : ¬ f.tree.Matches s base n ∧ ¬ t'.Matches s base n := by
    constructor
    · rintro ⟨_, u, _, _, hu, _, _, hlive, _⟩
      obtain rfl := Option.some.inj (hq.symm.trans hu)
      simp [hin] at hlive
    · rintro ⟨_, u, _, _, hu, _, _, hlive, _⟩
      obtain rfl := Option.some.inj (hq'.symm.trans hu)
      simp [hin', hin] at hlive
  refine ⟨h.relinked h.coherent (.refl g) (fun id d m hd => ?_) h.acyclic h.levels, fun used more he => ?_⟩
  · rw [h.caches id d m hd, hnil, List.append_nil]
    by_cases hmn : m = n
    · subst hmn
      simp [FieldTree.MatchesAmid, hnot]
    · simp only [FieldTree.MatchesAmid, List.mem_append, List.mem_singleton, hmn, or_false]
  · rw [hnil] at he
    obtain ⟨rfl, -⟩ := List.append_eq_nil_iff.1 he.symm
    rw [List.append_nil]
    exact h.acyclicAmid hf

include hf hm h in
/-- The links of a moved node are determined again. -/
theorem Amid.relink (hn : f.tree.Within e n) {q : Place} (hq : f.tree.place? n = some q)
    (htold : ∀ b, f.tree.Within e b → b ∈ told ∨ ¬ f.tree.Within b n) :
    Ends (Form.relink n g)
      (fun _ g' => Amid f t' told (moved ++ [n]) (synced ++ f.tree.selectionsAt n) g' ∧
        f.tree.AcyclicWhile t' moved synced n)
      (fun e _ => (∃ paths, e = .cycle paths) ∧ ¬ (f.tree.AcyclicWhile t' moved synced n ∧
        f.tree.AcyclicAmid t' (moved ++ [n]) (synced ++ f.tree.selectionsAt n))) := by
  obtain ⟨q', hq', -, -, hin'⟩ := hm.place? hq
  have hcontains : g.tree.contains n = true := by
    rw [h.tree, FieldTree.contains_eq, hq', Option.isSome_some]
  have hin : g.tree.inTemplate n = q.inTemplate := by
    rw [h.tree, FieldTree.inTemplate_eq, hq', Option.map_some, Option.getD_some, hin']
  unfold Form.relink
  rw [hcontains, hin, Bool.not_true, Bool.false_or]
  by_cases hlive : q.inTemplate = true
  · rw [if_pos hlive]
    exact h.skip hf hm hq hlive
  · rw [if_neg hlive]
    refine Ends.bind ((h.relinkFormula hf hm n).mono ?_ fun _ _ he => ⟨he.1, fun hall => he.2 hall.1⟩)
    rintro _ g₁ ⟨hamid, hall⟩
    refine Ends.bind ((hamid.relinkNode hf hm hn htold).mono ?_ fun _ _ he => ⟨he.1, fun hall => he.2 hall.2⟩)
    rintro _ g₂ hamid'
    obtain ⟨hco, hrel⟩ := hamid'.coherent.prune n
    have hacyclic : (g₂.prune n).Acyclic := fun x hx =>
      hamid'.acyclic x (TransGen.mono (fun a b => (feeds_prune a b).1) _ _ hx)
    have hpruned := hamid'.relinked hco hrel hamid'.caches hacyclic (levelsRight_prune hamid'.levels)
    obtain ⟨gone, hmarks⟩ := hpruned.marks
    exact FormM.ends_update ⟨
      { coherent := hpruned.coherent.congr rfl rfl
        beside := ⟨hpruned.beside.tree, hpruned.beside.schedule, hpruned.beside.stopAtOverride,
          hpruned.beside.cacheRefresh⟩
        formula := hpruned.formula
        bound := hpruned.bound
        caches := hpruned.caches
        marks := ⟨gone, hmarks.formula, hmarks.pending⟩
        acyclic := hpruned.acyclic
        levels := Graph.levelsRight_of_none rfl }, hall⟩

end Steps

section Loop

variable (hf : Settled f) (hm : f.tree.Relocates t' e) (hquiet : f.Quiet)

include hquiet in
theorem Amid.quiet (h : Amid f t' told moved synced g) : g.Quiet :=
  h.beside.quiet hquiet

include hf hm hquiet in
/-- A node of a moved subtree is reported once the nodes above it have been. -/
theorem Amid.rename {pre post : List NodeId} (hnodes : f.tree.preorderFrom e = pre ++ n :: post)
    (h : Amid f t' pre pre (f.tree.selectionsOf pre) g) : Ends (Form.rename (f.tree.path n) n g)
      (fun _ g' => Amid f t' (pre ++ [n]) (pre ++ [n]) (f.tree.selectionsOf (pre ++ [n])) g' ∧
        f.tree.AcyclicWhile t' pre (f.tree.selectionsOf pre) n)
      (fun error _ => (∃ paths, error = .cycle paths) ∧ ¬ f.tree.Relinks t' (f.tree.preorderFrom e)) := by
  obtain ⟨hn, hnew, htold, -⟩ := FieldTree.between_of_preorder hf.current.tree.keyed hnodes
  obtain ⟨q, hq⟩ := hn.exists_place?
  have hselections : f.tree.selectionsOf (pre ++ [n]) = f.tree.selectionsOf pre ++ f.tree.selectionsAt n := by
    simp [FieldTree.selectionsOf]
  obtain ⟨hrun, hamid⟩ := h.moveBindings hf hm (h.quiet hquiet) hn hnew
  refine Ends.bind ?_
  rw [hrun]
  show Ends (updateLinks n _) _ _
  unfold updateLinks
  rw [whenUpdating_of_quiet (hamid.quiet hquiet)]
  refine Ends.bind ((hamid.relink hf hm hn hq htold).mono ?_ ?_)
  · rintro _ g' ⟨hamid', hall⟩
    rw [settle_of_quiet (hamid'.quiet hquiet), hselections]
    exact ⟨hamid', hall⟩
  · rintro error _ ⟨he, hnot⟩
    refine ⟨he, fun hall => hnot ?_⟩
    rw [← hselections]
    exact hall pre n post hnodes

include hf hm hquiet in
/-- The nodes of a moved subtree are reported one after the other. -/
theorem Settled.renameAll : Ends (((f.tree.preorderFrom e).map fun n => (n, f.tree.path n)).forM
      (fun moved : NodeId × Path => Form.rename moved.2 moved.1) (f.withTree t'))
    (fun _ g => Amid f t' (f.tree.preorderFrom e) (f.tree.preorderFrom e)
      (f.tree.selectionsOf (f.tree.preorderFrom e)) g ∧ f.tree.Relinks t' (f.tree.preorderFrom e))
    (fun error _ => (∃ paths, error = .cycle paths) ∧ ¬ f.tree.Relinks t' (f.tree.preorderFrom e)) := by
  have hloop : Ends (((f.tree.preorderFrom e).map fun n => (n, f.tree.path n)).forM
      (fun moved : NodeId × Path => Form.rename moved.2 moved.1) (f.withTree t')) _
      fun error _ => (∃ paths, error = .cycle paths) ∧ ¬ f.tree.Relinks t' (f.tree.preorderFrom e) :=
    Ends.forM (I := fun rest g => ∃ pre left, f.tree.preorderFrom e = pre ++ left ∧
      rest = left.map (fun n => (n, f.tree.path n)) ∧ Amid f t' pre pre (f.tree.selectionsOf pre) g ∧
      ∀ before n after, pre = before ++ n :: after →
        f.tree.AcyclicWhile t' before (f.tree.selectionsOf before) n ∧
          f.tree.AcyclicAmid t' (before ++ [n]) (f.tree.selectionsOf (before ++ [n]))) ?_
    ⟨[], _, rfl, rfl, .start hf, by simp⟩
  · refine hloop.mono ?_ fun _ _ he => he
    rintro _ g ⟨pre, left, hnodes, hleft, hamid, hall⟩
    obtain rfl : left = [] := by simpa using hleft.symm
    rw [List.append_nil] at hnodes
    rw [hnodes]
    exact ⟨hamid, hall⟩
  · rintro a rest g ⟨pre, left, hnodes, hleft, hamid, hall⟩
    cases left with
    | nil => simp at hleft
    | cons n left =>
      obtain ⟨rfl, rfl⟩ := List.cons.inj hleft
      refine (hamid.rename hf hm hquiet hnodes).mono ?_ fun _ _ he => he
      rintro _ g' ⟨hamid', hwhile⟩
      refine ⟨pre ++ [n], left, by rw [hnodes, List.append_assoc]; rfl, rfl, hamid', fun before x after hpre => ?_⟩
      rcases List.eq_nil_or_concat after with rfl | ⟨after', y, rfl⟩
      · obtain ⟨rfl, hx⟩ := List.append_inj' hpre rfl
        obtain rfl := List.singleton_inj.1 hx
        exact ⟨hwhile, hamid'.acyclicAmid hf⟩
      · rw [List.concat_eq_append, ← List.cons_append, ← List.append_assoc] at hpre
        exact hall before x after' (List.append_inj' hpre rfl).1

end Loop

end Form

end LiveForm
