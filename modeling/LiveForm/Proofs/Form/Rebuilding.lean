import LiveForm.Proofs.Form.Driving
import LiveForm.Proofs.Tree.Keys
import Mathlib

/-!
# What deriving a graph anew makes of it

However the graph of a form has been driven, what it is after it has been derived anew is told by the tree alone: by the
formulas outside templates, and by the fields that their selectors stand for when they are matched with the tree. That it
cannot be derived is told by the tree as well, and then nothing is left of it.
-/

set_option autoImplicit false

namespace LiveForm

/-- The fields that the formula of a node outside templates reads, with its selectors matched with the tree anew. -/
def FieldTree.freshReadings (t : FieldTree) (n : NodeId) : List NodeId :=
  (t.selectionsAt n).flatMap fun entry => entry.1.fieldsBelow t entry.2

theorem FieldTree.pattern_ne_nil_of_selectionsAt {t : FieldTree} {n base : NodeId} {s : Selector}
    (h : (s, base) ∈ t.selectionsAt n) : s.pattern ≠ [] := by
  unfold selectionsAt at h
  split at h
  · simp at h
  next q hq =>
    split at h
    · simp at h
    next =>
      cases he : q.node.formula with
      | none => simp [he] at h
      | some e =>
        simp only [he, Option.map_some, Option.getD_some] at h
        obtain ⟨_, _, _, word, _, _, hparse, _⟩ := mem_selections.1 h
        exact Selector.pattern_ne_nil hparse

theorem FieldTree.mem_freshReadings {t : FieldTree} (ht : t.Keyed) {m n : NodeId} :
    m ∈ t.freshReadings n ↔ t.Feeds m n := by
  unfold freshReadings Feeds
  rw [List.mem_flatMap]
  constructor
  · rintro ⟨⟨s, base⟩, hmem, hm⟩
    exact ⟨s, base, hmem, (Selector.mem_fieldsBelow ht (pattern_ne_nil_of_selectionsAt hmem)).1 hm⟩
  · rintro ⟨s, base, hmem, hm⟩
    exact ⟨(s, base), hmem, (Selector.mem_fieldsBelow ht (pattern_ne_nil_of_selectionsAt hmem)).2 hm⟩

/-- There is a circle among the formulas if their selectors are matched anew. -/
theorem FieldTree.not_acyclic_iff {t : FieldTree} (ht : t.Keyed) :
    ¬ t.Acyclic ↔ ∃ n, Relation.TransGen (fun m c => m ∈ t.freshReadings c) n n := by
  have heq : (fun m c => m ∈ t.freshReadings c) = t.Feeds := by
    funext m c
    exact propext (mem_freshReadings ht)
  unfold Acyclic
  rw [heq]
  push Not
  rfl

theorem FieldTree.FormulaAt.of_blank {t t' : FieldTree} {n : NodeId} {e : String} (h : t.FormulaAt n e)
    (hblank : t'.blank = t.blank) : t'.FormulaAt n e :=
  h.congr (FieldTree.outline_of_blank hblank n)

/-- An expression is read at a node outside templates exactly if it can be read at all. -/
theorem FieldTree.FormulaAt.succeeds_parse {t : FieldTree} (ht : t.Keyed) {n : NodeId} {e : String}
    (h : t.FormulaAt n e) : succeeds (Formula.parse t n e {}) = true ↔ Readable e := by
  obtain ⟨q, hq, hlive, -⟩ := h
  have hnone (id : BindingId) : ({} : Registry).get? id = none := by simp [Registry.get?]
  have hfresh : ({} : Registry).Fresh := fun id b hb => by simp [hnone] at hb
  have hidle (id : BindingId) : ¬ ({} : Registry).Serves id n := by
    rintro ⟨b, hb, -⟩
    simp [hnone] at hb
  have hspec := Formula.parse_spec (t := t) (n := n) hfresh hidle (fun id b hb => by simp [hnone] at hb) e
  have hright := Formula.parse_right ht hq hlive (r := {})
    ⟨fun id d hd => by simp [Registry.bound?, hnone] at hd,
      fun id id' d d' hd => by simp [Registry.bound?, hnone] at hd⟩ hfresh e
  cases hparse : Formula.parse t n e {} with
  | ok F r => exact iff_of_true rfl (hright.of_ok hparse).2.readable
  | error error r => exact iff_of_false Bool.false_ne_true (hspec.of_error hparse).2.2.2

namespace Form

open Relation

variable {f f' g g' : Form} {n : NodeId} {e : String}

/-- The graph of a form has been derived from its tree anew, and all its formulas have been evaluated: what the registry
and the graph hold is told by the tree. -/
structure Derived (f g : Form) : Prop where
  /-- A formula is in the graph if it is outside templates. -/
  formulas : ∀ n e, (g.graph.formula? n).map (·.expression) = some e ↔ f.tree.FormulaAt n e
  /-- A vertex has a formula or is read by one. -/
  vertices : ∀ n, g.graph.contains n = true ↔ (∃ e, f.tree.FormulaAt n e) ∨ ∃ c, n ∈ f.tree.freshReadings c
  predecessors : ∀ n m, m ∈ g.graph.predecessors n ↔ m ∈ f.tree.freshReadings n
  successors : ∀ m id, id ∈ g.graph.successors m ↔ ∃ b, g.registry.get? id = some b ∧ m ∈ b.cache
  caches : ∀ id b, g.registry.get? id = some b → ∀ m, m ∈ b.cache ↔ m ∈ b.selector.fieldsBelow f.tree b.base
  consumers : ∀ id b, g.registry.get? id = some b →
    ∀ c, c ∈ b.consumers ↔ (b.selector, b.base) ∈ f.tree.selectionsAt c
  basePaths : ∀ id b, g.registry.get? id = some b → b.basePath = f.tree.path b.base
  /-- There is a binding for a selector and the path of a base if a formula uses them, -/
  used : ∀ source path, (∃ id b, g.registry.get? id = some b ∧ b.isKeyed source path = true) ↔
    ∃ c, ∃ entry ∈ f.tree.selectionsAt c, entry.1.source = source ∧ f.tree.path entry.2 = path
  /-- and there is one only. -/
  single : ∀ id id' b b', g.registry.get? id = some b → g.registry.get? id' = some b' →
    b.selector.source = b'.selector.source → b.basePath = b'.basePath → id = id'
  renewed : ∀ id, (f.registry.get? id).isSome → g.registry.get? id = none
  pending : g.pending = ∅
  blank : g.tree.blank = f.tree.blank
  others : ∀ n, (∀ e, ¬ f.tree.FormulaAt n e) → g.tree.get? n = f.tree.get? n
  values : ∀ n e, f.tree.FormulaAt n e → g.tree.formulaValue? n = freshValue? g.tree n e

/-- The graph of a form could not be derived. -/
structure Discarded (f g : Form) : Prop where
  tree : g.tree = f.tree
  graph : g.graph = {}
  pending : g.pending = ∅
  registry : g.registry.bindings = ∅

section Deriving

/-- A formula in the graph is the one that the tree has. -/
theorem Tracking.map_expression (h : Tracking f) :
    (f.graph.formula? n).map (·.expression) = some e ↔ f.tree.FormulaAt n e := by
  constructor
  · intro hmap
    obtain ⟨F, hF, rfl⟩ := Option.map_eq_some_iff.1 hmap
    obtain ⟨e, he, hreads⟩ := h.follows.reads n F hF
    exact hreads.text ▸ he
  · intro he
    obtain ⟨F, hF⟩ := Option.isSome_iff_exists.1 (h.follows.registered n e he not_false)
    obtain ⟨e', he', hreads⟩ := h.follows.reads n F hF
    obtain ⟨q, hq, -, hq'⟩ := he
    obtain ⟨p, hp, -, hp'⟩ := he'
    obtain rfl := Option.some.inj (hq.symm.trans hp)
    rw [hF, Option.map_some, hreads.text, ← hp', hq']

/-- What a formula uses is what it selects. -/
theorem Tracking.mem_consumers (h : Tracking f) {id : BindingId} {b : Binding} (hb : f.registry.get? id = some b)
    {c : NodeId} : c ∈ b.consumers ↔ (b.selector, b.base) ∈ f.tree.selectionsAt c := by
  have hd : f.registry.bound? id = some b.bound := by rw [Registry.bound?, hb, Option.map_some]
  have huses : f.graph.Uses c id ↔ c ∈ b.consumers := by
    have hiff := h.coherent.consumers id c
    simp only [Registry.Serves, hb, Option.some.injEq, exists_eq_left', or_false] at hiff
    exact hiff.symm
  rw [← huses]
  constructor
  · exact fun hu => h.follows.mem_selectionsAt_of_uses hu hd
  · intro hmem
    obtain ⟨id', d, hu, hd', hselector, hbase⟩ := h.follows.mem_selectionsAt.1 hmem
    obtain rfl : id' = id := h.follows.right.eq_of_bound hd' hd hselector hbase
    exact hu

theorem Tracking.basePath_eq (h : Tracking f) {id : BindingId} {b : Binding} (hb : f.registry.get? id = some b) :
    b.basePath = f.tree.path b.base := by
  obtain ⟨p, hp, -, hpath⟩ := (h.follows.right.bound id b.bound (by
    rw [Registry.bound?, hb, Option.map_some])).placed
  exact hpath.trans (FieldTree.path_of_place? hp).symm

/-- A field that a formula reads is a vertex, and so is the formula. -/
theorem Tracking.contains_iff (h : Tracking f) :
    f.graph.contains n = true ↔ (∃ e, f.tree.FormulaAt n e) ∨ ∃ c, f.tree.Feeds n c := by
  have hformula : (f.graph.formula? n).isSome ↔ ∃ e, f.tree.FormulaAt n e := by
    simp only [← h.map_expression, Option.isSome_iff_exists, Option.map_eq_some_iff]
    exact ⟨fun ⟨F, hF⟩ => ⟨_, F, hF, rfl⟩, fun ⟨_, F, hF, _⟩ => ⟨F, hF⟩⟩
  rw [h.coherent.tidy.contains_iff, hformula]
  refine or_congr_right ⟨?_, ?_⟩
  · rintro ⟨id, hid⟩
    obtain ⟨⟨b, hb, hm⟩, -⟩ := (h.coherent.successors id n).1 hid
    obtain ⟨c, hc⟩ := h.coherent.used id b hb
    have huse := ((h.coherent.consumers id c).1 ⟨b, hb, hc⟩).resolve_right not_false
    exact ⟨c, h.follows.feeds_iff.1 ⟨id, ⟨b, hb, hm⟩, huse⟩⟩
  · rintro ⟨c, hc⟩
    obtain ⟨id, hcache, -⟩ := h.follows.feeds_iff.2 hc
    exact ⟨id, (h.coherent.successors id n).2 ⟨hcache, not_false⟩⟩

/-- A formula that has been evaluated stores what its expression is worth. -/
theorem Renewed.values (h : Renewed f g) (he : g.tree.FormulaAt n e) :
    g.tree.formulaValue? n = freshValue? g.tree n e := by
  obtain ⟨F, hF, rfl⟩ := Option.map_eq_some_iff.1 (h.tracking.map_expression.2 he)
  obtain ⟨F', q, hF', hq, hvalue⟩ := h.evaluated n (by rw [hF]; rfl)
  obtain rfl := Option.some.inj (hF.symm.trans hF')
  rw [FieldTree.formulaValue?_of_place? hq, hvalue, h.tracking.follows.freshValue? h.tracking.keyed hF]

/-- What has been derived anew is what the tree tells. -/
theorem Renewed.derived (h : Renewed f g) (hf : f.registry.Fresh) : Derived f g := by
  have ht := h.tracking
  have hkeyed : f.tree.Keyed := ht.keyed.of_blank h.blank.symm
  have hsame := FieldTree.sameOutlines_of_blank h.blank
  have hat (n : NodeId) (e : String) : g.tree.FormulaAt n e ↔ f.tree.FormulaAt n e :=
    ⟨fun he => he.of_blank h.blank.symm, fun he => he.of_blank h.blank⟩
  have hfeeds (m c : NodeId) : g.tree.Feeds m c ↔ f.tree.Feeds m c :=
    ⟨(FieldTree.extends_of_blank h.blank.symm).feeds, (FieldTree.extends_of_blank h.blank).feeds⟩
  have hbasePath {id : BindingId} {b : Binding} (hb : g.registry.get? id = some b) :
      b.basePath = f.tree.path b.base := by
    rw [ht.basePath_eq hb, FieldTree.path_of_blank h.blank]
  have hconsumers {id : BindingId} {b : Binding} (hb : g.registry.get? id = some b) {c : NodeId} :
      c ∈ b.consumers ↔ (b.selector, b.base) ∈ f.tree.selectionsAt c := by
    rw [ht.mem_consumers hb, hsame.selectionsAt]
  refine
    { formulas := fun n e => by rw [ht.map_expression, hat]
      vertices := fun n => ?_
      predecessors := fun n m => ?_
      successors := fun m id => ?_
      caches := fun id b hb m => ?_
      consumers := fun id b hb c => hconsumers hb
      basePaths := fun id b hb => hbasePath hb
      used := fun source path => ⟨?_, ?_⟩
      single := fun id id' b b' hb hb' hsource hpath => ?_
      renewed := fun id hid => ?_
      pending := h.pending
      blank := h.blank
      others := fun n hn => ?_
      values := fun n e he => h.values ((hat n e).2 he) }
  · simp only [ht.contains_iff, hat, hfeeds, FieldTree.mem_freshReadings hkeyed]
  · rw [ht.coherent.reads n not_false, ht.follows.feeds_iff, hfeeds, FieldTree.mem_freshReadings hkeyed]
  · rw [ht.coherent.successors]
    simp [Registry.Caches]
  · have hright := ht.follows.right.bound id b.bound (by rw [Registry.bound?, hb, Option.map_some])
    have hpattern : b.selector.pattern ≠ [] := Selector.pattern_ne_nil hright.parsed
    rw [ht.follows.caches_iff hb, hsame.matches_iff, Selector.mem_fieldsBelow hkeyed hpattern]
  · rintro ⟨id, b, hb, hkey⟩
    obtain ⟨c, hc⟩ := ht.coherent.used id b hb
    simp only [Binding.isKeyed, Bool.and_eq_true, decide_eq_true_eq] at hkey
    exact ⟨c, (b.selector, b.base), (hconsumers hb).1 hc, hkey.1, (hbasePath hb).symm.trans hkey.2⟩
  · rintro ⟨c, ⟨s, base⟩, hmem, rfl, rfl⟩
    rw [← hsame.selectionsAt] at hmem
    obtain ⟨id, d, -, hd, rfl, rfl⟩ := ht.follows.mem_selectionsAt.1 hmem
    obtain ⟨b, hb, rfl⟩ := Option.map_eq_some_iff.1 hd
    refine ⟨id, b, hb, ?_⟩
    simp only [Binding.isKeyed, Bool.and_eq_true, decide_eq_true_eq]
    exact ⟨rfl, hbasePath hb⟩
  · exact ht.follows.right.key id id' b.bound b'.bound (by rw [Registry.bound?, hb, Option.map_some])
      (by rw [Registry.bound?, hb', Option.map_some]) hsource hpath
  · obtain ⟨b, hb⟩ := Option.isSome_iff_exists.1 hid
    rw [← Option.not_isSome_iff_eq_none]
    exact fun hsome => Nat.not_lt.2 (h.newer.2 id hsome) (hf id b hb)
  · have hnone : g.graph.formula? n = none := by
      cases hF : g.graph.formula? n with
      | none => rfl
      | some F => exact absurd ((hat n _).1 (ht.map_expression.1 (by rw [hF]; rfl))) (hn F.expression)
    rw [FieldTree.get?_eq, FieldTree.get?_eq, h.others n hnone]

/-- The values of formulas, too, are told by the tree, whatever was stored before. -/
theorem Renewed.tree_eq (h : Renewed f g) (h' : Renewed f' g') (htree : f'.tree = f.tree) : g'.tree = g.tree := by
  have ht := h.tracking
  have hblank : g'.tree.blank = g.tree.blank := by rw [h'.blank, h.blank, htree]
  have hhandled := ht.keyed.handled
  refine ht.consistent.tree_eq hhandled.nodup hhandled.root hblank fun n => ?_
  cases hF : g.graph.formula? n with
  | some F =>
    have he : g.tree.FormulaAt n F.expression := ht.map_expression.1 (by rw [hF]; rfl)
    have ht' : Tracking (g.withTree g'.tree) := ht.of_blank hblank
    refine .inr ⟨F, rfl, ?_, ?_⟩
    · rw [h.values he, ht.follows.freshValue? ht.keyed hF]
    · rw [h'.values (he.of_blank hblank)]
      exact ht'.follows.freshValue? ht'.keyed hF
  | none =>
    refine .inl ?_
    have hnone' : g'.graph.formula? n = none := by
      cases hF' : g'.graph.formula? n with
      | none => rfl
      | some F' =>
        have he : g'.tree.FormulaAt n F'.expression := h'.tracking.map_expression.1 (by rw [hF']; rfl)
        have hmap := ht.map_expression.2 (he.of_blank hblank.symm)
        simp [hF] at hmap
    have hplace : g'.tree.place? n = g.tree.place? n := by rw [h.others n hF, h'.others n hnone', htree]
    exact FieldTree.formulaValue?_congr hplace

/-- When deriving the graph of a form anew fails, and what it does. -/
theorem Consistent.rebuild_spec (h : Consistent f) (ht : f.tree.Keyed) :
    Ends (rebuild f) (fun _ g => Derived f g) (fun _ g => Discarded f g) ∧
      (succeeds (rebuild f) = false ↔
        (∃ n e, f.tree.FormulaAt n e ∧ succeeds (Formula.parse f.tree n e {}) = false) ∨
          ∃ n, TransGen (fun m c => m ∈ f.tree.freshReadings c) n n) := by
  have hrenew := h.coherent.renew ht
  have hparse (n : NodeId) (e : String) (he : f.tree.FormulaAt n e) :
      succeeds (Formula.parse f.tree n e {}) = false ↔ ¬ Readable e := by
    rw [← he.succeeds_parse ht, Bool.not_eq_true]
  refine ⟨hrenew.mono (fun _ g hg => hg.derived h.coherent.fresh) ?_, ?_⟩
  · rintro _ g ⟨g₀, hco, hbeside, rfl, -⟩
    have hempty : g₀.clear.registry.bindings = ({} : Registry).bindings := Registry.bindings_ext fun id => by
      rw [hco.clear.2]
      simp [Registry.get?]
    exact ⟨hbeside.tree, rfl, rfl, hempty⟩
  · rw [← FieldTree.not_acyclic_iff ht]
    cases hrun : rebuild f with
    | error error g =>
      obtain ⟨g₀, -, -, -, hexplains⟩ := hrenew.of_error hrun
      refine iff_of_true rfl ?_
      rcases hexplains with ⟨circle, hcircle, -⟩ | ⟨-, n, e, he, hread⟩
      · exact .inr (FieldTree.not_acyclic_of_circular hcircle)
      · exact .inl ⟨n, e, he, (hparse n e he).2 hread⟩
    | ok _ g =>
      have hg := hrenew.of_ok hrun
      have hacyclic : f.tree.Acyclic :=
        (FieldTree.acyclic_congr hg.blank).1 (hg.tracking.follows.acyclic_iff.1 hg.tracking.acyclic)
      refine iff_of_false (by simp [succeeds]) ?_
      rintro (⟨n, e, he, hfails⟩ | hcircle)
      · obtain ⟨F, hF, rfl⟩ := Option.map_eq_some_iff.1
          (hg.tracking.map_expression.2 (he.of_blank hg.blank))
        obtain ⟨e', -, hreads⟩ := hg.tracking.follows.reads n F hF
        rw [hreads.text] at he hfails
        exact (hparse n e' he).1 hfails hreads.readable
      · exact hcircle hacyclic

end Deriving

end Form

/-- The tree is changed by operations on trees only. -/
def Call.IsOperation : Call → Prop
  | edit change => change.IsOperation
  | _ => True

namespace Form

/-- Operations keep the handles and keys of the tree distinct. -/
theorem Drivable.keyed_call {f : Form} (h : Drivable f) (ht : f.tree.Keyed) {call : Call} (hcall : call.IsOperation) :
    (after call.run f).tree.Keyed := by
  have hs := Steady.start h.consistent
  have hsteady {x : FormM Unit} (hx : Ends (x f) (fun _ => Steady f.tree.blank f.schedule)
      (fun _ => Steady f.tree.blank f.schedule)) : (after x f).tree.Keyed :=
    ht.of_blank hx.after.tree
  cases call with
  | edit change =>
    refine Ends.after (P := fun g => g.tree.Keyed) (FormM.ends_editTree (fun t hrun => ?_) fun e he => ht)
    exact TreeEdit.keyed ht hcall hrun
  | register node expression => exact hsteady (Steady.register node expression f hs)
  | unregister node => exact hsteady (Steady.unregister node f hs)
  | moveBindings old node => exact hsteady (Steady.moveBindings old node f hs)
  | updateLinks node => exact hsteady (Steady.updateLinks node f hs)
  | rename old node => exact hsteady (Steady.rename old node f hs)
  | valueChanged node => exact hsteady (Steady.valueChanged node f hs)
  | rebuild recompute => exact hsteady (h.consistent.rebuildGraph h.handled.nodup h.handled.root recompute)
  | recomputePending order => exact hsteady (Preserves.discard Steady.recomputePendingBy f hs)
  | recomputeAll => exact hsteady (Preserves.discard Steady.recomputeAll f hs)
  | openScope switch value => exact ht
  | closeScope switch => exact ht

theorem Drivable.keyed_runAll {f : Form} (h : Drivable f) (ht : f.tree.Keyed) {calls : List Call}
    (hcalls : ∀ call ∈ calls, call.IsOperation) : (Call.runAll calls f).tree.Keyed := by
  induction calls generalizing f with
  | nil => exact ht
  | cons call rest ih =>
    exact ih (h.call call) (h.keyed_call ht (hcalls call List.mem_cons_self))
      fun c hc => hcalls c (List.mem_cons_of_mem _ hc)

theorem keyed_ofSettings (s : Settings) : (ofSettings s).tree.Keyed :=
  FieldTree.keyed_empty

/-- However the graph of a form has been driven, and whatever the tree has gone through beside it: deriving the graph anew
fails exactly if a formula outside templates cannot be read or these formulas, matched with the tree anew, have a circle.
Then nothing is left of the graph. Otherwise all that it holds is told by the tree, and so are the values of formulas. -/
theorem derived_from_tree (s : Settings) (calls : List Call) (hcalls : ∀ call ∈ calls, call.IsOperation) :
    let f := Call.runAll calls (ofSettings s)
    Ends (rebuild f) (fun _ g => Derived f g) (fun _ g => Discarded f g) ∧
    (succeeds (rebuild f) = false ↔
      (∃ n e, f.tree.FormulaAt n e ∧ succeeds (Formula.parse f.tree n e {}) = false) ∨
        ∃ n, Relation.TransGen (fun m c => m ∈ f.tree.freshReadings c) n n) ∧
    ∀ s' calls', (∀ call ∈ calls', call.IsOperation) → (Call.runAll calls' (ofSettings s')).tree = f.tree →
      ∀ g g', rebuild f = .ok () g → rebuild (Call.runAll calls' (ofSettings s')) = .ok () g' → g'.tree = g.tree := by
  intro f
  have hf : Drivable f := (Drivable.ofSettings s).runAll calls
  have ht : f.tree.Keyed := (Drivable.ofSettings s).keyed_runAll (keyed_ofSettings s) hcalls
  obtain ⟨hends, hiff⟩ := hf.consistent.rebuild_spec ht
  refine ⟨hends, hiff, fun s' calls' hcalls' htree g g' hrun hrun' => ?_⟩
  have hf' : Drivable (Call.runAll calls' (ofSettings s')) := (Drivable.ofSettings s').runAll calls'
  have hg := (hf.consistent.coherent.renew ht).of_ok hrun
  have hg' := (hf'.consistent.coherent.renew (htree ▸ ht)).of_ok hrun'
  exact hg.tree_eq hg' htree

/-- While the graph is not told, a field gets another name and a new field gets the old one. The formula reads the old
field still, and the new one once the graph has been derived anew. -/
theorem derived_after_silence :
    let f := Call.runAll [.edit (.insert 0 (.name "a") .field), .edit (.insert 0 (.name "b") .field),
      .edit (.setFormula 2 (some "ref /a")), .register 2 (some "ref /a"), .openScope .updateGraph false,
      .edit (.rekey 1 (.name "c")), .edit (.insert 0 (.name "a") .field), .closeScope .updateGraph] (ofSettings {})
    f.graph.predecessors 2 = {1} ∧ f.tree.freshReadings 2 = [3] ∧
      ∃ g, rebuild f = .ok () g ∧ Derived f g ∧ ∀ m, m ∈ g.graph.predecessors 2 ↔ m = 3 := by
  have hreadings : (Call.runAll [.edit (.insert 0 (.name "a") .field), .edit (.insert 0 (.name "b") .field),
      .edit (.setFormula 2 (some "ref /a")), .register 2 (some "ref /a"), .openScope .updateGraph false,
      .edit (.rekey 1 (.name "c")), .edit (.insert 0 (.name "a") .field), .closeScope .updateGraph]
      (ofSettings {})).tree.freshReadings 2 = [3] := by cbv
  have hsucceeds : succeeds (rebuild (Call.runAll [.edit (.insert 0 (.name "a") .field),
      .edit (.insert 0 (.name "b") .field), .edit (.setFormula 2 (some "ref /a")), .register 2 (some "ref /a"),
      .openScope .updateGraph false, .edit (.rekey 1 (.name "c")), .edit (.insert 0 (.name "a") .field),
      .closeScope .updateGraph] (ofSettings {}))) = true := by cbv
  intro f
  have hends := (derived_from_tree {} [.edit (.insert 0 (.name "a") .field), .edit (.insert 0 (.name "b") .field),
      .edit (.setFormula 2 (some "ref /a")), .register 2 (some "ref /a"), .openScope .updateGraph false,
      .edit (.rekey 1 (.name "c")), .edit (.insert 0 (.name "a") .field), .closeScope .updateGraph]
    (by simp [Call.IsOperation, TreeEdit.IsOperation])).1
  refine ⟨by cbv, hreadings, ?_⟩
  cases hrun : rebuild f with
  | error e g =>
    have hfails : succeeds (rebuild f) = false := by rw [hrun]; rfl
    exact absurd (hsucceeds.symm.trans hfails) (by decide)
  | ok _ g =>
    have hderived : Derived f g := hends.of_ok hrun
    refine ⟨g, rfl, hderived, fun m => ?_⟩
    rw [hderived.predecessors, hreadings, List.mem_singleton]

end Form

end LiveForm
