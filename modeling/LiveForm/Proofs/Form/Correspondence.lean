import LiveForm.Form.Listing
import LiveForm.Proofs.Form.Evolution

/-!
# Graphs that differ in handles only

The handles of bindings have no meaning of their own. Two forms have the same dependencies if the bindings, the vertices
and the formulas of the one are those of the other under other handles. This is so for any two settled forms with the same
tree, since a settled form holds what the tree asks for and nothing else.
-/

set_option autoImplicit false

namespace LiveForm

section Renaming

/-- An argument under other handles of bindings. -/
def Argument.rename (ρ : BindingId → BindingId) : Argument → Argument
  | .literal v => .literal v
  | .selector id => .selector (ρ id)

/-- A formula under other handles of bindings. -/
def Formula.rename (ρ : BindingId → BindingId) (F : Formula) : Formula :=
  { F with args := F.args.map (·.rename ρ) }

/-- A vertex under other handles of bindings. -/
def Vertex.rename (ρ : BindingId → BindingId) (v : Vertex) : Vertex :=
  { formula := v.formula.map (·.rename ρ)
    predecessors := v.predecessors
    successors := .ofList (v.successors.toList.map ρ) }

theorem isEmpty_rename {ρ : BindingId → BindingId} (s : BindingSet) :
    (Std.ExtTreeSet.ofList (s.toList.map ρ) : BindingSet).isEmpty = s.isEmpty := by
  rw [Bool.eq_iff_iff, Std.ExtTreeSet.isEmpty_iff, Std.ExtTreeSet.isEmpty_iff,
    Std.ExtTreeSet.eq_empty_iff_forall_not_mem, Std.ExtTreeSet.eq_empty_iff_forall_not_mem]
  constructor
  · intro h id hid
    exact h (ρ id) (by simpa using ⟨id, hid, rfl⟩)
  · rintro h id hid
    obtain ⟨id', hid', -⟩ : ∃ id', id' ∈ s ∧ ρ id' = id := by simpa using hid
    exact h id' hid'

theorem Vertex.rename_same (v : Vertex) : v.rename (fun i => i) = v := by
  obtain ⟨formula, predecessors, successors⟩ := v
  have harg (arg : Argument) : arg.rename (fun i => i) = arg := by cases arg <;> rfl
  have hformula (F : Formula) : F.rename (fun i => i) = F := by simp [Formula.rename, harg]
  have hsuccessors : (Std.ExtTreeSet.ofList (successors.toList.map fun i => i) : BindingSet) = successors :=
    Std.ExtTreeSet.ext_mem fun i => by simp
  simp only [rename, hsuccessors, hformula, Option.map_id']

variable {t t' : FieldTree} {r r' : Registry} {n : NodeId} {expression : String} {F F' : Formula}
  {ρ : BindingId → BindingId}

/-- What an expression means at a node is determined up to the handles of bindings. -/
theorem Formula.Reads.eq_rename (h : F.Reads t r n expression) (h' : F'.Reads t' r' n expression) (hright : r'.Right t')
    (hparent : (t'.place? n).bind Place.parent = (t.place? n).bind Place.parent)
    (hρ : ∀ id d, r.bound? id = some d → r'.bound? (ρ id) = some d) : F' = F.rename ρ := by
  obtain ⟨name, words, hwords, hop, hargs⟩ := h.words
  obtain ⟨name', words', hwords', hop', hargs'⟩ := h'.words
  obtain ⟨rfl, rfl⟩ : name = name' ∧ words = words' := by
    rw [hwords] at hwords'
    simpa using hwords'
  have hoperator : F'.operator = F.operator := Option.some.inj (hop'.symm.trans hop)
  have hall : F'.args = F.args.map (·.rename ρ) := by
    clear hwords hwords' hop hop' hoperator
    generalize F.args = args at hargs
    generalize F'.args = args' at hargs'
    induction hargs generalizing args' with
    | nil =>
      cases hargs'
      rfl
    | @cons word arg words args harg _ ih =>
      cases hargs' with
      | @cons _ arg' _ args' harg' hargs' =>
        rw [List.map_cons, ih args' hargs']
        congr 1
        unfold ReadAs at harg harg'
        split at harg
        next hword =>
          rw [if_pos hword] at harg'
          obtain ⟨id, d, rfl, hd, hparse, hbase⟩ := harg
          obtain ⟨id', d', rfl, hd', hparse', hbase'⟩ := harg'
          have hselector : d'.selector = d.selector := Except.ok.inj (hparse'.symm.trans hparse)
          have hbases : d'.base = d.base := by
            rw [hbase, hbase', hselector, FieldTree.base_eq, FieldTree.base_eq, hparent]
          rw [Argument.rename, hright.eq_of_bound hd' (hρ id d hd) hselector hbases]
        next hword =>
          rw [if_neg hword] at harg'
          rw [harg, harg', Argument.rename]
  obtain ⟨anchor, text, operator, args⟩ := F
  obtain ⟨anchor', text', operator', args'⟩ := F'
  obtain rfl : anchor = anchor' := h.anchor.trans h'.anchor.symm
  obtain rfl : text = text' := h.text.trans h'.text.symm
  obtain rfl : operator' = operator := hoperator
  obtain rfl : args' = args.map (·.rename ρ) := hall
  rfl

end Renaming

namespace Form

variable {f g : Form} {ρ : BindingId → BindingId} {n m : NodeId} {id : BindingId}

/-- The graph and the registry of the second form are those of the first one under other handles of bindings. -/
structure Corresponds (ρ : BindingId → BindingId) (f g : Form) : Prop where
  injective : ∀ id id', (f.registry.get? id).isSome → (f.registry.get? id').isSome → ρ id = ρ id' → id = id'
  bindings : ∀ id b, f.registry.get? id = some b → g.registry.get? (ρ id) = some b
  onto : ∀ id', (g.registry.get? id').isSome → ∃ id, (f.registry.get? id).isSome ∧ ρ id = id'
  vertices : g.graph.vertices = f.graph.vertices.map fun _ v => v.rename ρ

/-- The graphs and the registries of two forms are the same, up to the handles of bindings. -/
def SameDependencies (f g : Form) : Prop :=
  ∃ ρ, Corresponds ρ f g

namespace Corresponds

variable (h : Corresponds ρ f g)

include h

theorem get? (n : NodeId) : g.graph.get? n = (f.graph.get? n).map (·.rename ρ) := by
  rw [Graph.get?, h.vertices, Std.ExtTreeMap.getElem?_map]
  rfl

theorem contains (n : NodeId) : g.graph.contains n = f.graph.contains n := by
  rw [Graph.contains_eq, Graph.contains_eq, h.get?, Option.isSome_map]

theorem formula? (n : NodeId) : g.graph.formula? n = (f.graph.formula? n).map (·.rename ρ) := by
  rw [Graph.formula?, Graph.formula?, h.get?]
  cases f.graph.get? n <;> rfl

theorem predecessors (n : NodeId) : g.graph.predecessors n = f.graph.predecessors n := by
  rw [Graph.predecessors, Graph.predecessors, h.get?]
  cases f.graph.get? n <;> rfl

theorem bound? {d : Bound} (hd : f.registry.bound? id = some d) : g.registry.bound? (ρ id) = some d := by
  obtain ⟨b, hb, rfl⟩ := Option.map_eq_some_iff.1 hd
  rw [Registry.bound?, h.bindings id b hb, Option.map_some]

theorem caches (hid : (f.registry.get? id).isSome) : g.registry.Caches (ρ id) m ↔ f.registry.Caches id m := by
  obtain ⟨b, hb⟩ := Option.isSome_iff_exists.1 hid
  simp [Registry.Caches, hb, h.bindings id b hb]

/-- The number of edges is the same. -/
theorem edgeCount : g.graph.edgeCount = f.graph.edgeCount := by
  unfold Graph.edgeCount
  rw [values_eq_map_toList, values_eq_map_toList, h.vertices, Std.ExtTreeMap.toList_map, List.map_map, List.map_map,
    List.map_map]
  rfl

theorem nodes : g.graph.nodes = f.graph.nodes :=
  Graph.nodes_congr h.contains

theorem formulaNodes : g.graph.formulaNodes = f.graph.formulaNodes := by
  unfold Graph.formulaNodes
  rw [h.nodes]
  exact List.filter_congr fun n _ => by rw [h.formula?, Option.isSome_map]

/-- So are the levels. -/
theorem computeLevels {levels : Std.ExtTreeMap NodeId Nat} (hlevels : f.graph.computeLevels = .ok levels) :
    g.graph.computeLevels = .ok levels :=
  Graph.computeLevels_congr h.predecessors h.contains hlevels

end Corresponds

section Settled

variable (hf : Settled f) (hg : Settled g) (hsame : FieldTree.SameOutlines f.tree g.tree)

include hf hg hsame

/-- A binding of the one form has a counterpart in the other one. -/
theorem Settled.exists_bound {d : Bound} (hd : f.registry.bound? id = some d) :
    ∃ id', g.registry.bound? id' = some d := by
  obtain ⟨b, hb, rfl⟩ := Option.map_eq_some_iff.1 hd
  obtain ⟨c, hc⟩ := hf.coherent.used id b hb
  have huse : f.graph.Uses c id := ((hf.coherent.consumers id c).1 ⟨b, hb, hc⟩).resolve_right not_false
  have hmem := hf.current.follows.mem_selectionsAt_of_uses huse hd
  rw [← hsame.selectionsAt] at hmem
  obtain ⟨id', d', -, hd', hselector, hbase⟩ := hg.current.follows.mem_selectionsAt.1 hmem
  obtain ⟨p, hp, -, hpath⟩ := (hf.current.right.bound id _ hd).placed
  obtain ⟨p', hp', -, hpath'⟩ := (hg.current.right.bound id' d' hd').placed
  obtain ⟨p'', hp'', hpp⟩ := hsame.toExtends _ _ hp
  rw [hbase, hp''] at hp'
  obtain rfl := Option.some.inj hp'
  have hpaths : d'.basePath = b.bound.basePath := by rw [hpath', hpath, (Place.outline_eq hpp).2.2.2.2.2.1]
  refine ⟨id', hd'.trans ?_⟩
  obtain ⟨selector, base, basePath⟩ := d'
  obtain rfl : selector = b.bound.selector := hselector
  obtain rfl : base = b.bound.base := hbase
  obtain rfl : basePath = b.bound.basePath := hpaths
  rfl

section Counterparts

variable (hρ : ∀ id d, f.registry.bound? id = some d → g.registry.bound? (ρ id) = some d)

include hρ

/-- A formula uses a binding in the one form if it uses its counterpart in the other one. -/
theorem Settled.uses_counterpart {b : Binding} (hb : f.registry.get? id = some b) (c : NodeId) :
    g.graph.Uses c (ρ id) ↔ f.graph.Uses c id := by
  have hd : f.registry.bound? id = some b.bound := by rw [Registry.bound?, hb, Option.map_some]
  constructor
  · intro hu
    have hmem := hg.current.follows.mem_selectionsAt_of_uses hu (hρ id _ hd)
    rw [hsame.selectionsAt] at hmem
    obtain ⟨id', d', hu', hd', hselector, hbase⟩ := hf.current.follows.mem_selectionsAt.1 hmem
    rwa [← hf.current.right.eq_of_bound hd' hd hselector hbase]
  · intro hu
    have hmem := hf.current.follows.mem_selectionsAt_of_uses hu hd
    rw [← hsame.selectionsAt] at hmem
    obtain ⟨id', d', hu', hd', hselector, hbase⟩ := hg.current.follows.mem_selectionsAt.1 hmem
    rwa [← hg.current.right.eq_of_bound hd' (hρ id _ hd) hselector hbase]

/-- The counterpart of a binding has the same data. -/
theorem Settled.get?_counterpart {b : Binding} (hb : f.registry.get? id = some b) :
    g.registry.get? (ρ id) = some b := by
  obtain ⟨b', hb', hbb⟩ := Option.map_eq_some_iff.1 (hρ id b.bound (by rw [Registry.bound?, hb, Option.map_some]))
  rw [hb', Binding.eq_of_bound hbb (fun m => ?_) fun c => ?_]
  · have hselector : b'.selector = b.selector := congrArg Bound.selector hbb
    have hbase : b'.base = b.base := congrArg Bound.base hbb
    rw [hg.caches_iff hb', hf.caches_iff hb, hselector, hbase, hsame.matches_iff]
  · have hserves {h : Form} {i : BindingId} {a : Binding} (ha : h.registry.get? i = some a) :
        c ∈ a.consumers ↔ h.registry.Serves i c := by simp [Registry.Serves, ha]
    rw [hserves hb', hserves hb, hg.coherent.consumers, hf.coherent.consumers,
      hf.uses_counterpart hg hsame hρ hb]

/-- Every binding of the other form is a counterpart. -/
theorem Settled.exists_counterpart {id' : BindingId} (hid' : (g.registry.get? id').isSome) :
    ∃ id, (f.registry.get? id).isSome ∧ ρ id = id' := by
  obtain ⟨b, hb⟩ := Option.isSome_iff_exists.1 hid'
  have hd' : g.registry.bound? id' = some b.bound := by rw [Registry.bound?, hb, Option.map_some]
  obtain ⟨id, hd⟩ := hg.exists_bound hf hsame.symm hd'
  obtain ⟨a, ha, -⟩ := Option.map_eq_some_iff.1 hd
  exact ⟨id, by rw [ha]; rfl, hg.current.right.key _ _ _ _ (hρ id _ hd) hd' rfl rfl⟩

/-- The formulas use the counterparts. -/
theorem Settled.formula?_counterpart (n : NodeId) :
    g.graph.formula? n = (f.graph.formula? n).map (·.rename ρ) := by
  cases hF : f.graph.formula? n with
  | none =>
    rw [Option.map_none, Option.eq_none_iff_forall_ne_some]
    intro F' hF'
    obtain ⟨e, hat, -⟩ := hg.current.reads n F' hF'
    have hsome := hf.current.registered n e (hsame.symm.toExtends.formulaAt hat) not_false
    simp [hF] at hsome
  | some F =>
    obtain ⟨e, hat, hreads⟩ := hf.current.reads n F hF
    obtain ⟨F', hF'⟩ := Option.isSome_iff_exists.1 (hg.current.registered n e (hsame.toExtends.formulaAt hat) not_false)
    obtain ⟨e', hat', hreads'⟩ := hg.current.reads n F' hF'
    have ⟨q, hq, _, he⟩ := hsame.toExtends.formulaAt hat
    have ⟨q', hq', _, he'⟩ := hat'
    obtain rfl := Option.some.inj (hq.symm.trans hq')
    obtain rfl := Option.some.inj (he.symm.trans he')
    have hparent : (g.tree.place? n).bind Place.parent = (f.tree.place? n).bind Place.parent :=
      FieldTree.parent_of_outline (hsame n)
    rw [hF', Option.map_some, hreads.eq_rename hreads' hg.current.right hparent hρ]

/-- The counterparts stand for the same nodes. -/
theorem Settled.successors_counterpart (n : NodeId) :
    g.graph.successors n = .ofList ((f.graph.successors n).toList.map ρ) := Std.ExtTreeSet.ext_mem fun id' => by
  simp only [Std.ExtTreeSet.mem_ofList, List.contains_iff_mem, List.mem_map, Std.ExtTreeSet.mem_toList]
  rw [hg.coherent.successors]
  constructor
  · rintro ⟨⟨b, hb, hm⟩, -⟩
    obtain ⟨id, hid, rfl⟩ := hf.exists_counterpart hg hsame hρ (by rw [hb]; rfl)
    obtain ⟨a, ha⟩ := Option.isSome_iff_exists.1 hid
    obtain rfl := Option.some.inj ((hf.get?_counterpart hg hsame hρ ha).symm.trans hb)
    exact ⟨id, (hf.coherent.successors id n).2 ⟨⟨a, ha, hm⟩, not_false⟩, rfl⟩
  · rintro ⟨id, hid, rfl⟩
    obtain ⟨⟨b, hb, hm⟩, -⟩ := (hf.coherent.successors id n).1 hid
    exact ⟨⟨b, hf.get?_counterpart hg hsame hρ hb, hm⟩, not_false⟩

end Counterparts

theorem Settled.predecessors_eq (n : NodeId) : g.graph.predecessors n = f.graph.predecessors n :=
  Std.ExtTreeSet.ext_mem fun m => by
    rw [hg.coherent.reads n not_false, hf.coherent.reads n not_false, hg.current.follows.feeds_iff, hf.current.follows.feeds_iff]
    exact ⟨hsame.symm.toExtends.feeds, hsame.toExtends.feeds⟩

/-- If the bindings of a settled form keep their data in another one with the same tree, the two hold the same. -/
theorem Settled.corresponds (hρ : ∀ id d, f.registry.bound? id = some d → g.registry.bound? (ρ id) = some d) :
    Corresponds ρ f g := by
  have hbindings (id : BindingId) (b : Binding) (hb : f.registry.get? id = some b) :
      g.registry.get? (ρ id) = some b := hf.get?_counterpart hg hsame hρ hb
  refine ⟨fun id id' hid hid' he => ?_, hbindings, fun _ => hf.exists_counterpart hg hsame hρ, ?_⟩
  · obtain ⟨b, hb⟩ := Option.isSome_iff_exists.1 hid
    obtain ⟨b', hb'⟩ := Option.isSome_iff_exists.1 hid'
    have hsame := (hbindings id b hb).symm.trans ((congrArg g.registry.get? he).trans (hbindings id' b' hb'))
    obtain rfl := Option.some.inj hsame
    refine hf.current.right.key id id' b.bound b.bound ?_ ?_ rfl rfl
    · rw [Registry.bound?, hb, Option.map_some]
    · rw [Registry.bound?, hb', Option.map_some]
  · refine Std.ExtTreeMap.ext_getElem? fun n => ?_
    rw [Std.ExtTreeMap.getElem?_map]
    show g.graph.get? n = (f.graph.get? n).map (·.rename ρ)
    rw [hg.coherent.tidy.get?_eq, hf.coherent.tidy.get?_eq, hf.formula?_counterpart hg hsame hρ,
      hf.predecessors_eq hg hsame, hf.successors_counterpart hg hsame hρ, isEmpty_rename, Option.isNone_map]
    split <;> rfl

/-- Settled forms with the same tree have the same dependencies. -/
theorem Settled.sameDependencies : SameDependencies f g := by
  have hall : ∀ id, ∃ id', ∀ d, f.registry.bound? id = some d → g.registry.bound? id' = some d := by
    intro id
    cases hd : f.registry.bound? id with
    | none => exact ⟨id, by simp⟩
    | some d =>
      obtain ⟨id', hd'⟩ := hf.exists_bound hg hsame hd
      exact ⟨id', fun d' he => Option.some.inj he ▸ hd'⟩
  choose ρ hρ using hall
  exact ⟨ρ, hf.corresponds hg hsame hρ⟩

end Settled

section Same

/-- If the handles stay, the graphs and the registries are the same. -/
theorem Corresponds.same (h : Corresponds (fun i => i) f g) :
    g.graph.vertices = f.graph.vertices ∧ ∀ i, g.registry.get? i = f.registry.get? i := by
  refine ⟨?_, fun i => ?_⟩
  · rw [h.vertices]
    refine Std.ExtTreeMap.ext_getElem? fun n => ?_
    simp only [Std.ExtTreeMap.getElem?_map, Vertex.rename_same, Option.map_id']
  · cases hi : f.registry.get? i with
    | some b => exact h.bindings i b hi
    | none =>
      rw [← Option.not_isSome_iff_eq_none]
      intro hsome
      obtain ⟨i', hi', he⟩ := h.onto i hsome
      obtain rfl : i' = i := he
      simp [hi] at hi'

end Same

section Transfer

/-- What a renamed formula means, the formula itself means. -/
theorem Corresponds.reads (h : Corresponds ρ f g) {F : Formula} {e : String}
    (hreads : (F.rename ρ).Reads g.tree g.registry n e)
    (hparent : (f.tree.place? n).bind Place.parent = (g.tree.place? n).bind Place.parent)
    (halive : ∀ id ∈ F.bindings, (f.registry.get? id).isSome) : F.Reads f.tree f.registry n e := by
  obtain ⟨name, words, hwords, hop, hargs⟩ := hreads.words
  refine ⟨hreads.anchor, hreads.text, name, words, hwords, hop, ?_⟩
  have hsub : ∀ id, Argument.selector id ∈ F.args → (f.registry.get? id).isSome := fun id hid =>
    halive id (Formula.mem_bindings.2 hid)
  replace hargs : List.Forall₂ (ReadAs g.tree g.registry n) words (F.args.map (·.rename ρ)) := hargs
  clear hwords hop halive
  generalize F.args = args at hargs hsub
  induction args generalizing words with
  | nil =>
    cases hargs
    exact .nil
  | cons arg args ih =>
    cases hargs with
    | @cons word _ words _ harg hargs =>
      refine .cons ?_ (ih words hargs fun id hid => hsub id (List.mem_cons_of_mem _ hid))
      unfold ReadAs at harg ⊢
      split
      next hword =>
        rw [if_pos hword] at harg
        obtain ⟨id', d, hrename, hd, hparse, hbase⟩ := harg
        cases arg with
        | literal => cases hrename
        | selector id =>
          obtain rfl := Argument.selector.inj hrename
          obtain ⟨b, hb⟩ := Option.isSome_iff_exists.1 (hsub id List.mem_cons_self)
          have hbound : f.registry.bound? id = some b.bound := by rw [Registry.bound?, hb, Option.map_some]
          obtain rfl := Option.some.inj ((h.bound? hbound).symm.trans hd)
          exact ⟨id, b.bound, rfl, hbound, hparse, by
            rw [hbase, FieldTree.base_eq, FieldTree.base_eq, hparent]⟩
      next hword =>
        rw [if_neg hword] at harg
        cases arg with
        | literal v => exact harg
        | selector => cases harg

/-- If the graph and the registry of a form that follows the same tree are the same, the form follows the tree. -/
theorem Corresponds.follows (h : Corresponds ρ f g) (hf : Coherent f) (hg : Follows g)
    (hsame : FieldTree.SameOutlines f.tree g.tree) : Follows f := by
  have halive {id : BindingId} {d : Bound} (hd : f.registry.bound? id = some d) : (f.registry.get? id).isSome := by
    obtain ⟨b, hb, -⟩ := Option.map_eq_some_iff.1 hd
    rw [hb]
    rfl
  have hback := hsame.symm
  refine
    { right := ⟨fun id d hd => ?_, fun id id' d d' hd hd' hsource hpath => ?_⟩
      cached := fun id d m hd hm => ?_
      complete := fun id d m hd _ hm _ => ?_
      reads := fun n F hF => ?_
      registered := fun n e hat _ => ?_ }
  · exact (hg.right.bound _ d (h.bound? hd)).of_outline (hback _)
  · exact h.injective id id' (halive hd) (halive hd')
      (hg.right.key _ _ d d' (h.bound? hd) (h.bound? hd') hsource hpath)
  · exact hback.matches_iff.2 (hg.cached _ d m (h.bound? hd) ((h.caches (halive hd)).2 hm))
  · refine (h.caches (halive hd)).1 (hg.complete _ d m (h.bound? hd) not_false ?_ not_false)
    exact hsame.matches_iff.2 hm
  · obtain ⟨e, hat, hreads⟩ := hg.reads n (F.rename ρ) (by rw [h.formula?, hF, Option.map_some])
    refine ⟨e, hback.toExtends.formulaAt hat, h.reads hreads
      (FieldTree.parent_of_outline (hback n)) fun id hid => ?_⟩
    obtain ⟨b, hb, -⟩ := (hf.consumers id n).2 (.inl ⟨F, hF, hid⟩)
    rw [hb]
    rfl
  · obtain ⟨F', hF'⟩ := Option.isSome_iff_exists.1
      (hg.registered n e (hsame.toExtends.formulaAt hat) not_false)
    rw [h.formula?] at hF'
    exact Option.isSome_iff_exists.2 (Option.map_eq_some_iff.1 hF' |>.imp fun _ => And.left)

/-- If the graph and the registry of a settled form with the same tree are the same, the form is settled. -/
theorem Corresponds.settled (h : Corresponds ρ f g) (hf : Intact f) (hg : Settled g)
    (hsame : FieldTree.SameOutlines f.tree g.tree) : Settled f :=
  hf.consistent.upkept ((h.follows hf.consistent.coherent hg.current.follows hsame).current hf.tree.wellFormed)

/-- A form follows its tree if its graph and its registry are what they would be if they were derived anew. -/
theorem Consistent.tracking_of_rebuild (h : Consistent f) (ht : f.tree.Keyed) (hrun : rebuild f = .ok () g)
    (hsame : SameDependencies f g) : Tracking f := by
  obtain ⟨ρ, hρ⟩ := hsame
  have hg := (h.coherent.renew ht).of_ok hrun
  have hfollows := hρ.follows h.coherent hg.tracking.follows (FieldTree.sameOutlines_of_blank hg.blank)
  exact ⟨h.coherent, ht, hfollows, h.acyclic, h.levels⟩

end Transfer

section Listings

theorem inMatchOrder_of_blank (hblank : g.tree.blank = f.tree.blank) (nodes : List NodeId) :
    g.tree.inMatchOrder nodes = f.tree.inMatchOrder nodes :=
  FieldTree.inMatchOrder_congr fun x _ y _ => by rw [FieldTree.path_of_blank hblank, FieldTree.path_of_blank hblank]

/-- The text of the dependency graph for given levels. -/
def textAt (f : Form) (levels : Std.ExtTreeMap NodeId Nat) : String :=
  let nodes := f.byLevel levels f.graph.formulaNodes
  let isRoot (node : NodeId) : Bool := (f.graph.predecessors node).isEmpty
  let roots := (nodes.filter isRoot).map fun node => (f.tree.path node).render
  String.join ((nodes.flatMap f.edgeLines ++ roots).map (· ++ "\n"))

variable {levels : Std.ExtTreeMap NodeId Nat}

theorem leveledNodes_eq
    (hlevels : Form.levels f = .ok levels { f with graph := { f.graph with levels := some levels } }) :
    leveledNodes f = .ok ((f.byLevel levels levels.keys).map fun node => (node, levels.getD node 0))
      { f with graph := { f.graph with levels := some levels } } := by
  have heq : leveledNodes f = EStateM.bind Form.levels _ f := rfl
  rw [heq, EStateM.bind, hlevels]
  rfl

theorem graphText_eq
    (hlevels : Form.levels f = .ok levels { f with graph := { f.graph with levels := some levels } }) :
    graphText f = .ok (f.textAt levels) { f with graph := { f.graph with levels := some levels } } := by
  have heq : graphText f = EStateM.bind Form.levels _ f := rfl
  rw [heq, EStateM.bind, hlevels]
  rfl

theorem byLevel_of_blank (hblank : g.tree.blank = f.tree.blank) (nodes : List NodeId) :
    g.byLevel levels nodes = f.byLevel levels nodes := by
  rw [byLevel, byLevel, inMatchOrder_of_blank hblank]

theorem Corresponds.textAt (h : Corresponds ρ f g) (hblank : g.tree.blank = f.tree.blank) :
    g.textAt levels = f.textAt levels := by
  have hlines (n : NodeId) : g.edgeLines n = f.edgeLines n := by
    unfold edgeLines
    rw [h.predecessors, inMatchOrder_of_blank hblank]
    refine List.map_congr_left fun m _ => ?_
    rw [FieldTree.path_of_blank hblank, FieldTree.path_of_blank hblank]
  unfold Form.textAt
  simp only [h.formulaNodes, byLevel_of_blank hblank, h.predecessors, FieldTree.path_of_blank hblank, funext hlines]

/-- Forms with the same tree and the same dependencies show the same levels and the same graph. -/
theorem Corresponds.listings (h : Corresponds ρ f g) (hf : Consistent f) (hg : Consistent g)
    (hblank : g.tree.blank = f.tree.blank) :
    (∃ listing f' g', leveledNodes f = .ok listing f' ∧ leveledNodes g = .ok listing g') ∧
      ∃ text f' g', graphText f = .ok text f' ∧ graphText g = .ok text g' := by
  obtain ⟨levels, hcompute, hlevels⟩ := hf.levels_ok
  obtain ⟨levels', hcompute', hlevels'⟩ := hg.levels_ok
  obtain rfl := Except.ok.inj ((h.computeLevels hcompute).symm.trans hcompute')
  have hlisting := leveledNodes_eq hlevels'
  rw [byLevel_of_blank hblank] at hlisting
  have htext := graphText_eq hlevels'
  rw [h.textAt hblank] at htext
  exact ⟨⟨_, _, _, leveledNodes_eq hlevels, hlisting⟩, ⟨_, _, _, graphText_eq hlevels, htext⟩⟩

end Listings

end Form

end LiveForm
