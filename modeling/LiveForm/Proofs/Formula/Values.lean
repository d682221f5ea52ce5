import LiveForm.Proofs.Formula.Reading

/-!
# What the value of a formula depends on

A value is computed from the operator, the literals and the values of the cached fields in match order. Caches that
hold what their selectors stand for give the value that the expression has for the tree alone.
-/

set_option autoImplicit false

namespace LiveForm

namespace FieldTree

/-- Sorting compares paths two by two, so nothing else about these matters. -/
theorem inMatchOrder_congr {t t' : FieldTree} {ids : List NodeId}
    (h : ∀ x ∈ ids, ∀ y ∈ ids,
      Path.matchOrder (t'.path x) (t'.path y) = Path.matchOrder (t.path x) (t.path y)) :
    t'.inMatchOrder ids = t.inMatchOrder ids := by
  have heq (t : FieldTree) : t.inMatchOrder ids =
      ids.mergeSort fun x y => (Path.matchOrder (t.path x) (t.path y)).isLE := by
    have hmap := List.map_mergeSort (f := fun id => (t.path id, id)) (l := ids)
      (r := fun x y => (Path.matchOrder (t.path x) (t.path y)).isLE)
      (s := fun a b => (Path.matchOrder a.1 b.1).isLE) fun _ _ _ _ => rfl
    unfold inMatchOrder Path.sortByMatchOrder
    rw [← hmap, List.map_map]
    exact List.map_id _
  have hcongr := List.map_mergeSort (f := id) (l := ids)
    (r := fun x y => (Path.matchOrder (t'.path x) (t'.path y)).isLE)
    (s := fun x y => (Path.matchOrder (t.path x) (t.path y)).isLE)
    fun x hx y hy => congrArg Ordering.isLE (h x hx y hy)
  rw [heq, heq]
  simpa using hcongr

end FieldTree

/-- A set lists each of its members once. -/
theorem nodup_toList {α : Type} [Ord α] [Std.TransOrd α] (s : Std.ExtTreeSet α) : s.toList.Nodup := by
  apply (Std.ExtTreeSet.distinct_toList (t := s)).imp
  rintro x y hxy rfl
  exact hxy Std.compare_self

variable {t t' : FieldTree} {r r' : Registry} {n : NodeId} {id : BindingId}

/-- Two trees give a binding the same values to read. -/
structure Binding.SameReadings (b b' : Binding) (t t' : FieldTree) : Prop where
  selector : b'.selector = b.selector
  cache : b'.cache = b.cache
  contains : ∀ m ∈ b.cache, t'.contains m = t.contains m
  order : ∀ m ∈ b.cache, ∀ m' ∈ b.cache,
    Path.matchOrder (t'.path m) (t'.path m') = Path.matchOrder (t.path m) (t.path m')
  values : ∀ m ∈ b.cache, t'.authoritative? m = t.authoritative? m

theorem Binding.SameReadings.map_eq {b b' : Binding} (h : b.SameReadings b' t t') :
    (b'.readings t').map t'.authoritative? = (b.readings t).map t.authoritative? := by
  have hfilter : b'.cache.toList.filter t'.contains = b.cache.toList.filter t.contains := by
    rw [h.cache]
    exact List.filter_congr fun m hm => h.contains m (Std.ExtTreeSet.mem_toList.1 hm)
  have hmem {m : NodeId} (hm : m ∈ b.cache.toList.filter t.contains) : m ∈ b.cache :=
    Std.ExtTreeSet.mem_toList.1 (List.mem_filter.1 hm).1
  unfold Binding.readings
  rw [hfilter, FieldTree.inMatchOrder_congr fun m hm m' hm' => h.order m (hmem hm) m' (hmem hm')]
  refine List.map_congr_left fun m hm => h.values m (hmem ?_)
  exact FieldTree.mem_inMatchOrder.1 hm

theorem mapM_congr {α β γ : Type} {g : α → Option γ} {g' : β → Option γ} {l : List α} {l' : List β}
    (h : List.Forall₂ (fun a b => g a = g' b) l l') : l.mapM g = l'.mapM g' := by
  induction h with
  | nil => rfl
  | cons hab _ ih => rw [List.mapM_cons, List.mapM_cons, hab, ih]

theorem mem_of_mapM {α β : Type} {g : α → Option β} {l : List α} {l' : List β} (h : l.mapM g = some l') {a : α}
    (ha : a ∈ l) : ∃ b ∈ l', g a = some b := by
  induction l generalizing l' with
  | nil => cases ha
  | cons first rest ih =>
    rw [List.mapM_cons] at h
    cases hfirst : g first with
    | none =>
      rw [hfirst] at h
      cases h
    | some b =>
      cases hrest : rest.mapM g with
      | none =>
        rw [hfirst, hrest] at h
        cases h
      | some l =>
        rw [hfirst, hrest] at h
        obtain rfl := Option.some.inj h
        rcases List.mem_cons.1 ha with rfl | ha
        · exact ⟨b, List.mem_cons_self, hfirst⟩
        · obtain ⟨b', hb', hg⟩ := ih hrest ha
          exact ⟨b', List.mem_cons_of_mem _ hb', hg⟩

/-- The value of a formula depends on what its bindings give to read. -/
theorem Formula.evaluateCached_congr {F : Formula}
    (h : ∀ id ∈ F.bindings, ∃ b b', r.get? id = some b ∧ r'.get? id = some b' ∧
      b.SameReadings b' t t') : F.evaluateCached r' t' = F.evaluateCached r t := by
  unfold Formula.evaluateCached
  have hargs : F.args.mapM (operand? r' t') = F.args.mapM (operand? r t) := by
    refine mapM_congr ?_
    rw [List.forall₂_same]
    intro arg harg
    cases arg with
    | literal v => rfl
    | selector id =>
      obtain ⟨b, b', hb, hb', hsame⟩ := h id (mem_bindings.2 harg)
      simp only [operand?, hb, hb', Option.map_some, hsame.map_eq, hsame.selector]
  rw [hargs]

section Refreshing

variable {mode : Refresh}

/-- A cache that has been brought up to date is. -/
theorem Binding.fresh_fresh (t : FieldTree) (b : Binding) (mode : Refresh) :
    { b with cache := b.fresh t mode }.fresh t mode = b.fresh t mode := by
  refine Std.ExtTreeSet.ext_mem fun m => ?_
  cases mode with
  | incremental =>
    have haccepts (cache : NodeSet) : { b with cache }.accepts t m = b.accepts t m := rfl
    simp [Binding.fresh, haccepts]
  | fromScratch => rfl

theorem Formula.get?_refreshAll {ids : List BindingId} {x : BindingId} (hx : x ∈ ids) :
    (refreshAll r t ids mode).get? x =
      (r.get? x).map fun b => { b with cache := b.fresh t mode } := by
  have hstill (r : Registry) (ids : List BindingId) (b : Binding)
      (hb : r.get? x = some { b with cache := b.fresh t mode }) :
      (refreshAll r t ids mode).get? x =
        some { b with cache := b.fresh t mode } := by
    induction ids generalizing r with
    | nil => exact hb
    | cons a rest ih =>
      refine ih _ ?_
      rw [Registry.get?_refresh, hb]
      split
      · rw [Option.map_some, Binding.fresh_fresh]
      · rfl
  have hnone (r : Registry) (ids : List BindingId) (hb : r.get? x = none) :
      (refreshAll r t ids mode).get? x = none := by
    induction ids generalizing r with
    | nil => exact hb
    | cons a rest ih =>
      refine ih _ ?_
      rw [Registry.get?_refresh, hb]
      split <;> rfl
  induction ids generalizing r with
  | nil => simp at hx
  | cons a rest ih =>
    have hget : (r.refresh t a mode).2.get? x = _ := Registry.get?_refresh
    show (refreshAll (r.refresh t a mode).2 t rest mode).get? x = _
    by_cases hxa : x = a
    · rw [if_pos hxa] at hget
      cases hb : r.get? x with
      | none =>
        rw [hb] at hget
        exact hnone _ _ hget
      | some b =>
        rw [hb] at hget
        exact hstill _ _ b hget
    · rw [if_neg hxa] at hget
      rw [ih ((List.mem_cons.1 hx).resolve_left hxa), hget]

end Refreshing

/-- An argument is worth the same if it is read again and its binding is applied, as if it has been read before and the
cache of its binding holds what the selector stands for. -/
theorem ReadAs.operand?_eq (ht : t.Keyed) {r₀ : Registry} {word : String} {arg₀ arg : Argument}
    (harg₀ : ReadAs t r₀ n word arg₀) (harg : ReadAs t r n word arg) {ids : List BindingId}
    (hmem : ∀ id, arg₀ = .selector id → id ∈ ids)
    (hcache : ∀ id, arg = .selector id → ∀ b, r.get? id = some b →
      ∀ m, m ∈ b.cache ↔ t.Matches b.selector b.base m) :
    Formula.operand? (Formula.refreshAll r₀ t ids .fromScratch) t arg₀ = Formula.operand? r t arg := by
  unfold ReadAs at harg harg₀
  split at harg
  next hsel =>
    rw [if_pos hsel] at harg₀
    obtain ⟨id, d, rfl, hd, hparse, hbase⟩ := harg
    obtain ⟨id₀, d₀, rfl, hd₀, hparse₀, hbase₀⟩ := harg₀
    obtain ⟨b, hb, rfl⟩ := Option.map_eq_some_iff.1 hd
    obtain ⟨b₀, hb₀, rfl⟩ := Option.map_eq_some_iff.1 hd₀
    have hselector : b₀.selector = b.selector := Except.ok.inj (hparse₀.symm.trans hparse)
    have hsame : b₀.base = b.base := by
      have h₁ : b.base = b.selector.base t n := hbase
      have h₀ : b₀.base = b₀.selector.base t n := hbase₀
      rw [h₁, h₀, hselector]
    have hpattern : b.selector.pattern ≠ [] := Selector.pattern_ne_nil hparse
    have hset : b₀.fresh t .fromScratch = b.cache := by
      refine Std.ExtTreeSet.ext_mem fun m => ?_
      rw [hcache id rfl b hb, ← Selector.mem_fieldsBelow ht hpattern]
      simp only [Binding.fresh, hselector, hsame, Std.ExtTreeSet.mem_ofList, List.contains_iff_mem]
    simp only [Formula.operand?, Formula.get?_refreshAll (hmem id₀ rfl), hb, hb₀, Option.map_some, hselector,
      hset]
    rfl
  next hsel =>
    rw [if_neg hsel] at harg₀
    rw [harg, harg₀]
    rfl

/-- Bindings whose caches hold what their selectors stand for give a formula the value that its expression has
for the tree. -/
theorem freshValue?_eq (ht : t.Keyed) {q : Place} (hq : t.place? n = some q)
    (hlive : q.inTemplate = false) {e : String} {F : Formula} (hreads : F.Reads t r n e)
    (hcache : ∀ id ∈ F.bindings, ∀ b, r.get? id = some b →
      ∀ m, m ∈ b.cache ↔ t.Matches b.selector b.base m) :
    freshValue? t n e = F.evaluateCached r t := by
  have hnone (id : BindingId) : ({} : Registry).get? id = none := by simp [Registry.get?]
  have hfresh : ({} : Registry).Fresh := fun id b hb => by simp [hnone] at hb
  have hidle (id : BindingId) : ¬ ({} : Registry).Serves id n := by
    rintro ⟨b, hb, -⟩
    simp [hnone] at hb
  have hspec := Formula.parse_spec (t := t) (n := n) hfresh hidle (fun id b hb => by simp [hnone] at hb) e
  have hright := Formula.parse_right ht hq hlive (r := {})
    ⟨fun id d hd => by simp [Registry.bound?, hnone] at hd,
      fun id id' d d' hd => by simp [Registry.bound?, hnone] at hd⟩ hfresh e
  unfold freshValue?
  cases hparse : Formula.parse t n e {} with
  | error error r₀ => exact absurd hreads.readable (hspec.of_error hparse).2.2.2
  | ok F₀ r₀ =>
    obtain ⟨-, hreads₀⟩ := hright.of_ok hparse
    obtain ⟨name, words, hwords, hop, hargs⟩ := hreads.words
    obtain ⟨name₀, words₀, hwords₀, hop₀, hargs₀⟩ := hreads₀.words
    obtain ⟨rfl, rfl⟩ : name = name₀ ∧ words = words₀ := by
      rw [hwords] at hwords₀
      simpa using hwords₀
    have hoperator : F₀.operator = F.operator := Option.some.inj (hop₀.symm.trans hop)
    dsimp only
    unfold Formula.evaluate Formula.evaluateCached
    rw [hoperator]
    have hmap : F₀.args.mapM
          (Formula.operand? (Formula.refreshAll r₀ t F₀.bindings .fromScratch) t) =
        F.args.mapM (Formula.operand? r t) := by
      have hmem₀ : ∀ arg ∈ F₀.args, ∀ id, arg = .selector id → id ∈ F₀.bindings :=
        fun arg harg id he => Formula.mem_bindings.2 (he ▸ harg)
      have hmem : ∀ arg ∈ F.args, ∀ id, arg = .selector id → id ∈ F.bindings :=
        fun arg harg id he => Formula.mem_bindings.2 (he ▸ harg)
      generalize F₀.bindings = ids₀ at hmem₀
      generalize F₀.args = args₀ at hargs₀ hmem₀
      generalize F.args = args at hargs hmem
      refine mapM_congr ?_
      clear hwords hwords₀
      induction hargs generalizing args₀ with
      | nil =>
        cases hargs₀
        exact .nil
      | @cons word arg words args harg _ ih =>
        cases hargs₀ with
        | @cons _ arg₀ _ args₀ harg₀ hargs₀ =>
          refine .cons ?_ (ih _ hargs₀ (fun a ha => hmem₀ a (List.mem_cons_of_mem _ ha))
            fun a ha => hmem a (List.mem_cons_of_mem _ ha))
          exact harg₀.operand?_eq ht harg (hmem₀ _ List.mem_cons_self) fun id he =>
            hcache id (hmem _ List.mem_cons_self id he)
    exact congrArg (·.bind F.operator.apply) hmap

end LiveForm
