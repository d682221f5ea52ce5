import LiveForm.Proofs.Formula.Bindings
import LiveForm.Proofs.Registry.Entries
import LiveForm.Proofs.Outcome
import LiveForm.Proofs.Selector.Matching
import LiveForm.Proofs.Tree.Children
import Mathlib.Data.List.Forall2

/-!
# Reading a formula

`Formula.Reads` says that a formula is what an expression means at a node: its arguments follow the words of
the expression one by one, and each selector among these is bound to its base. A formula that is read makes its
node a user of the bindings that it names, and of no others. If reading fails, the bindings are as they were.
-/

set_option autoImplicit false

namespace LiveForm

/-- A binding is what it says: its selector was read, and its base is where the path leads, outside
templates. -/
structure Bound.Right (t : FieldTree) (d : Bound) : Prop where
  parsed : Selector.parse d.selector.source = .ok d.selector
  placed : ∃ p, t.place? d.base = some p ∧ p.inTemplate = false ∧ d.basePath = p.path

/-- All bindings are what they say, and none of them agree in their selectors and in the paths of their
bases. -/
structure Registry.Right (t : FieldTree) (r : Registry) : Prop where
  bound : ∀ id d, r.bound? id = some d → d.Right t
  key : ∀ id id' d d', r.bound? id = some d → r.bound? id' = some d' →
    d.selector.source = d'.selector.source → d.basePath = d'.basePath → id = id'

/-- An argument of the formula of a node is what a word means there. -/
def ReadAs (t : FieldTree) (r : Registry) (n : NodeId) (word : String) (arg : Argument) : Prop :=
  if Selector.isSelectorWord word then
    ∃ id d, arg = .selector id ∧ r.bound? id = some d ∧ Selector.parse word = .ok d.selector ∧
      d.base = d.selector.base t n
  else arg = .literal (.ofLiteral word)

/-- A formula is what an expression means at a node. -/
structure Formula.Reads (t : FieldTree) (r : Registry) (n : NodeId) (expression : String)
    (F : Formula) : Prop where
  anchor : F.anchor = n
  text : F.expression = expression
  words : ∃ name words, Text.words expression = name :: words ∧
    Operator.ofName? name = some F.operator ∧ List.Forall₂ (ReadAs t r n) words F.args

/-- An expression that can be read at any node. -/
def Readable (expression : String) : Prop :=
  ∃ name words operator, Text.words expression = name :: words ∧
    Operator.ofName? name = some operator ∧
    ∀ word ∈ words, Selector.isSelectorWord word = true → ∃ s, Selector.parse word = .ok s

variable {t : FieldTree} {r r' r₀ : Registry} {n m : NodeId} {id : BindingId}

/-- The base of a selector depends on the parent of the node alone. -/
theorem ReadAs.congr {t' : FieldTree} {word : String} {arg : Argument} (h : ReadAs t r n word arg)
    (hparent : (t'.place? n).bind Place.parent = (t.place? n).bind Place.parent)
    (hbound : ∀ id d, arg = .selector id → r.bound? id = some d →
      ∃ d', r'.bound? id = some d' ∧ d'.selector = d.selector ∧ d'.base = d.base) :
    ReadAs t' r' n word arg := by
  unfold ReadAs at h ⊢
  split
  next hword =>
    rw [if_pos hword] at h
    obtain ⟨id, d, harg, hd, hparse, hbase⟩ := h
    obtain ⟨d', hd', hselector, hbase'⟩ := hbound id d harg hd
    refine ⟨id, d', harg, hd', hselector ▸ hparse, ?_⟩
    rw [hselector, hbase', hbase, FieldTree.base_eq, FieldTree.base_eq, hparent]
  next hword => rwa [if_neg hword] at h

/-- What a formula means does not depend on anything but the parent of its node, and the selectors and bases
of its own bindings. -/
theorem Formula.Reads.congr {t' : FieldTree} {expression : String} {F : Formula}
    (h : F.Reads t r n expression)
    (hparent : (t'.place? n).bind Place.parent = (t.place? n).bind Place.parent)
    (hbound : ∀ id ∈ F.bindings, ∀ d, r.bound? id = some d →
      ∃ d', r'.bound? id = some d' ∧ d'.selector = d.selector ∧ d'.base = d.base) :
    F.Reads t' r' n expression := by
  obtain ⟨name, words, hwords, hop, hargs⟩ := h.words
  refine ⟨h.anchor, h.text, name, words, hwords, hop, ?_⟩
  have hsub : ∀ arg ∈ F.args, ∀ id d, arg = .selector id → r.bound? id = some d →
      ∃ d', r'.bound? id = some d' ∧ d'.selector = d.selector ∧ d'.base = d.base := by
    rintro _ harg id d rfl hd
    exact hbound id (Formula.mem_bindings.2 harg) d hd
  clear hwords hop hbound
  generalize F.args = args at hargs hsub
  induction hargs with
  | nil => exact .nil
  | cons harg _ ih =>
    exact .cons (harg.congr hparent (hsub _ List.mem_cons_self))
      (ih fun arg h' => hsub arg (List.mem_cons_of_mem _ h'))

/-- What was read can be read anywhere. -/
theorem Formula.Reads.readable {expression : String} {F : Formula}
    (h : F.Reads t r n expression) : Readable expression := by
  obtain ⟨name, words, hwords, hop, hargs⟩ := h.words
  refine ⟨name, words, F.operator, hwords, hop, ?_⟩
  clear hwords hop
  generalize F.args = args at hargs
  induction hargs with
  | nil => simp
  | @cons word arg words args harg _ ih =>
    intro other hother hsel
    rcases List.mem_cons.1 hother with rfl | hother
    · unfold ReadAs at harg
      rw [if_pos hsel] at harg
      obtain ⟨_, d, _, _, hparse, _⟩ := harg
      exact ⟨_, hparse⟩
    · exact ih other hother hsel

/-- An expression uses a selector, which is applied to a base if the expression belongs to a node. -/
def FieldTree.Selects (t : FieldTree) (n : NodeId) (expression : String) (s : Selector)
    (base : NodeId) : Prop :=
  ∃ name words, Text.words expression = name :: words ∧ ∃ word ∈ words,
    Selector.isSelectorWord word = true ∧ Selector.parse word = .ok s ∧ base = s.base t n

/-- The bindings of a formula are those that its expression asks for. -/
theorem Formula.Reads.selects_iff {expression : String} {F : Formula} (h : F.Reads t r n expression)
    {s : Selector} {base : NodeId} : t.Selects n expression s base ↔
      ∃ id ∈ F.bindings, ∃ d, r.bound? id = some d ∧ d.selector = s ∧ d.base = base := by
  obtain ⟨name, words, hwords, -, hargs⟩ := h.words
  have hall : (∃ word ∈ words, Selector.isSelectorWord word = true ∧ Selector.parse word = .ok s ∧
      base = s.base t n) ↔ ∃ arg ∈ F.args, ∃ id, arg = .selector id ∧
        ∃ d, r.bound? id = some d ∧ d.selector = s ∧ d.base = base := by
    clear hwords
    generalize F.args = args at hargs
    induction hargs with
    | nil => simp
    | @cons word arg words args harg _ ih =>
      simp only [List.mem_cons, exists_eq_or_imp, ih]
      refine or_congr_left ?_
      unfold ReadAs at harg
      split at harg
      next hsel =>
        obtain ⟨id, d, rfl, hd, hparse, hbase⟩ := harg
        constructor
        · rintro ⟨-, hs, rfl⟩
          obtain rfl : d.selector = s := Except.ok.inj (hparse.symm.trans hs)
          exact ⟨id, rfl, d, hd, rfl, hbase⟩
        · rintro ⟨id', hid', d', hd', rfl, rfl⟩
          obtain rfl : id = id' := by simpa using hid'
          obtain rfl : d = d' := Option.some.inj (hd.symm.trans hd')
          exact ⟨hsel, hparse, hbase⟩
      next hsel =>
        subst harg
        simp [hsel]
  unfold FieldTree.Selects
  simp only [hwords, List.cons.injEq]
  constructor
  · rintro ⟨_, _, ⟨rfl, rfl⟩, hword⟩
    obtain ⟨arg, harg, id, rfl, hd⟩ := hall.1 hword
    exact ⟨id, mem_bindings.2 harg, hd⟩
  · rintro ⟨id, hid, hd⟩
    exact ⟨name, words, ⟨rfl, rfl⟩, hall.2 ⟨_, mem_bindings.1 hid, id, rfl, hd⟩⟩

/-- Each binding of a formula is in the registry, applied to the base that its selector asks for. -/
theorem Formula.Reads.bound_of_mem {expression : String} {F : Formula}
    (h : F.Reads t r n expression) (hid : id ∈ F.bindings) :
    ∃ d, r.bound? id = some d ∧ d.base = d.selector.base t n := by
  obtain ⟨_, words, -, -, hargs⟩ := h.words
  have hmem := mem_bindings.1 hid
  clear hid
  generalize F.args = args at hargs hmem
  induction hargs with
  | nil => simp at hmem
  | @cons word arg words args harg _ ih =>
    rcases List.mem_cons.1 hmem with rfl | hmem
    · unfold ReadAs at harg
      split at harg
      · obtain ⟨id', d, hid', hd, -, hbase⟩ := harg
        obtain rfl : id = id' := by simpa using hid'
        exact ⟨d, hd, hbase⟩
      · simp at harg
    · exact ih hmem

/-- A formula that is kept keeps its selectors. -/
theorem Formula.Reads.selector_eq {t' : FieldTree} {n' : NodeId} {expression : String} {F : Formula}
    (h : F.Reads t r n expression) (h' : F.Reads t' r' n' expression) (hid : id ∈ F.bindings)
    {d d' : Bound} (hd : r.bound? id = some d) (hd' : r'.bound? id = some d') :
    d'.selector = d.selector := by
  obtain ⟨name, words, hwords, -, hargs⟩ := h.words
  obtain ⟨name', words', hwords', -, hargs'⟩ := h'.words
  obtain ⟨rfl, rfl⟩ : name = name' ∧ words = words' := by
    rw [hwords] at hwords'
    simpa using hwords'
  have hmem := mem_bindings.1 hid
  clear hid hwords hwords'
  generalize F.args = args at hargs hargs' hmem
  induction hargs with
  | nil => simp at hmem
  | @cons word arg words args harg _ ih =>
    cases hargs' with
    | cons harg' hargs' =>
      rcases List.mem_cons.1 hmem with rfl | hmem
      · unfold ReadAs at harg harg'
        split at harg
        next hsel =>
          rw [if_pos hsel] at harg'
          obtain ⟨i, e, hi, he, hparse, -⟩ := harg
          obtain ⟨i', e', hi', he', hparse', -⟩ := harg'
          obtain rfl : id = i := by simpa using hi
          obtain rfl : id = i' := by simpa using hi'
          obtain rfl := Option.some.inj (hd.symm.trans he)
          obtain rfl := Option.some.inj (hd'.symm.trans he')
          exact Except.ok.inj (hparse'.symm.trans hparse)
        next => simp at harg
      · exact ih hargs' hmem

/-- A node has become a user of some bindings. New bindings are among these and stand for nothing yet. -/
structure Registry.Taken (n : NodeId) (ids : List BindingId) (r r' : Registry) : Prop where
  old : ∀ id b, r.get? id = some b →
    ∃ b', r'.get? id = some b' ∧ b'.bound = b.bound ∧ b'.cache = b.cache
  new : ∀ id b', r'.get? id = some b' → r.get? id = none → b'.cache = ∅ ∧ id ∈ ids
  serves : ∀ id m, r'.Serves id m ↔ r.Serves id m ∨ (m = n ∧ id ∈ ids)
  fresh : r'.Fresh

namespace Registry.Taken

variable {ids ids' : List BindingId}

theorem refl (hfresh : r.Fresh) : Taken n [] r r where
  old _ b hb := ⟨b, hb, rfl, rfl⟩
  new _ _ hb hnone := by simp [hb] at hnone
  serves _ _ := by simp
  fresh := hfresh

theorem congr (h : Taken n ids r r') (hids : ∀ id, id ∈ ids ↔ id ∈ ids') : Taken n ids' r r' where
  old := h.old
  new id b hb hnone := ⟨(h.new id b hb hnone).1, (hids id).1 (h.new id b hb hnone).2⟩
  serves id m := by rw [h.serves, hids]
  fresh := h.fresh

theorem bound? (h : Taken n ids r r') {d : Bound} (hd : r.bound? id = some d) :
    r'.bound? id = some d := by
  obtain ⟨b, hb, rfl⟩ := Option.map_eq_some_iff.1 hd
  obtain ⟨b', hb', hbound, -⟩ := h.old id b hb
  rw [Registry.bound?, hb', Option.map_some, hbound]

theorem caches (h : Taken n ids r r') {m : NodeId} : r'.Caches id m ↔ r.Caches id m := by
  constructor
  · rintro ⟨b', hb', hm⟩
    cases hb : r.get? id with
    | none =>
      rw [(h.new id b' hb' hb).1] at hm
      simp at hm
    | some b =>
      obtain ⟨b'', hb'', -, hcache⟩ := h.old id b hb
      obtain rfl := Option.some.inj (hb'.symm.trans hb'')
      exact ⟨b, hb, hcache ▸ hm⟩
  · rintro ⟨b, hb, hm⟩
    obtain ⟨b', hb', -, hcache⟩ := h.old id b hb
    exact ⟨b', hb', hcache ▸ hm⟩

/-- A node that uses no binding has left the registry as it was. -/
theorem bindings_eq (h : Taken n [] r r') : r'.bindings = r.bindings := by
  refine bindings_ext fun id => ?_
  cases hb : r.get? id with
  | none =>
    cases hb' : r'.get? id with
    | none => rfl
    | some b' => exact absurd (h.new id b' hb' hb).2 (by simp)
  | some b =>
    obtain ⟨b', hb', hbound, hcache⟩ := h.old id b hb
    have hconsumers : b'.consumers = b.consumers := by
      refine Std.ExtTreeSet.ext_mem fun m => ?_
      have := h.serves id m
      simpa [Serves, hb, hb'] using this
    obtain ⟨s, a, p, c, u⟩ := b
    obtain ⟨s', a', p', c', u'⟩ := b'
    simp only [Binding.bound, Bound.mk.injEq] at hbound
    simp only at hcache hconsumers
    rw [hb', hbound.1, hbound.2.1, hbound.2.2, hcache, hconsumers]

/-- Giving up one of the bindings again. -/
theorem release {a : BindingId} (h : Taken n (a :: ids) r r') (ha : a ∉ ids)
    (hn : ∀ id, ¬ r.Serves id n) (hused : ∀ id b, r.get? id = some b → ∃ m, m ∈ b.consumers) :
    Taken n ids r (r'.release a n).2 := by
  have hserves (id : BindingId) (m : NodeId) :
      (r'.release a n).2.Serves id m ↔ r.Serves id m ∨ (m = n ∧ id ∈ ids) := by
    rw [serves_release, h.serves, List.mem_cons]
    constructor
    · rintro ⟨hr | ⟨rfl, rfl | hid⟩, hne⟩
      · exact .inl hr
      · exact absurd ⟨rfl, rfl⟩ hne
      · exact .inr ⟨rfl, hid⟩
    · rintro (hr | ⟨rfl, hid⟩)
      · exact ⟨.inl hr, fun hc => hn id (hc.2 ▸ hr)⟩
      · exact ⟨.inr ⟨rfl, .inr hid⟩, fun hc => ha (hc.1 ▸ hid)⟩
  refine ⟨fun id b hb => ?_, fun id b hb hnone => ?_, hserves, h.fresh.release⟩
  · obtain ⟨b', hb', hbound, hcache⟩ := h.old id b hb
    obtain ⟨m, hm⟩ := hused id b hb
    obtain ⟨b'', hb'', -⟩ := (hserves id m).2 (.inl ⟨b, hb, hm⟩)
    obtain ⟨c, hc, hbound', hcache', -⟩ := of_get?_release hb''
    obtain rfl := Option.some.inj (hb'.symm.trans hc)
    exact ⟨b'', hb'', hbound'.trans hbound, hcache'.trans hcache⟩
  · obtain ⟨c, hc, -, hcache, hother, hself⟩ := of_get?_release hb
    obtain ⟨hempty, -⟩ := h.new id c hc hnone
    refine ⟨hcache.trans hempty, ?_⟩
    have hmem : ∃ m, m ∈ b.consumers := by
      by_cases hid : id = a
      · exact hself hid
      · rw [hother hid]
        have hserve : r'.Serves id n := (h.serves id n).2 (.inr ⟨rfl, (h.new id c hc hnone).2⟩)
        obtain ⟨c', hc', hm⟩ := hserve
        obtain rfl := Option.some.inj (hc.symm.trans hc')
        exact ⟨n, hm⟩
    obtain ⟨m, hm⟩ := hmem
    rcases (hserves id m).1 ⟨b, hb, hm⟩ with ⟨d, hd, -⟩ | ⟨-, hid⟩
    · simp [hnone] at hd
    · exact hid

/-- Giving up all of the bindings again. -/
theorem releaseAll (h : Taken n ids r r') (hnodup : ids.Nodup) (hn : ∀ id, ¬ r.Serves id n)
    (hused : ∀ id b, r.get? id = some b → ∃ m, m ∈ b.consumers) :
    Taken n [] r (Formula.releaseAll r' ids n) := by
  induction ids generalizing r' with
  | nil => exact h
  | cons a rest ih =>
    obtain ⟨ha, hrest⟩ := List.nodup_cons.1 hnodup
    exact ih (h.release ha hn hused) hrest

/-- Becoming a user of a binding that is there. -/
theorem join (h : Taken n ids r₀ r) (id : BindingId) (hid : (r.get? id).isSome) :
    Taken n (id :: ids) r₀
      (r.modify id fun b => { b with consumers := b.consumers.insert n }) := by
  refine ⟨fun i c hc => ?_, fun i c hc hnone => ?_, fun i m => ?_, h.fresh.modify _⟩
  · obtain ⟨c', hc', hcb, hcc⟩ := h.old i c hc
    rw [get?_modify, hc']
    split
    · exact ⟨_, rfl, hcb, hcc⟩
    · exact ⟨c', rfl, hcb, hcc⟩
  · rw [get?_modify] at hc
    split at hc
    next hi =>
      obtain ⟨c', hc', rfl⟩ := Option.map_eq_some_iff.1 hc
      exact ⟨(h.new i c' hc' hnone).1, hi ▸ List.mem_cons_self⟩
    next => exact ⟨(h.new i c hc hnone).1, List.mem_cons_of_mem _ (h.new i c hc hnone).2⟩
  · rw [serves_join hid, h.serves, List.mem_cons, or_assoc]
    grind

/-- Making a binding. -/
theorem add (h : Taken n ids r₀ r) {b : Binding} (hcache : b.cache = ∅)
    (hconsumers : ∀ m, m ∈ b.consumers ↔ m = n) : Taken n (r.nextId :: ids) r₀ (r.add b).2 := by
  have hid := h.fresh.get?_nextId
  refine ⟨fun i c hc => ?_, fun i c hc hi => ?_, fun i m => ?_, h.fresh.add _⟩
  · obtain ⟨c', hc', hrest⟩ := h.old i c hc
    refine ⟨c', ?_, hrest⟩
    rw [get?_add, if_neg, hc']
    rintro rfl
    simp [hid] at hc'
  · rw [get?_add] at hc
    split at hc
    next hi' =>
      obtain rfl := Option.some.inj hc
      exact ⟨hcache, hi' ▸ List.mem_cons_self⟩
    next => exact ⟨(h.new i c hc hi).1, List.mem_cons_of_mem _ (h.new i c hc hi).2⟩
  · rw [serves_add h.fresh, hconsumers, h.serves, List.mem_cons, or_assoc]
    grind

/-- Taking one more binding, which is a new one if there is none for the selector at the base. -/
theorem acquire (h : Taken n ids r₀ r) {word : String} {isNew : Bool}
    (hacquire : r.acquire t word n n = .ok ((id, isNew), r')) : Taken n (id :: ids) r₀ r' := by
  obtain ⟨s, -, ⟨-, hlookup, rfl⟩ | ⟨-, -, rfl, rfl⟩⟩ := acquire_ok hacquire
  · obtain ⟨b, hb, -⟩ := of_lookup?_eq_some hlookup
    exact h.join id (by rw [hb]; rfl)
  · exact h.add rfl fun m => by simp [@eq_comm _ n m]

end Registry.Taken

namespace Registry.Right

theorem of_bound? (h : r.Right t) (hsub : ∀ id d, r'.bound? id = some d → r.bound? id = some d) :
    r'.Right t where
  bound id d hd := h.bound id d (hsub id d hd)
  key id id' d d' hd hd' := h.key id id' d d' (hsub id d hd) (hsub id' d' hd')

/-- Matched with the tree again, a binding stands for what its selector does. -/
theorem mem_fresh_fromScratch (h : r.Right t) (ht : t.Keyed) {b : Binding} (hb : r.get? id = some b) :
    m ∈ b.fresh t .fromScratch ↔ t.Matches b.selector b.base m := by
  have hright : b.bound.Right t := h.bound id _ (by rw [Registry.bound?, hb, Option.map_some])
  have hpattern : b.selector.pattern ≠ [] := Selector.pattern_ne_nil hright.parsed
  rw [← Selector.mem_fieldsBelow ht hpattern]
  simp [Binding.fresh]

/-- A binding accepts by their paths the fields that its selector stands for. -/
theorem accepts_iff (h : r.Right t) {b : Binding} (hb : r.get? id = some b) :
    b.accepts t m = true ↔ t.Matches b.selector b.base m := by
  have hright : b.bound.Right t := h.bound id _ (by rw [Registry.bound?, hb, Option.map_some])
  obtain ⟨p, hp, hlive, hpath⟩ := hright.placed
  have hp' : t.place? b.base = some p := hp
  have hpath' : b.basePath = p.path := hpath
  rw [← Selector.accepts_iff hp' hlive, Binding.accepts, hpath']

/-- A binding of which there is none yet may be made. -/
theorem add (h : r.Right t) {b : Binding} (hright : b.bound.Right t)
    (hkey : r.lookup? b.selector.source b.basePath = none) : (r.add b).2.Right t := by
  have hbound (i : BindingId) : (r.add b).2.bound? i =
      if i = r.nextId then some b.bound else r.bound? i := by
    rw [Registry.bound?, get?_add]
    split <;> rfl
  have hother {i : BindingId} {d : Bound} (hd : r.bound? i = some d) :
      ¬ (d.selector.source = b.bound.selector.source ∧ d.basePath = b.bound.basePath) := by
    obtain ⟨c, hc, rfl⟩ := Option.map_eq_some_iff.1 hd
    exact lookup?_eq_none.1 hkey i c hc
  refine ⟨fun i d hd => ?_, fun i i' d d' hd hd' hsource hbase => ?_⟩
  · rw [hbound] at hd
    split at hd
    · obtain rfl := Option.some.inj hd
      exact hright
    · exact h.bound i d hd
  · rw [hbound] at hd hd'
    split at hd
    next hi =>
      obtain rfl := Option.some.inj hd
      split at hd'
      next hi' => rw [hi, hi']
      next => exact absurd ⟨hsource.symm, hbase.symm⟩ (hother hd')
    next =>
      split at hd'
      next =>
        obtain rfl := Option.some.inj hd'
        exact absurd ⟨hsource, hbase⟩ (hother hd)
      next => exact h.key i i' d d' hd hd' hsource hbase

/-- The binding that a word is bound by at a live node is the one that the word means. -/
theorem acquire (h : r.Right t) (ht : t.Keyed) {q : Place} (hq : t.place? n = some q)
    (hlive : q.inTemplate = false) {word : String} {isNew : Bool}
    (hacquire : r.acquire t word n n = .ok ((id, isNew), r')) :
    r'.Right t ∧ ∃ d, r'.bound? id = some d ∧ Selector.parse word = .ok d.selector ∧
      d.base = d.selector.base t n := by
  obtain ⟨s, hparse, hcases⟩ := acquire_ok hacquire
  have hsource := Selector.source_of_parse hparse
  obtain ⟨p, hp, hplive⟩ := FieldTree.exists_place?_base ht s hq hlive
  have hpath : t.path (s.base t n) = p.path := FieldTree.path_of_place? hp
  rcases hcases with ⟨-, hlookup, rfl⟩ | ⟨-, hlookup, rfl, rfl⟩
  · obtain ⟨b, hb, hword, hbase⟩ := of_lookup?_eq_some hlookup
    have hd : r.bound? id = some b.bound := by rw [Registry.bound?, hb, Option.map_some]
    obtain ⟨hbparsed, p', hp', -, hbp'⟩ := h.bound id _ hd
    have hsame : b.bound.selector = s := by
      have hsel : b.bound.selector.source = word := hword
      rw [hsel, hparse] at hbparsed
      exact (Except.ok.inj hbparsed).symm
    refine ⟨h.of_bound? fun i d hd => ?_, b.bound, ?_, by rw [hsame, hparse], ?_⟩
    · rwa [bound?_join] at hd
    · rw [bound?_join, hd]
    · have hbase' : p'.path = p.path := by
        rw [← hbp', ← hpath]
        exact hbase
      rw [hsame]
      exact FieldTree.eq_of_path_eq ht hp' hp hbase'
  · let b : Binding :=
      { selector := s, base := s.base t n, basePath := t.path (s.base t n), consumers := {n} }
    have hright : b.bound.Right t :=
      ⟨(congrArg Selector.parse hsource).trans hparse, p, hp, hplive, hpath⟩
    have hkey : r.lookup? b.selector.source b.basePath = none := by
      rw [← hlookup, ← hsource]
    exact ⟨h.add hright hkey, b.bound, bound?_add r b, hparse, rfl⟩

end Registry.Right

/-- What can be wrong with the words of a formula. -/
def FormError.IsOfFormula : FormError → Prop
  | invalidSelector .. | unknownOperator .. | emptyFormula .. => True
  | _ => False

theorem FormError.IsOfFormula.ne_duplicateKey {e : FormError} (h : e.IsOfFormula) (path : Path) (key : Step) :
    e ≠ .duplicateKey path key := by
  rintro rfl
  exact h

theorem FormError.IsOfFormula.ne_cycle {e : FormError} (h : e.IsOfFormula) (paths : List Path) : e ≠ .cycle paths := by
  rintro rfl
  exact h

namespace Formula

/-- Reading the words behind the operator. -/
theorem parseArgs_spec (hn : ∀ id, ¬ r₀.Serves id n)
    (hused : ∀ id b, r₀.get? id = some b → ∃ m, m ∈ b.consumers) (words : List String)
    (read : List Argument) (h : Registry.Taken n (bindingsOf read) r₀ r) :
    Ends (parseArgs t n read words r)
      (fun args r' => Registry.Taken n (bindingsOf args) r₀ r')
      (fun e r' => r'.bindings = r₀.bindings ∧ r'.Fresh ∧ e.IsOfFormula ∧
        ∃ word ∈ words, Selector.isSelectorWord word = true ∧ ∀ s, Selector.parse word ≠ .ok s) := by
  induction words generalizing read r with
  | nil => exact h
  | cons word words ih =>
    unfold parseArgs
    by_cases hword : Selector.isSelectorWord word
    · simp only [hword, if_true]
      cases hacquire : r.acquire t word n n with
      | error e =>
        have hback := h.releaseAll (nodup_eraseDups _) hn hused
        obtain ⟨fault, hparse, rfl⟩ := Registry.acquire_error hacquire
        refine ⟨hback.bindings_eq, hback.fresh, trivial, word, List.mem_cons_self, hword, fun s hs => ?_⟩
        simp [hparse] at hs
      | ok result =>
        obtain ⟨⟨id, isNew⟩, r'⟩ := result
        have htaken : Registry.Taken n (bindingsOf (read ++ [.selector id])) r₀ r' :=
          (h.acquire hacquire).congr fun i => by simp [mem_bindingsOf, or_comm]
        refine (ih _ htaken).mono (fun _ _ hargs => hargs) ?_
        rintro e r'' ⟨hbindings, hfresh, he, other, hother, hbad⟩
        exact ⟨hbindings, hfresh, he, other, List.mem_cons_of_mem _ hother, hbad⟩
    · simp only [hword]
      have htaken : Registry.Taken n (bindingsOf (read ++ [.literal (.ofLiteral word)])) r₀ r :=
        h.congr fun i => by simp [mem_bindingsOf]
      refine (ih _ htaken).mono (fun _ _ hargs => hargs) ?_
      rintro e r'' ⟨hbindings, hfresh, he, other, hother, hbad⟩
      exact ⟨hbindings, hfresh, he, other, List.mem_cons_of_mem _ hother, hbad⟩

/-- The arguments that are read at a live node are what the words mean there. -/
theorem parseArgs_right (ht : t.Keyed) {q : Place} (hq : t.place? n = some q)
    (hlive : q.inTemplate = false) (words : List String) (read : List Argument) (h : r.Right t)
    (hfresh : r.Fresh) : Ends (parseArgs t n read words r)
      (fun args r' => r'.Right t ∧ (∀ id d, r.bound? id = some d → r'.bound? id = some d) ∧
        ∃ rest, args = read ++ rest ∧ List.Forall₂ (ReadAs t r' n) words rest)
      (fun _ _ => True) := by
  induction words generalizing read r with
  | nil => exact ⟨h, fun _ _ hd => hd, [], by simp, .nil⟩
  | cons word words ih =>
    unfold parseArgs
    by_cases hword : Selector.isSelectorWord word
    · simp only [hword, if_true]
      cases hacquire : r.acquire t word n n with
      | error e => trivial
      | ok result =>
        obtain ⟨⟨id, isNew⟩, r'⟩ := result
        obtain ⟨hright, d, hd, hparse, hbase⟩ := h.acquire ht hq hlive hacquire
        have htaken := (Registry.Taken.refl (n := n) hfresh).acquire hacquire
        refine (ih _ hright htaken.fresh).mono ?_ fun _ _ _ => trivial
        rintro args r'' ⟨hright', hmono, rest, rfl, hrest⟩
        refine ⟨hright', fun i c hc => hmono i c (htaken.bound? hc), .selector id :: rest, by simp,
          .cons ?_ hrest⟩
        unfold ReadAs
        rw [if_pos hword]
        exact ⟨id, d, rfl, hmono id d hd, hparse, hbase⟩
    · simp only [hword]
      refine (ih _ h hfresh).mono ?_ fun _ _ _ => trivial
      rintro args r'' ⟨hright', hmono, rest, rfl, hrest⟩
      refine ⟨hright', hmono, .literal (.ofLiteral word) :: rest, by simp, .cons ?_ hrest⟩
      unfold ReadAs
      rw [if_neg hword]

/-- The bindings that are made when arguments are read are new ones. -/
theorem parseArgs_newerThan {k : Nat} (words : List String) (read : List Argument) (h : r.NewerThan k) :
    Ends (parseArgs t n read words r) (fun _ r' => r'.NewerThan k) (fun _ _ => True) := by
  induction words generalizing read r with
  | nil => exact h
  | cons word words ih =>
    unfold parseArgs
    by_cases hword : Selector.isSelectorWord word
    · simp only [hword, if_true]
      cases hacquire : r.acquire t word n n with
      | error e => trivial
      | ok result => exact ih _ (h.acquire hacquire)
    · simp only [hword]
      exact ih _ h

/-- The bindings that are made when a formula is read are new ones. -/
theorem parse_newerThan {k : Nat} (h : r.NewerThan k) (expression : String) :
    Ends (parse t n expression r) (fun _ r' => r'.NewerThan k) (fun _ _ => True) := by
  unfold parse
  cases Text.words expression with
  | nil => trivial
  | cons name words =>
    dsimp only
    cases Operator.ofName? name with
    | none => trivial
    | some operator =>
      refine Ends.bind ((parseArgs_newerThan words [] h).mono ?_ fun _ _ _ => trivial)
      exact fun args r' hr' => Ends.pure hr'

/-- Reading an expression as the formula of a node. -/
theorem parse_spec (hfresh : r.Fresh) (hn : ∀ id, ¬ r.Serves id n)
    (hused : ∀ id b, r.get? id = some b → ∃ m, m ∈ b.consumers) (expression : String) :
    Ends (parse t n expression r)
      (fun F r' => F.anchor = n ∧ Registry.Taken n F.bindings r r')
      (fun e r' => r'.bindings = r.bindings ∧ r'.Fresh ∧ e.IsOfFormula ∧
        ¬ Readable expression) := by
  unfold parse
  cases hwords : Text.words expression with
  | nil =>
    refine ⟨rfl, hfresh, trivial, ?_⟩
    rintro ⟨name, words, operator, h, -⟩
    simp [hwords] at h
  | cons name words =>
    dsimp only
    cases hop : Operator.ofName? name with
    | none =>
      refine ⟨rfl, hfresh, trivial, ?_⟩
      rintro ⟨name', words', operator, h, hop', -⟩
      rw [hwords] at h
      obtain ⟨rfl, -⟩ := List.cons.inj h
      simp [hop] at hop'
    | some operator =>
      refine Ends.bind ((parseArgs_spec hn hused words [] (.refl hfresh)).mono ?_ ?_)
      · exact fun args r' htaken => Ends.pure ⟨rfl, htaken⟩
      · rintro e r' ⟨hbindings, hfresh', he, word, hword, hsel, hbad⟩
        refine ⟨hbindings, hfresh', he, ?_⟩
        rintro ⟨name', words', operator', h, -, hall⟩
        rw [hwords] at h
        obtain ⟨-, rfl⟩ := List.cons.inj h
        obtain ⟨s, hs⟩ := hall word hword hsel
        exact hbad s hs

/-- A formula that is read at a live node is what the expression means there. -/
theorem parse_right (ht : t.Keyed) {q : Place} (hq : t.place? n = some q)
    (hlive : q.inTemplate = false) (h : r.Right t) (hfresh : r.Fresh) (expression : String) :
    Ends (parse t n expression r) (fun F r' => r'.Right t ∧ F.Reads t r' n expression)
      (fun _ _ => True) := by
  unfold parse
  cases hwords : Text.words expression with
  | nil => trivial
  | cons name words =>
    dsimp only
    cases hop : Operator.ofName? name with
    | none => trivial
    | some operator =>
      refine Ends.bind ((parseArgs_right ht hq hlive words [] h hfresh).mono ?_ fun _ _ _ => trivial)
      rintro args r' ⟨hright, -, rest, rfl, hrest⟩
      exact Ends.pure ⟨hright, rfl, rfl, name, words, hwords, hop, hrest⟩

end Formula

end LiveForm
