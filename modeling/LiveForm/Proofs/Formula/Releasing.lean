import LiveForm.Proofs.Formula.Reading
import LiveForm.Proofs.Registry.Bookkeeping
import Mathlib

/-!
# Formulas that are given up again

Reading a formula makes its node a user of the bindings of its selectors, however often the expression names each of them
and whether they are there already or not. If reading fails, or if the formula is released again, no trace is left: all
bindings are what they were, with their keys, their users and their caches.
-/

set_option autoImplicit false

namespace LiveForm

variable {t : FieldTree} {r r' r₀ : Registry} {n c : NodeId} {id : BindingId}

namespace Registry

/-- The binding that a selector stands for at a node. -/
def bindingOf? (r : Registry) (t : FieldTree) (n : NodeId) (word : String) : Option BindingId :=
  match Selector.parse word with
  | .ok s => r.lookup? word (t.path (s.base t n))
  | .error _ => none

variable {word : String} {isNew : Bool}

/-- A binding that is acquired is found afterwards, as are all those that were found before. -/
theorem Sound.bindingOf?_acquire (h : r.Sound) (hacquire : r.acquire t word n c = .ok ((id, isNew), r')) :
    r'.bindingOf? t n word = some id ∧
      ∀ other i, r.bindingOf? t n other = some i → r'.bindingOf? t n other = some i := by
  obtain ⟨⟨s, hparse, hid⟩, hmono⟩ := h.lookup?_acquire hacquire
  refine ⟨by simp only [bindingOf?, hparse, hid], fun other i hi => ?_⟩
  unfold bindingOf? at hi ⊢
  cases hother : Selector.parse other with
  | error fault => simp [hother] at hi
  | ok s' =>
    simp only [hother] at hi ⊢
    exact hmono other _ i hi

namespace Taken

variable {ids : List BindingId} {b : Binding}

/-- A binding that was there has got the node as a user, if at all. -/
theorem get?_old (h : Taken n ids r r') (hb : r.get? id = some b) :
    r'.get? id = some (if id ∈ ids then { b with consumers := b.consumers.insert n } else b) := by
  obtain ⟨b', hb', hbound, hcache⟩ := h.old id b hb
  have hmem (m : NodeId) : m ∈ b'.consumers ↔ m ∈ b.consumers ∨ (m = n ∧ id ∈ ids) := by
    simpa [Serves, hb, hb'] using h.serves id m
  rw [hb']
  refine congrArg some (Binding.eq_of_bound ?_ ?_ ?_) <;> split
  · exact hbound
  · exact hbound
  · simp [hcache]
  · simp [hcache]
  next hid => simp [hmem, hid, or_comm, @eq_comm _ n]
  next hid => simp [hmem, hid]

/-- A new binding has the node as its only user. -/
theorem get?_new (h : Taken n ids r r') (hnone : r.get? id = none) (hb : r'.get? id = some b) :
    id ∈ ids ∧ b.cache = ∅ ∧ b.consumers = {n} := by
  obtain ⟨hcache, hid⟩ := h.new id b hb hnone
  have hmem (m : NodeId) : m ∈ b.consumers ↔ m = n := by
    simpa [Serves, hnone, hb, hid] using h.serves id m
  exact ⟨hid, hcache, Std.ExtTreeSet.ext_mem fun m => by simp [hmem, @eq_comm _ n]⟩

/-- What the node takes along when it leaves is new: any other binding has another user. -/
theorem isSome_fst_release (h : Taken n ids r r') (hr : r.Sound) (hr' : r'.Sound) (hn : ∀ id, ¬ r.Serves id n)
    (hb : r'.get? id = some b) : (r'.release id n).1.isSome ↔ r.get? id = none := by
  rw [hr'.isSome_fst_release hb]
  cases hb₀ : r.get? id with
  | none => simp [(h.get?_new hb₀ hb).2.2, @eq_comm _ n]
  | some b₀ =>
    obtain ⟨m, hm⟩ := hr.used id b₀ hb₀
    have hserves : r'.Serves id m := (h.serves id m).2 (.inl ⟨b₀, hb₀, hm⟩)
    obtain ⟨b', hb', hm'⟩ := hserves
    obtain rfl := Option.some.inj (hb.symm.trans hb')
    simp only [reduceCtorEq, iff_false]
    intro hall
    obtain rfl := (hall m).1 hm'
    exact hn id ⟨b₀, hb₀, hm⟩

end Taken

end Registry

namespace Formula

/-- The words of an expression that are selectors. -/
def selectorWords (expression : String) : List String :=
  (Text.words expression).tail.filter Selector.isSelectorWord

/-- Reading a formula has made its node a user of the bindings of its selectors, and of no others. Apart from that nothing
has changed, but that some of the bindings are new; and if the formula is released, all is as it was. -/
structure Takes (t : FieldTree) (n : NodeId) (expression : String) (r : Registry) (F : Formula) (r' : Registry) :
    Prop where
  bound : ∀ word ∈ selectorWords expression, ∃ id, r'.bindingOf? t n word = some id
  users : ∀ id, r'.Serves id n ↔ ∃ word ∈ selectorWords expression, r'.bindingOf? t n word = some id
  bindings : ∀ id, id ∈ F.bindings ↔ r'.Serves id n
  old : ∀ id b, r.get? id = some b →
    r'.get? id = some (if id ∈ F.bindings then { b with consumers := b.consumers.insert n } else b)
  new : ∀ id b, r.get? id = none → r'.get? id = some b → id ∈ F.bindings ∧ b.cache = ∅ ∧ b.consumers = {n}
  /-- The bindings that are dropped are the new ones. -/
  dropped : (F.release r').1.Nodup ∧ ∀ id, id ∈ (F.release r').1 ↔ r.get? id = none ∧ ∃ b, r'.get? id = some b
  restored : (F.release r').2.bindings = r.bindings

/-- The arguments that are read name the bindings of the selectors among the words. -/
theorem parseArgs_finds (words : List String) (read : List Argument) (h : r.Sound) : Ends (parseArgs t n read words r)
    (fun args r' => r'.Sound ∧ (∀ word i, r.bindingOf? t n word = some i → r'.bindingOf? t n word = some i) ∧
      (∀ word ∈ words.filter Selector.isSelectorWord, ∃ i, r'.bindingOf? t n word = some i) ∧
      ∀ i, .selector i ∈ args ↔ .selector i ∈ read ∨
        ∃ word ∈ words.filter Selector.isSelectorWord, r'.bindingOf? t n word = some i)
    (fun _ _ => True) := by
  induction words generalizing read r with
  | nil => exact ⟨h, fun _ _ hi => hi, by simp, by simp⟩
  | cons word words ih =>
    unfold parseArgs
    by_cases hword : Selector.isSelectorWord word
    · simp only [hword, if_true]
      cases hacquire : r.acquire t word n n with
      | error e => trivial
      | ok result =>
        obtain ⟨⟨id, isNew⟩, r₁⟩ := result
        obtain ⟨hid, hmono⟩ := h.bindingOf?_acquire hacquire
        refine (ih (read ++ [.selector id]) (h.acquire hacquire)).mono ?_ fun _ _ _ => trivial
        rintro args r₂ ⟨hsound, hmono₂, hall, hargs⟩
        have hid₂ := hmono₂ word id hid
        refine ⟨hsound, fun other i hi => hmono₂ other i (hmono other i hi), ?_, fun i => ?_⟩
        · rw [List.filter_cons_of_pos hword, List.forall_mem_cons]
          exact ⟨⟨id, hid₂⟩, hall⟩
        · rw [hargs, List.filter_cons_of_pos hword]
          simp [hid₂, or_assoc, @eq_comm _ id i]
    · simp only [hword]
      refine (ih (read ++ [.literal (.ofLiteral word)]) h).mono ?_ fun _ _ _ => trivial
      rintro args r₂ ⟨hsound, hmono₂, hall, hargs⟩
      rw [List.filter_cons_of_neg hword]
      exact ⟨hsound, hmono₂, hall, fun i => (hargs i).trans (by simp)⟩

theorem parse_finds (h : r.Sound) (expression : String) : Ends (parse t n expression r)
    (fun F r' => r'.Sound ∧ (∀ word ∈ selectorWords expression, ∃ i, r'.bindingOf? t n word = some i) ∧
      ∀ i, i ∈ F.bindings ↔ ∃ word ∈ selectorWords expression, r'.bindingOf? t n word = some i)
    (fun _ _ => True) := by
  unfold parse selectorWords
  cases Text.words expression with
  | nil => trivial
  | cons name words =>
    dsimp only
    cases Operator.ofName? name with
    | none => trivial
    | some operator =>
      refine Ends.bind ((parseArgs_finds words [] h).mono ?_ fun _ _ _ => trivial)
      rintro args r' ⟨hsound, -, hall, hargs⟩
      exact Ends.pure ⟨hsound, hall, fun i => mem_bindings.trans ((hargs i).trans (by simp))⟩

/-- Reading a formula leaves no trace unless the formula is kept. -/
theorem parse_takes (h : r.Sound) (hn : ∀ id, ¬ r.Serves id n) (t : FieldTree) (expression : String) :
    Ends (parse t n expression r) (Takes t n expression r) (fun _ r' => r'.bindings = r.bindings) := by
  refine ((parse_spec h.fresh hn h.used expression).and (parse_finds h expression)).mono ?_ fun _ _ hfailed => hfailed.1.1
  rintro F r' ⟨⟨rfl, htaken⟩, hsound, hall, hbindings⟩
  have husers (id : BindingId) : r'.Serves id F.anchor ↔ id ∈ F.bindings :=
    (htaken.serves id F.anchor).trans (by simp [hn])
  exact {
    bound := hall
    users := fun id => (husers id).trans (hbindings id)
    bindings := fun id => (husers id).symm
    old := fun id b hb => htaken.get?_old hb
    new := fun id b hnone hb => htaken.get?_new hnone hb
    dropped := by
      refine ⟨F.nodup_bindings.filter _, fun id => ?_⟩
      have hmem : id ∈ (F.release r').1 ↔ id ∈ F.bindings ∧ (r'.release id F.anchor).1.isSome := List.mem_filter
      rw [hmem]
      constructor
      · rintro ⟨hid, hsome⟩
        obtain ⟨b, hb, -⟩ := (husers id).2 hid
        exact ⟨(htaken.isSome_fst_release h hsound hn hb).1 hsome, b, hb⟩
      · rintro ⟨hnone, b, hb⟩
        exact ⟨(htaken.get?_new hnone hb).1, (htaken.isSome_fst_release h hsound hn hb).2 hnone⟩
    restored := (htaken.releaseAll F.nodup_bindings hn h.used).bindings_eq }

/-- A registry in which node 2 uses a selector. -/
def oneUser : Registry :=
  (({} : Registry).add
    { selector := ⟨"/a", false, [.name "a"]⟩, base := rootId, basePath := .root, consumers := {2} }).2

/-- Node 3 joins the binding and makes another one, unless its last selector cannot be read. -/
theorem parse_takes_oneUser :
    (∃ F r', parse {} 3 "sum /a /b /a" oneUser = .ok F r' ∧ Takes {} 3 "sum /a /b /a" oneUser F r') ∧
      ∃ e r', parse {} 3 "sum /a /b /a[" oneUser = .error e r' ∧ r'.bindings = oneUser.bindings := by
  have hempty : ({} : Registry).Sound := Ledger.balanced_empty.sound
  have hnone (id : BindingId) : ({} : Registry).get? id = none := by simp [Registry.get?]
  have hsound : oneUser.Sound := hempty.add (by rfl) ⟨2, by simp⟩
  have hidle (id : BindingId) : ¬ oneUser.Serves id 3 := by
    unfold oneUser
    rw [Registry.serves_add hempty.fresh]
    simp [Registry.Serves, hnone]
  constructor
  · have hends := parse_takes hsound hidle {} "sum /a /b /a"
    have hsucceeds : succeeds (parse {} 3 "sum /a /b /a" oneUser) = true := by cbv
    obtain ⟨F, r', hparse⟩ := exists_ok_of_succeeds hsucceeds
    exact ⟨F, r', hparse, hends.of_ok hparse⟩
  · have hends := parse_takes hsound hidle {} "sum /a /b /a["
    have hfails : succeeds (parse {} 3 "sum /a /b /a[" oneUser) = false := by cbv
    obtain ⟨e, r', hparse⟩ := exists_error_of_fails hfails
    exact ⟨e, r', hparse, hends.of_error hparse⟩

end Formula

end LiveForm
