import LiveForm.Proofs.Formula.Reading
import Mathlib.Logic.Relation

/-!
# What a tree says about dependencies

The formulas of a tree name the fields that they read by selectors, so the tree alone says which formula reads which
field. The bindings of a formula stand for the selectors in its expression one by one.
-/

set_option autoImplicit false

namespace LiveForm

theorem map_eraseDups {α β : Type} [BEq α] [LawfulBEq α] [BEq β] [LawfulBEq β] {g : α → β} {l : List α}
    (hinj : ∀ a ∈ l, ∀ b ∈ l, g a = g b → a = b) : l.eraseDups.map g = (l.map g).eraseDups := by
  induction hn : l.length using Nat.strongRecOn generalizing l with
  | ind n ih =>
    cases l with
    | nil => simp
    | cons a rest =>
      have hlt : (rest.filter fun c => !c == a).length < n := by
        have hle := List.length_filter_le (fun c => !c == a) rest
        simp only [List.length_cons] at hn
        omega
      have hrest : ∀ c ∈ rest.filter (fun c => !c == a), c ∈ a :: rest := fun c hc =>
        List.mem_cons_of_mem _ (List.mem_of_mem_filter hc)
      have hfilter : (rest.filter fun c => !c == a).map g = (rest.map g).filter fun c => !c == g a := by
        rw [List.filter_map]
        congr 1
        refine List.filter_congr fun c hc => ?_
        have hiff : c = a ↔ g c = g a :=
          ⟨fun h => h ▸ rfl, hinj c (List.mem_cons_of_mem _ hc) a List.mem_cons_self⟩
        by_cases hca : c = a
        · simp [hca]
        · have hga : g c ≠ g a := fun h => hca (hiff.2 h)
          simp [hca, hga]
      rw [List.map_cons, List.eraseDups_cons, List.eraseDups_cons, List.map_cons,
        ih _ hlt (fun b hb c hc => hinj b (hrest b hb) c (hrest c hc)) rfl, hfilter]

namespace FieldTree

variable {t t' : FieldTree} {n m c : NodeId} {expression : String} {s : Selector} {base : NodeId}

/-- The selectors in an expression with the nodes that they are applied to, each one once, in the order of the words. -/
def selections (t : FieldTree) (n : NodeId) (expression : String) : List (Selector × NodeId) :=
  ((Text.words expression).tail.filterMap fun word =>
    if Selector.isSelectorWord word then
      match Selector.parse word with
      | .ok s => some (s, s.base t n)
      | .error _ => none
    else none).eraseDups

theorem mem_selections : (s, base) ∈ t.selections n expression ↔ t.Selects n expression s base := by
  unfold selections Selects
  rw [List.mem_eraseDups, List.mem_filterMap]
  constructor
  · rintro ⟨word, hword, hsome⟩
    cases hwords : Text.words expression with
    | nil => simp [hwords] at hword
    | cons name words =>
      rw [hwords, List.tail_cons] at hword
      split at hsome
      next hsel =>
        split at hsome
        next s' hparse =>
          simp only [Option.some.injEq, Prod.mk.injEq] at hsome
          obtain ⟨rfl, rfl⟩ := hsome
          exact ⟨name, words, rfl, word, hword, hsel, hparse, rfl⟩
        · simp at hsome
      · simp at hsome
  · rintro ⟨name, words, hwords, word, hword, hsel, hparse, rfl⟩
    exact ⟨word, by rw [hwords]; exact hword, by rw [if_pos hsel, hparse]⟩

/-- The selections of the formula of a node outside templates. -/
def selectionsAt (t : FieldTree) (n : NodeId) : List (Selector × NodeId) :=
  match t.place? n with
  | none => []
  | some q => if q.inTemplate then [] else (q.node.formula.map (t.selections n)).getD []

/-- The formula of the second node reads the first one, as the tree has it. -/
def Feeds (t : FieldTree) (m c : NodeId) : Prop :=
  ∃ s base, (s, base) ∈ t.selectionsAt c ∧ t.Matches s base m

/-- No formula of the tree depends on itself. -/
def Acyclic (t : FieldTree) : Prop :=
  ∀ n, ¬ Relation.TransGen t.Feeds n n

theorem selections_congr
    (h : (t'.place? n).bind Place.parent = (t.place? n).bind Place.parent) :
    t'.selections n expression = t.selections n expression := by
  unfold selections
  congr 2
  funext word
  split
  · split
    · rw [base_eq, base_eq, h]
    · rfl
  · rfl

end FieldTree

/-- Bindings with the same selector and the same base are the same. -/
theorem Registry.Right.eq_of_bound {t : FieldTree} {r : Registry} (h : r.Right t) {id id' : BindingId}
    {d d' : Bound} (hd : r.bound? id = some d) (hd' : r.bound? id' = some d') (hselector : d.selector = d'.selector)
    (hbase : d.base = d'.base) : id = id' := by
  obtain ⟨p, hp, -, hpath⟩ := (h.bound id d hd).placed
  obtain ⟨p', hp', -, hpath'⟩ := (h.bound id' d' hd').placed
  rw [hbase] at hp
  obtain rfl := Option.some.inj (hp.symm.trans hp')
  exact h.key id id' d d' hd hd' (by rw [hselector]) (by rw [hpath, hpath'])

namespace Formula.Reads

variable {t : FieldTree} {r : Registry} {n : NodeId} {expression : String} {F : Formula}

/-- The bindings of a formula are bound to the selections of its expression. -/
theorem map_bindings (h : F.Reads t r n expression) (hright : r.Right t) :
    F.bindings.map (fun id => (r.bound? id).map fun d => (d.selector, d.base)) =
      (t.selections n expression).map some := by
  obtain ⟨name, words, hwords, -, hargs⟩ := h.words
  unfold bindings bindingsOf FieldTree.selections
  rw [hwords, List.tail_cons, map_eraseDups, map_eraseDups]
  · congr 1
    clear hwords
    generalize F.args = args at hargs
    induction hargs with
    | nil => rfl
    | @cons word arg words args harg _ ih =>
      unfold ReadAs at harg
      split at harg
      next hword =>
        obtain ⟨id, d, rfl, hd, hparse, hbase⟩ := harg
        simp only [List.filterMap_cons, List.map_cons, hword, if_true, hparse, hd, Option.map_some, ih, hbase]
      next hword =>
        subst harg
        simp only [List.filterMap_cons, hword, ih]
        rfl
  · intro a _ b _ hab
    exact Option.some.inj hab
  · intro a ha b hb hab
    obtain ⟨d, hd, -⟩ := h.bound_of_mem (List.mem_eraseDups.2 ha)
    obtain ⟨d', hd', -⟩ := h.bound_of_mem (List.mem_eraseDups.2 hb)
    simp only [hd, hd', Option.map_some, Option.some.injEq, Prod.mk.injEq] at hab
    exact hright.eq_of_bound hd hd' hab.1 hab.2

end Formula.Reads

end LiveForm
