import LiveForm.Proofs.Formula.Values
import Mathlib

/-!
# Where formulas have values

For each loop of an operator, which terms it gets through. A term that is missing stops all of them but one:
the count of pairs does not look at the second of two terms if the first one differs from what is counted. So
a formula has no value where an argument is indeterminate, other than by that.
-/

set_option autoImplicit false

namespace LiveForm

section Loops

variable {terms : List Term} {pairs : List (Term × Term)}

theorem isSome_sumFrom {total : Number} {counts : Bool} : (sumFrom total counts terms).isSome ↔
    ∀ term ∈ terms, (Term.bool? term).isSome ∨ (Term.number? term).isSome := by
  induction terms generalizing total counts with
  | nil => simp [sumFrom]
  | cons term rest ih =>
    rw [List.forall_mem_cons, sumFrom]
    cases hbool : Term.bool? term with
    | some toggle => simp [ih]
    | none =>
      cases hnumber : Term.number? term with
      | some n => simp [ih]
      | none => simp

theorem isSome_productFrom {product : Number} :
    (productFrom product terms).isSome ↔ ∀ term ∈ terms, (Term.number? term).isSome := by
  induction terms generalizing product with
  | nil => simp [productFrom]
  | cons term rest ih =>
    rw [List.forall_mem_cons, productFrom]
    cases hnumber : Term.number? term with
    | some n => simp [ih]
    | none => simp

theorem isSome_conditionalSumFrom {factor total : Number} : (conditionalSumFrom factor total pairs).isSome ↔
    ∀ pair ∈ pairs, (Term.bool? pair.1).isSome ∧ (Term.number? pair.2).isSome := by
  induction pairs generalizing total with
  | nil => simp [conditionalSumFrom]
  | cons pair rest ih =>
    obtain ⟨condition, value⟩ := pair
    rw [List.forall_mem_cons, conditionalSumFrom]
    cases hbool : Term.bool? condition with
    | none => simp
    | some holds =>
      cases hnumber : Term.number? value with
      | some n => simp [ih]
      | none => simp

/-- Of two terms side by side, the second one may be missing where the first one is not what is counted. -/
theorem isSome_countPairsFrom {first second : Value} {count : Nat} :
    (countPairsFrom first second count pairs).isSome ↔
      ∀ pair ∈ pairs, ∃ a, pair.1 = some a ∧ (pair.2 = none → (a == first) = false) := by
  induction pairs generalizing count with
  | nil => simp [countPairsFrom]
  | cons pair rest ih =>
    obtain ⟨a, b⟩ := pair
    rw [List.forall_mem_cons]
    cases a with
    | none => simp [countPairsFrom]
    | some a =>
      rw [countPairsFrom.eq_def]
      dsimp only
      cases ha : a == first with
      | false => simp [ih, ha]
      | true =>
        cases b with
        | none => simp [ha]
        | some b => simp [ih]

/-- Two columns side by side are the list that holds the one behind the other. -/
theorem columns?_eq_some : columns? terms = some pairs ↔ pairs.map Prod.fst ++ pairs.map Prod.snd = terms := by
  unfold columns?
  constructor
  · intro h
    split at h
    next heven =>
      obtain rfl := Option.some.inj h
      have hhalves : (terms.take (terms.length / 2)).length = (terms.drop (terms.length / 2)).length := by
        rw [List.length_take, List.length_drop]
        omega
      rw [List.map_fst_zip (Nat.le_of_eq hhalves), List.map_snd_zip (Nat.le_of_eq hhalves.symm), List.take_append_drop]
    next => cases h
  · rintro rfl
    have hlength : (pairs.map Prod.fst ++ pairs.map Prod.snd).length = pairs.length + pairs.length := by simp
    have heven : (pairs.length + pairs.length) % 2 = 0 := by omega
    have hhalf : (pairs.length + pairs.length) / 2 = (pairs.map Prod.fst).length := by
      rw [List.length_map]
      omega
    rw [hlength, if_pos heven, hhalf, List.take_left, List.drop_left, List.zip_map']
    exact congrArg some (List.map_id _)

end Loops

namespace Operand

variable {o : Operand} {operands : List Operand}

/-- An operand with a gap is no single value. -/
theorem single?_of_gap (h : none ∈ o.terms) : o.single? = none := by
  unfold single?
  cases hterms : o.terms with
  | nil => rfl
  | cons only rest =>
    cases rest with
    | nil =>
      rw [hterms, List.mem_singleton] at h
      exact h.symm
    | cons second rest => rfl

theorem mem_flatten {term : Term} : term ∈ flatten operands ↔ ∃ o ∈ operands, term ∈ o.terms :=
  List.mem_flatMap

theorem mem_flatten_cons {term : Term} :
    term ∈ flatten (o :: operands) ↔ term ∈ o.terms ∨ term ∈ flatten operands := by
  rw [flatten, List.flatMap_cons, List.mem_append]
  rfl

/-- Operands that a count of pairs gets through: two single values and two columns, of which the first one has no gap,
and the second one none beside the first value. -/
def Countable (operands : List Operand) : Prop :=
  ∃ level status rest first second, ∃ pairs : List (Term × Term), operands = level :: status :: rest ∧
    level.single? = some first ∧ status.single? = some second ∧
    flatten rest = pairs.map Prod.fst ++ pairs.map Prod.snd ∧
    ∀ pair ∈ pairs, ∃ a, pair.1 = some a ∧ (pair.2 = none → (a == first) = false)

end Operand

/-- There is no sum where some term is neither a truth value nor a number. -/
theorem sumTerms_of_mem {terms : List Term} {term : Term} (h : term ∈ terms) (hbool : Term.bool? term = none)
    (hnumber : Term.number? term = none) : sumTerms terms = none := by
  rw [← Option.not_isSome_iff_eq_none]
  intro hsome
  rcases isSome_sumFrom.1 hsome term h with hsome | hsome
  · rw [hbool] at hsome
    cases hsome
  · rw [hnumber] at hsome
    cases hsome

namespace Operator

variable {operands : List Operand}

theorem applySum_of_gap (h : none ∈ Operand.flatten operands) : applySum operands = none := by
  unfold applySum
  split
  next word rest =>
    have hrest : none ∈ Operand.flatten rest := by
      rcases Operand.mem_flatten_cons.1 h with hword | hrest
      · cases List.mem_singleton.1 hword
      · exact hrest
    split
    · rw [sumTerms_of_mem hrest rfl rfl]
      rfl
    · rw [sumTerms_of_mem h rfl rfl]
      rfl
  next =>
    rw [sumTerms_of_mem h rfl rfl]
    rfl

theorem applyMul_of_gap (h : none ∈ Operand.flatten operands) : applyMul operands = none := by
  have hstop : productFrom (.int 1) (Operand.flatten operands) = none := by
    rw [← Option.not_isSome_iff_eq_none]
    intro hsome
    cases isSome_productFrom.1 hsome none h
  rw [applyMul, hstop]
  rfl

theorem applyMod_of_gap (h : none ∈ Operand.flatten operands) : applyMod operands = none := by
  unfold applyMod
  split
  next mode divisor terms =>
    rw [Operand.mem_flatten_cons, Operand.mem_flatten_cons] at h
    rcases h with hmode | hdivisor | hterms
    · rw [Operand.single?_of_gap hmode]
      rfl
    · rw [Operand.single?_of_gap hdivisor]
      cases Term.text? mode.single? <;> rfl
    · rw [sumTerms_of_mem hterms rfl rfl]
      cases Term.text? mode.single? <;> cases Term.number? divisor.single? <;> rfl
  next => rfl

theorem applyRef_of_gap (h : none ∈ Operand.flatten operands) : applyRef operands = none := by
  unfold applyRef
  split
  next only honly =>
    rw [honly, List.mem_singleton] at h
    exact h.symm
  next => rfl

theorem applyCondSumMul_of_gap (h : none ∈ Operand.flatten operands) : applyCondSumMul operands = none := by
  unfold applyCondSumMul
  split
  next factor rest =>
    rcases Operand.mem_flatten_cons.1 h with hfactor | hrest
    · rw [Operand.single?_of_gap hfactor]
      rfl
    · cases hpairs : columns? (Operand.flatten rest) with
      | none => cases Term.number? factor.single? <;> rfl
      | some pairs =>
        have hstop (n : Number) : conditionalSumFrom n (.int 0) pairs = none := by
          rw [← Option.not_isSome_iff_eq_none]
          intro hsome
          have hboth := isSome_conditionalSumFrom.1 hsome
          rw [← columns?_eq_some.1 hpairs, List.mem_append, List.mem_map, List.mem_map] at hrest
          rcases hrest with ⟨pair, hpair, hgap⟩ | ⟨pair, hpair, hgap⟩
          · have hcondition := (hboth pair hpair).1
            rw [hgap] at hcondition
            cases hcondition
          · have hvalue := (hboth pair hpair).2
            rw [hgap] at hvalue
            cases hvalue
        cases Term.number? factor.single? with
        | none => rfl
        | some n =>
          show (conditionalSumFrom n (.int 0) pairs).map Value.ofNumber = none
          rw [hstop n]
          rfl
  next => rfl

theorem applySizeMod_of_gap (h : none ∈ Operand.flatten operands) : applySizeMod operands = none := by
  unfold applySizeMod
  split
  next size =>
    rcases Operand.mem_flatten_cons.1 h with hsize | hnil
    · rw [Operand.single?_of_gap hsize]
      rfl
    · cases hnil
  next => rfl

/-- All operators but two stop at a gap, wherever it stands among the operands. -/
theorem apply_of_gap {op : Operator} (hsel : op ≠ sel) (hcount : op ≠ countSpells)
    (h : none ∈ Operand.flatten operands) : op.apply operands = none := by
  cases op with
  | sum => exact applySum_of_gap h
  | mul => exact applyMul_of_gap h
  | mod => exact applyMod_of_gap h
  | ref => exact applyRef_of_gap h
  | sel => exact absurd rfl hsel
  | condSumMul => exact applyCondSumMul_of_gap h
  | countSpells => exact absurd rfl hcount
  | sizeMod => exact applySizeMod_of_gap h

theorem isSome_applyCountSpells : (applyCountSpells operands).isSome ↔ Operand.Countable operands := by
  constructor
  · intro h
    unfold applyCountSpells at h
    split at h
    next level status rest =>
      cases hfirst : level.single? with
      | none =>
        rw [hfirst] at h
        cases h
      | some first =>
        cases hsecond : status.single? with
        | none =>
          rw [hfirst, hsecond] at h
          cases h
        | some second =>
          cases hpairs : columns? (Operand.flatten rest) with
          | none =>
            rw [hfirst, hsecond, hpairs] at h
            cases h
          | some pairs =>
            rw [hfirst, hsecond, hpairs] at h
            have hcount : (countPairsFrom first second 0 pairs).isSome := by
              rw [← Option.isSome_map]
              exact h
            exact ⟨level, status, rest, first, second, pairs, rfl, hfirst, hsecond, (columns?_eq_some.1 hpairs).symm,
              isSome_countPairsFrom.1 hcount⟩
    next => cases h
  · rintro ⟨level, status, rest, first, second, pairs, rfl, hfirst, hsecond, hcolumns, hpairs⟩
    have hcount : (countPairsFrom first second 0 pairs).isSome := isSome_countPairsFrom.2 hpairs
    have hvalue : applyCountSpells (level :: status :: rest) =
        (countPairsFrom first second 0 pairs).map fun count => .int (Int64.ofNat count) := by
      rw [applyCountSpells, hfirst, hsecond, columns?_eq_some.2 hcolumns.symm]
      rfl
    rw [hvalue, Option.isSome_map]
    exact hcount

end Operator

/-- A null literal, or a selector that stands for some field without a value. -/
def Argument.Indeterminate (r : Registry) (t : FieldTree) (mode : Refresh) : Argument → Prop
  | literal v => v.isVoid = true
  | selector id => ∃ b m, r.get? id = some b ∧ m ∈ b.fresh t mode ∧ ∀ v, t.authoritative? m = some v → v.isVoid = true

/-- A field that a cache should hold is in the tree. -/
theorem Binding.contains_of_fresh {t : FieldTree} {b : Binding} {mode : Refresh} {m : NodeId}
    (h : m ∈ b.fresh t mode) : t.contains m = true := by
  cases mode with
  | incremental =>
    obtain ⟨hm, haccepts⟩ := Std.ExtTreeSet.mem_filter.1 h
    rw [Std.ExtTreeSet.get_eq] at haccepts
    obtain ⟨q, hq, -⟩ := Selector.prefix_of_accepts haccepts
    rw [FieldTree.contains_eq, hq]
    rfl
  | fromScratch =>
    rw [Binding.fresh, Std.ExtTreeSet.mem_ofList, List.contains_iff_mem] at h
    exact Selector.contains_of_mem_fieldsBelow h

namespace Formula

variable {F : Formula} {r : Registry} {t : FieldTree} {mode : Refresh}

/-- What an argument stands for, once the caches are up to date. -/
def refreshedOperand? (F : Formula) (r : Registry) (t : FieldTree) (mode : Refresh) (a : Argument) : Option Operand :=
  operand? (refreshAll r t F.bindings mode) t a

/-- What all arguments stand for, once the caches are up to date. -/
def operands? (F : Formula) (r : Registry) (t : FieldTree) (mode : Refresh) : Option (List Operand) :=
  F.args.mapM (F.refreshedOperand? r t mode)

theorem evaluate_eq : (F.evaluate r t mode).1 = (F.operands? r t mode).bind F.operator.apply := rfl

/-- An indeterminate argument leaves a gap among the terms. -/
theorem gap_of_indeterminate {arg : Argument} (harg : arg ∈ F.args) (h : arg.Indeterminate r t mode)
    {operands : List Operand} (hoperands : F.operands? r t mode = some operands) : none ∈ Operand.flatten operands := by
  obtain ⟨o, ho, hread⟩ := mem_of_mapM hoperands harg
  refine Operand.mem_flatten.2 ⟨o, ho, ?_⟩
  cases arg with
  | literal v =>
    obtain rfl := Option.some.inj hread
    cases v with
    | void => exact List.mem_singleton.2 rfl
    | _ => cases h
  | selector id =>
    obtain ⟨b, m, hb, hm, hvoid⟩ := h
    rw [refreshedOperand?, operand?, get?_refreshAll (mem_bindings.2 harg), hb] at hread
    obtain rfl := Option.some.inj hread
    have hreading : m ∈ ({ b with cache := b.fresh t mode } : Binding).readings t := by
      rw [Binding.readings, FieldTree.mem_inMatchOrder, List.mem_filter]
      exact ⟨Std.ExtTreeSet.mem_toList.2 hm, Binding.contains_of_fresh hm⟩
    have hgap : (t.authoritative? m).bind Value.nonVoid? = none := by
      cases hvalue : t.authoritative? m with
      | none => rfl
      | some v =>
        have hv : v.isVoid = true := hvoid v hvalue
        cases v with
        | void => rfl
        | _ => cases hv
    exact List.mem_map.2 ⟨_, List.mem_map.2 ⟨m, hreading, rfl⟩, hgap⟩

/-- Where an argument is indeterminate, a formula has a value only if it counts pairs and each gap stands in the second
column, beside a value that does not count. -/
theorem definite_despite_gap_iff (hop : F.operator ≠ .sel) (hgap : ∃ arg ∈ F.args, arg.Indeterminate r t mode) :
    (F.evaluate r t mode).1 ≠ none ↔
      F.operator = .countSpells ∧ ∃ operands, F.operands? r t mode = some operands ∧ Operand.Countable operands := by
  obtain ⟨arg, harg, hindeterminate⟩ := hgap
  rw [evaluate_eq]
  cases hoperands : F.operands? r t mode with
  | none => simp
  | some operands =>
    have hnone : none ∈ Operand.flatten operands := gap_of_indeterminate harg hindeterminate hoperands
    by_cases hcount : F.operator = .countSpells
    · rw [Option.bind_some, hcount, ← Option.isSome_iff_ne_none]
      have hvalue : (Operator.countSpells.apply operands).isSome ↔ Operand.Countable operands :=
        Operator.isSome_applyCountSpells
      simpa using hvalue
    · rw [Option.bind_some, Operator.apply_of_gap hop hcount hnone]
      exact iff_of_false (fun h => h rfl) fun h => hcount h.1

/-- A count in which a null literal is the state of a level that is not looked for. -/
def besideAnotherLevel : Formula where
  anchor := rootId
  expression := "count_spells 1 known 2 null"
  operator := .countSpells
  args := [.literal (.int 1), .literal (.text "known"), .literal (.int 2), .literal .void]

theorem besideAnotherLevel_definite : (besideAnotherLevel.evaluate {} {} .fromScratch).1 ≠ none := by
  refine (definite_despite_gap_iff (by decide) ⟨.literal .void, by simp [besideAnotherLevel], rfl⟩).2 ⟨rfl, ?_⟩
  refine ⟨_, rfl, .literal (.int 1), .literal (.text "known"), [.literal (.int 2), .literal .void], .int 1,
    .text "known", [(some (.int 2), none)], rfl, rfl, rfl, rfl, ?_⟩
  intro pair hpair
  obtain rfl := List.mem_singleton.1 hpair
  exact ⟨.int 2, rfl, fun _ => rfl⟩

/-- The null literal does not keep the count from having a value. -/
theorem besideAnotherLevel_counted :
    Formula.parse {} rootId "count_spells 1 known 2 null" {} = .ok besideAnotherLevel {} ∧
    besideAnotherLevel.operator ≠ .sel ∧ (∃ arg ∈ besideAnotherLevel.args, arg.Indeterminate {} {} .fromScratch) ∧
    (besideAnotherLevel.evaluate {} {} .fromScratch).1 = some (.int 0) := by
  exact ⟨by cbv, by decide, ⟨.literal .void, by simp [besideAnotherLevel], rfl⟩, by cbv⟩

end Formula

end LiveForm
