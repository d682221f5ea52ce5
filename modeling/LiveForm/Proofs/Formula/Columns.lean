import LiveForm.Proofs.Formula.Definedness
import LiveForm.Proofs.Selector.Containers

/-!
# Formulas over columns

Two selectors that prolong one pattern by two names give a formula two columns. The columns are matched, cached
and sorted one by one, then put behind each other and cut in half; what stands side by side in the end comes from
one container.
-/

set_option autoImplicit false

namespace LiveForm

variable {t : FieldTree} {mode : Refresh} {pattern : List PatternStep} {key : String}

/-- A binding of a pattern, prolonged by a name, at the root, whose cache holds all matches once it has been brought
up to date. -/
structure Binding.IsColumn (b : Binding) (t : FieldTree) (mode : Refresh) (pattern : List PatternStep)
    (key : String) : Prop where
  selector : b.selector.pattern = pattern ++ [.name key]
  base : b.base = rootId
  complete : ∀ x, x ∈ b.fresh t mode ↔ t.Matches b.selector b.base x

/-- Matching with the tree again leaves nothing out. -/
theorem Binding.mem_fresh_fromScratch (ht : t.Keyed) (b : Binding) (hpattern : b.selector.pattern ≠ []) {x : NodeId} :
    x ∈ b.fresh t .fromScratch ↔ t.Matches b.selector b.base x := by
  rw [Binding.fresh, Std.ExtTreeSet.mem_ofList, List.contains_iff_mem, Selector.mem_fieldsBelow ht hpattern]

/-- A column needs no cache when it is matched again. -/
theorem Binding.isColumn_fromScratch (ht : t.Keyed) {b : Binding} (hs : b.selector.pattern = pattern ++ [.name key])
    (hbase : b.base = rootId) : b.IsColumn t .fromScratch pattern key := by
  refine ⟨hs, hbase, fun x => Binding.mem_fresh_fromScratch ht b ?_⟩
  rw [hs]
  simp

/-- A cache that holds all matches is read as the walk lists them. -/
theorem Binding.readings_eq (ht : t.Keyed) {b : Binding} (hpattern : b.selector.pattern ≠ [])
    (hcache : ∀ x, x ∈ b.cache ↔ t.Matches b.selector b.base x) : b.readings t = b.selector.fieldsBelow t b.base := by
  have hmem (x : NodeId) : x ∈ b.cache.toList.filter t.contains ↔ x ∈ b.selector.fieldsBelow t b.base := by
    rw [List.mem_filter, Std.ExtTreeSet.mem_toList, hcache, Selector.mem_fieldsBelow ht hpattern]
    apply and_iff_left_of_imp
    intro hx
    exact Selector.contains_of_mem_fieldsBelow ((Selector.mem_fieldsBelow ht hpattern).2 hx)
  apply FieldTree.Ascending.eq_of_mem_iff _ (Selector.ascending_fieldsBelow ht b.selector b.base)
  · intro x
    rw [Binding.readings, FieldTree.mem_inMatchOrder, hmem]
  · apply FieldTree.ascending_inMatchOrder ht ((nodup_toList b.cache).filter _)
    intro x hx
    have hcontains : t.contains x = true := (List.mem_filter.1 hx).2
    rw [FieldTree.contains_eq] at hcontains
    exact Option.isSome_iff_exists.1 hcontains

/-- A column is read container by container. -/
theorem Binding.IsColumn.readings {b : Binding} (h : b.IsColumn t mode pattern key) (ht : t.Built)
    (hcolumn : t.HasColumn pattern key) :
    ({ b with cache := b.fresh t mode } : Binding).readings t = (t.containersAt pattern).map (t.cell key) := by
  have hpattern : b.selector.pattern ≠ [] := by
    rw [h.selector]
    simp
  have hread : ({ b with cache := b.fresh t mode } : Binding).readings t = b.selector.fieldsBelow t b.base :=
    Binding.readings_eq ht.keyed hpattern h.complete
  rw [hread, h.base]
  exact hcolumn.fieldsBelow ht h.selector

section Loops

variable {rows : List NodeId}

theorem conditionalSumFrom_rows {factor total : Number} {condition value : NodeId → Term} {flag : NodeId → Bool}
    {amount : NodeId → Number} (hflag : ∀ x ∈ rows, Term.bool? (condition x) = some (flag x))
    (hamount : ∀ x ∈ rows, Term.number? (value x) = some (amount x)) :
    conditionalSumFrom factor total (rows.map fun x => (condition x, value x)) =
      some (rows.foldl (fun total x => total.add (if flag x then amount x else (amount x).mul factor)) total) := by
  induction rows generalizing total with
  | nil => rfl
  | cons x rest ih =>
    rw [List.forall_mem_cons] at hflag hamount
    rw [List.map_cons, conditionalSumFrom, hflag.1, hamount.1, List.foldl_cons]
    exact ih hflag.2 hamount.2

theorem countPairsFrom_rows {first second : Value} {count : Nat} {left right : NodeId → Value} :
    countPairsFrom first second count (rows.map fun x => (some (left x), some (right x))) =
      some (count + rows.countP fun x => left x == first && right x == second) := by
  induction rows generalizing count with
  | nil => rfl
  | cons x rest ih =>
    rw [List.map_cons, countPairsFrom.eq_def, List.countP_cons]
    dsimp only
    cases hleft : left x == first with
    | false =>
      rw [if_neg Bool.false_ne_true, ih]
      rfl
    | true =>
      cases hright : right x == second with
      | false =>
        rw [if_pos rfl, if_neg Bool.false_ne_true, ih]
        rfl
      | true =>
        rw [if_pos rfl, if_pos rfl, ih]
        exact congrArg some (by simp; omega)

end Loops

namespace Operator

variable {rows : List NodeId} {s s' : Selector} {left right : NodeId → Option Value}

/-- Two columns behind each other are cut into the two columns. -/
theorem columns?_columns : columns? (Operand.flatten [.column s (rows.map left), .column s' (rows.map right)]) =
    some (rows.map fun x => ((left x).bind Value.nonVoid?, (right x).bind Value.nonVoid?)) := by
  rw [columns?_eq_some]
  simp [Operand.flatten, Operand.terms, Function.comp_def]

theorem applyCondSumMul_rows {o : Operand} {factor : Number} (hfactor : Term.number? o.single? = some factor)
    {flag : NodeId → Bool} {amount : NodeId → Number} (hflag : ∀ x ∈ rows, left x = some (.bool (flag x)))
    (hamount : ∀ x ∈ rows, (right x).bind Value.asNumber? = some (amount x)) :
    applyCondSumMul [o, .column s (rows.map left), .column s' (rows.map right)] = some (.ofNumber (rows.foldl
      (fun total x => total.add (if flag x then amount x else (amount x).mul factor)) (.int 0))) := by
  have hsum : conditionalSumFrom factor (.int 0)
        (rows.map fun x => ((left x).bind Value.nonVoid?, (right x).bind Value.nonVoid?)) =
      some (rows.foldl (fun total x => total.add (if flag x then amount x else (amount x).mul factor)) (.int 0)) := by
    apply conditionalSumFrom_rows
    · intro x hx
      rw [hflag x hx]
      rfl
    · intro x hx
      rw [← hamount x hx]
      cases right x with
      | none => rfl
      | some v => cases v <;> rfl
  rw [applyCondSumMul, hfactor, columns?_columns]
  exact congrArg (Option.map Value.ofNumber) hsum

theorem applyCountSpells_rows {level status : Operand} {first second : Value} (hfirst : level.single? = some first)
    (hsecond : status.single? = some second) {a b : NodeId → Value}
    (hleft : ∀ x ∈ rows, left x = some (a x) ∧ (a x).isVoid = false)
    (hright : ∀ x ∈ rows, right x = some (b x) ∧ (b x).isVoid = false) :
    applyCountSpells [level, status, .column s (rows.map left), .column s' (rows.map right)] =
      some (.int (Int64.ofNat (rows.countP fun x => a x == first && b x == second))) := by
  have hterm {v : Value} (hv : v.isVoid = false) : v.nonVoid? = some v := by
    cases v with
    | void => cases hv
    | _ => rfl
  have hpairs : (rows.map fun x => ((left x).bind Value.nonVoid?, (right x).bind Value.nonVoid?)) =
      rows.map fun x => (some (a x), some (b x)) := by
    apply List.map_congr_left
    intro x hx
    rw [(hleft x hx).1, (hright x hx).1, Option.bind_some, Option.bind_some, hterm (hleft x hx).2,
      hterm (hright x hx).2]
  have hcount : countPairsFrom first second 0
        (rows.map fun x => ((left x).bind Value.nonVoid?, (right x).bind Value.nonVoid?)) =
      some (rows.countP fun x => a x == first && b x == second) := by
    rw [hpairs, countPairsFrom_rows, Nat.zero_add]
  rw [applyCountSpells, hfirst, hsecond, columns?_columns]
  exact congrArg (Option.map fun count => Value.int (Int64.ofNat count)) hcount

end Operator

namespace Formula

variable {F : Formula} {r : Registry} {c v : String} {bc bv : Binding} {ic iv : BindingId} {args : List Argument}

/-- What an argument stands for that selects a column. -/
theorem refreshedOperand?_column (ht : t.Built) {id : BindingId} {b : Binding} (hb : r.get? id = some b)
    (hcolumn : b.IsColumn t mode pattern key) (hcells : t.HasColumn pattern key) (hmem : .selector id ∈ F.args) :
    F.refreshedOperand? r t mode (.selector id) =
      some (.column b.selector ((t.containersAt pattern).map fun x => t.authoritative? (t.cell key x))) := by
  rw [refreshedOperand?, operand?, get?_refreshAll (mem_bindings.2 hmem), hb, Option.map_some, Option.map_some,
    hcolumn.readings ht hcells, List.map_map]
  rfl

/-- The operands of a formula whose last two arguments are columns. -/
theorem operands?_columns (ht : t.Built) (hc : t.HasColumn pattern c) (hv : t.HasColumn pattern v)
    (hbc : r.get? ic = some bc) (hbv : r.get? iv = some bv) (hcolumn : bc.IsColumn t mode pattern c)
    (hcolumn' : bv.IsColumn t mode pattern v) (hargs : F.args = args ++ [.selector ic, .selector iv])
    {operands : List Operand} (hread : args.mapM (F.refreshedOperand? r t mode) = some operands) :
    F.operands? r t mode = some (operands ++
      [.column bc.selector ((t.containersAt pattern).map fun x => t.authoritative? (t.cell c x)),
        .column bv.selector ((t.containersAt pattern).map fun x => t.authoritative? (t.cell v x))]) := by
  have hoc := refreshedOperand?_column (F := F) ht hbc hcolumn hc (by simp [hargs])
  have hov := refreshedOperand?_column (F := F) ht hbv hcolumn' hv (by simp [hargs])
  rw [Formula.operands?, hargs, List.mapM_append, hread]
  simp only [List.mapM_cons, List.mapM_nil, hoc, hov]
  rfl

/-- The value of an argument that stands for a single one, once the caches are up to date. -/
def single? (F : Formula) (r : Registry) (t : FieldTree) (mode : Refresh) (a : Argument) : Option Value :=
  (F.refreshedOperand? r t mode a).bind Operand.single?

/-- Two bindings that prolong a pattern by the names of fields that all containers have are read container by container,
in lexicographic order of the indices. So a conditional sum takes the fields of each container together, and a count of
pairs counts containers. -/
theorem columns_aligned (ht : t.Built) (hc : t.HasColumn pattern c) (hv : t.HasColumn pattern v)
    (hbc : r.get? ic = some bc) (hbv : r.get? iv = some bv) (hcolumn : bc.IsColumn t mode pattern c)
    (hcolumn' : bv.IsColumn t mode pattern v) :
    (({ bc with cache := bc.fresh t mode } : Binding).readings t).map (fun x => (t.locate? x).bind Located.parent) =
      (t.containersAt pattern).map some ∧
    (({ bv with cache := bv.fresh t mode } : Binding).readings t).map (fun x => (t.locate? x).bind Located.parent) =
      (t.containersAt pattern).map some ∧
    (F.operator = .condSumMul → ∀ (a : Argument) (m : Value) (factor : Number) (flag : NodeId → Bool)
      (amount : NodeId → Number), F.args = [a, .selector ic, .selector iv] →
      F.single? r t mode a = some m → m.asNumber? = some factor →
      (∀ x ∈ t.containersAt pattern, t.authoritative? (t.cell c x) = some (.bool (flag x))) →
      (∀ x ∈ t.containersAt pattern, (t.authoritative? (t.cell v x)).bind Value.asNumber? = some (amount x)) →
      (F.evaluate r t mode).1 = some (.ofNumber ((t.containersAt pattern).foldl
        (fun total x => total.add (if flag x then amount x else (amount x).mul factor)) (.int 0)))) ∧
    (F.operator = .countSpells → ∀ (l s : Argument) (level status : Value) (left right : NodeId → Value),
      F.args = [l, s, .selector ic, .selector iv] →
      F.single? r t mode l = some level → F.single? r t mode s = some status →
      (∀ x ∈ t.containersAt pattern, t.authoritative? (t.cell c x) = some (left x) ∧ (left x).isVoid = false) →
      (∀ x ∈ t.containersAt pattern, t.authoritative? (t.cell v x) = some (right x) ∧ (right x).isVoid = false) →
      (F.evaluate r t mode).1 = some (.int (Int64.ofNat
        ((t.containersAt pattern).countP fun x => left x == level && right x == status)))) := by
  have hparents {b : Binding} {key : String} (hb : b.IsColumn t mode pattern key) (hcells : t.HasColumn pattern key) :
      (({ b with cache := b.fresh t mode } : Binding).readings t).map (fun x => (t.locate? x).bind Located.parent) =
        (t.containersAt pattern).map some := by
    rw [hb.readings ht hcells, List.map_map]
    apply List.map_congr_left
    intro x hx
    exact hcells.parent_cell ht.keyed hx
  refine ⟨hparents hcolumn hc, hparents hcolumn' hv, ?_, ?_⟩
  · intro hop a m factor flag amount hargs hm hfactor hflag hamount
    obtain ⟨o, ho, hsingle⟩ := Option.bind_eq_some_iff.1 hm
    have hread : [a].mapM (F.refreshedOperand? r t mode) = some [o] := by
      rw [List.mapM_cons, ho]
      rfl
    have hnumber : Term.number? o.single? = some factor := by
      rw [hsingle]
      exact hfactor
    rw [evaluate_eq, operands?_columns ht hc hv hbc hbv hcolumn hcolumn' hargs hread, Option.bind_some, hop]
    exact Operator.applyCondSumMul_rows hnumber hflag hamount
  · intro hop l s level status left right hargs hl hs hleft hright
    obtain ⟨ol, hol, hlevel⟩ := Option.bind_eq_some_iff.1 hl
    obtain ⟨os, hos, hstatus⟩ := Option.bind_eq_some_iff.1 hs
    have hread : [l, s].mapM (F.refreshedOperand? r t mode) = some [ol, os] := by
      rw [List.mapM_cons, List.mapM_cons, hol, hos]
      rfl
    rw [evaluate_eq, operands?_columns ht hc hv hbc hbv hcolumn hcolumn' hargs hread, Option.bind_some, hop]
    exact Operator.applyCountSpells_rows hlevel hstatus hleft hright

/-- An array whose elements have the indices 10 and 9, each with a condition and an amount. -/
def table : FieldTree :=
  TreeEdit.runAll [.insert rootId (.name "a") .array, .insertTemplate 1, .insert 2 (.name "c") .field,
    .insert 2 (.name "v") .field, .copySubtree 2 1 (.index 10), .copySubtree 2 1 (.index 9), .setValue 6 (.bool false),
    .setValue 7 (.int 7), .setValue 9 (.bool true), .setValue 10 (.int 2)] {}

theorem table_built : table.Built :=
  FieldTree.Built.empty.runAll (by simp [TreeEdit.IsOperation])

/-- The binding of a column of the table. -/
def tableColumn (key : String) : Binding where
  selector := ⟨"/a[-1]." ++ key, false, [.name "a", .anyIndex, .name key]⟩
  base := rootId
  basePath := .root
  consumers := {rootId}

/-- The bindings of both columns. -/
def tableRegistry : Registry :=
  ((({} : Registry).add (tableColumn "c")).2.add (tableColumn "v")).2

/-- A sum over the table, in which seven counts three times, since the condition beside it does not hold. -/
def tableSum : Formula where
  anchor := rootId
  expression := "cond_sum_mul 3 /a[-1].c /a[-1].v"
  operator := .condSumMul
  args := [.literal (.int 3), .selector ⟨0, 0⟩, .selector ⟨1, 1⟩]

theorem tableSum_evaluated :
    Formula.parse table rootId "cond_sum_mul 3 /a[-1].c /a[-1].v" {} = .ok tableSum tableRegistry ∧
    (tableSum.evaluate tableRegistry table .fromScratch).1 = some (.int 23) := by
  have hcontainers : table.containersAt [.name "a", .anyIndex] = [8, 5] := by cbv
  have hc : table.HasColumn [.name "a", .anyIndex] "c" := by
    rw [FieldTree.HasColumn, hcontainers, List.forall_mem_cons, List.forall_mem_singleton]
    exact ⟨⟨9, by cbv, by cbv⟩, ⟨6, by cbv, by cbv⟩⟩
  have hv : table.HasColumn [.name "a", .anyIndex] "v" := by
    rw [FieldTree.HasColumn, hcontainers, List.forall_mem_cons, List.forall_mem_singleton]
    exact ⟨⟨10, by cbv, by cbv⟩, ⟨7, by cbv, by cbv⟩⟩
  have hbc : tableRegistry.get? ⟨0, 0⟩ = some (tableColumn "c") := by cbv
  have hbv : tableRegistry.get? ⟨1, 1⟩ = some (tableColumn "v") := by cbv
  have hflag : ∀ x ∈ table.containersAt [.name "a", .anyIndex],
      table.authoritative? (table.cell "c" x) = some (.bool (x == 8)) := by
    rw [hcontainers, List.forall_mem_cons, List.forall_mem_singleton]
    exact ⟨by cbv, by cbv⟩
  have hamount : ∀ x ∈ table.containersAt [.name "a", .anyIndex],
      (table.authoritative? (table.cell "v" x)).bind Value.asNumber? = some (.int (if x = 8 then 2 else 7)) := by
    rw [hcontainers, List.forall_mem_cons, List.forall_mem_singleton]
    exact ⟨by cbv, by cbv⟩
  have hfresh (key : String) : (tableColumn key).IsColumn table .fromScratch [.name "a", .anyIndex] key :=
    Binding.isColumn_fromScratch table_built.keyed rfl rfl
  obtain ⟨-, -, hsum, -⟩ := columns_aligned (F := tableSum) table_built hc hv hbc hbv (hfresh "c") (hfresh "v")
  refine ⟨by cbv, (hsum rfl (.literal (.int 3)) (.int 3) (.int 3) _ _ rfl rfl rfl hflag hamount).trans ?_⟩
  rw [hcontainers]
  rfl

end Formula

end LiveForm
