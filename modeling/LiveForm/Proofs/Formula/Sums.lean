import LiveForm.Proofs.Formula.Definedness
import LiveForm.Proofs.Number

/-!
# Sums of integers

What a sum with switches is, told without the loop: the sum of all integers but those that stand right behind
`false`. It is exact as long as no running sum leaves the range, and `mod` rounds the exact quotient down.
-/

set_option autoImplicit false

namespace LiveForm

/-- A term of a sum that is a truth value or an integer. -/
inductive Entry where
  | switch (b : Bool)
  | integer (i : Int64)

namespace Entry

/-- The entry as a term. -/
def term : Entry → Term
  | switch b => some (.bool b)
  | integer i => some (.int i)

/-- The integer in the second place, unless `false` is in the first one. -/
def counted? : Option Entry × Entry → Option Int
  | (some (switch false), integer _) => none
  | (_, integer i) => some i.toInt
  | (_, switch _) => none

/-- The integers among some entries that do not stand right behind `false`. The first entry stands behind the one
that is given, if there is one. -/
def countedAfter (before : Option Entry) (entries : List Entry) : List Int :=
  ((before :: entries.map some).zip entries).filterMap counted?

/-- The integers among some entries that do not stand right behind `false`. -/
def counted (entries : List Entry) : List Int :=
  countedAfter none entries

/-- The exact sum of the integers that count. -/
def total (entries : List Entry) : Int :=
  (counted entries).sum

/-- Whether 64 bits hold all running sums. -/
def Bounded (entries : List Entry) : Prop :=
  ∀ k, FitsInt64 ((counted entries).take k).sum

/-- Whether an integer counts that stands right behind a given entry. -/
def lets : Option Entry → Bool
  | some (switch b) => b
  | _ => true

theorem countedAfter_switch (before : Option Entry) (b : Bool) (rest : List Entry) :
    countedAfter before (switch b :: rest) = countedAfter (some (switch b)) rest := by
  unfold countedAfter
  rw [List.map_cons, List.zip_cons_cons, List.filterMap_cons_none]
  cases before with
  | none => rfl
  | some e =>
    cases e with
    | switch c => cases c <;> rfl
    | integer i => rfl

theorem countedAfter_integer (before : Option Entry) (i : Int64) (rest : List Entry) :
    countedAfter before (integer i :: rest) =
      if lets before then i.toInt :: countedAfter (some (integer i)) rest
      else countedAfter (some (integer i)) rest := by
  unfold countedAfter
  rw [List.map_cons, List.zip_cons_cons, List.filterMap_cons]
  cases before with
  | none => rfl
  | some e =>
    cases e with
    | switch c => cases c <;> rfl
    | integer i => rfl

end Entry

open Entry

/-- The sum from some integer on, behind some entry, is the exact one. -/
theorem sumFrom_entries {before : Option Entry} {entries : List Entry} {a : Int64}
    (hfits : ∀ k, FitsInt64 (a.toInt + ((countedAfter before entries).take k).sum)) :
    ∃ s : Int64, sumFrom (.int a) (lets before) (entries.map term) = some (.int s) ∧
      s.toInt = a.toInt + (countedAfter before entries).sum := by
  induction entries generalizing before a with
  | nil => exact ⟨a, rfl, (Int.add_zero _).symm⟩
  | cons e rest ih =>
    cases e with
    | switch b =>
      rw [countedAfter_switch] at hfits ⊢
      exact ih hfits
    | integer i =>
      have hstep (counts : Bool) : sumFrom (.int a) counts ((integer i :: rest).map term) =
          sumFrom (if counts then (Number.int a).add (.int i) else .int a) true (rest.map term) := rfl
      rw [countedAfter_integer] at hfits ⊢
      rw [hstep]
      cases hlets : lets before with
      | false =>
        simp only [hlets, Bool.false_eq_true, if_false] at hfits ⊢
        exact ih hfits
      | true =>
        simp only [hlets, if_true] at hfits ⊢
        -- the first running sum of the list is the next total
        have hfirst : FitsInt64 (a.toInt + i.toInt) := by
          have hone := hfits 1
          rwa [List.take_succ_cons, List.take_zero, List.sum_singleton] at hone
        obtain ⟨c, hadd, hc⟩ := Number.add_int hfirst
        have hrest (k : Nat) : FitsInt64 (c.toInt + ((countedAfter (some (integer i)) rest).take k).sum) := by
          have hnext := hfits (k + 1)
          rwa [List.take_succ_cons, List.sum_cons, ← Int.add_assoc, ← hc] at hnext
        obtain ⟨s, hs, hsum⟩ := ih hrest
        refine ⟨s, ?_, ?_⟩
        · rw [hadd]
          exact hs
        · rw [hsum, hc, List.sum_cons, Int.add_assoc]

theorem sumTerms_entries {entries : List Entry} (h : Bounded entries) :
    ∃ s : Int64, sumTerms (entries.map term) = some (.int s) ∧ s.toInt = total entries := by
  have hfits (k : Nat) : FitsInt64 ((0 : Int64).toInt + ((countedAfter none entries).take k).sum) := by
    rw [Int64.toInt_zero, Int.zero_add]
    exact h k
  obtain ⟨s, hs, hsum⟩ := sumFrom_entries hfits
  rw [Int64.toInt_zero, Int.zero_add] at hsum
  exact ⟨s, hs, hsum⟩

/-- The operands that a sum adds up: all, but for the word that asks for truncation. -/
def summands : List Operand → List Operand
  | .literal (.text word) :: rest => if word.toLower = "trunc" then rest else .literal (.text word) :: rest
  | operands => operands

namespace Operator

variable {operands : List Operand}

/-- Whether it truncates or not, a sum leaves an integer as it is. -/
theorem applySum_eq (operands : List Operand) : ∃ finish : Number → Number, (∀ i, finish (.int i) = .int i) ∧
    applySum operands = (sumTerms (Operand.flatten (summands operands))).map fun n => .ofNumber (finish n) := by
  unfold applySum
  split
  next word rest =>
    rw [summands]
    by_cases hword : word.toLower = "trunc"
    · rw [if_pos hword, if_pos hword]
      exact ⟨Number.truncate, fun _ => rfl, rfl⟩
    · rw [if_neg hword, if_neg hword]
      exact ⟨id, fun _ => rfl, rfl⟩
  next hother =>
    have hall : summands operands = operands := by
      unfold summands
      split
      next word rest => exact absurd rfl (hother word rest)
      next => rfl
    rw [hall]
    exact ⟨id, fun _ => rfl, rfl⟩

end Operator

/-- The quotient that a mode leaves: what is negative counts as zero for `pos`, what is positive for `neg`. -/
def limited (mode : String) (q : Int) : Int :=
  if mode = "pos" then max 0 q else if mode = "neg" then min 0 q else q

theorem limitQuotient?_eq {mode : String} (hmode : mode ∈ ["any", "pos", "neg"]) (q : Int64) :
    ∃ c, limitQuotient? mode q = some c ∧ c.toInt = limited mode q.toInt := by
  have hneg : q < 0 ↔ q.toInt < 0 := Int64.lt_iff_toInt_lt
  have hpos : 0 < q ↔ 0 < q.toInt := Int64.lt_iff_toInt_lt
  have hzero : (0 : Int64).toInt = 0 := rfl
  simp only [List.mem_cons, List.not_mem_nil, or_false] at hmode
  rcases hmode with rfl | rfl | rfl
  · exact ⟨q, rfl, rfl⟩
  · refine ⟨if q < 0 then 0 else q, rfl, ?_⟩
    show (if q < 0 then (0 : Int64) else q).toInt = max 0 q.toInt
    split
    next hq =>
      have hq' := hneg.1 hq
      omega
    next hq =>
      have hq' := mt hneg.2 hq
      omega
  · refine ⟨if 0 < q then 0 else q, rfl, ?_⟩
    show (if 0 < q then (0 : Int64) else q).toInt = min 0 q.toInt
    split
    next hq =>
      have hq' := hpos.1 hq
      omega
    next hq =>
      have hq' := mt hpos.2 hq
      omega

namespace Operator

variable {operands rest : List Operand} {limit divisor : Operand} {entries : List Entry} {word text : String}
  {d : Int64}

theorem applySum_entries (hterms : Operand.flatten (summands operands) = entries.map term) (h : Bounded entries) :
    ∃ s : Int64, applySum operands = some (.int s) ∧ s.toInt = total entries := by
  obtain ⟨s, hs, hsum⟩ := sumTerms_entries h
  obtain ⟨finish, hfinish, hvalue⟩ := applySum_eq operands
  refine ⟨s, ?_, hsum⟩
  rw [hvalue, hterms, hs, Option.map_some, hfinish]
  rfl

theorem applySum_of_text (h : some (.text text) ∈ Operand.flatten (summands operands)) : applySum operands = none := by
  obtain ⟨finish, -, hvalue⟩ := applySum_eq operands
  rw [hvalue, sumTerms_of_mem h rfl rfl]
  rfl

/-- What is left of `mod` once its operands have been read. -/
theorem applyMod_eq (hlimit : limit.single? = some (.text word)) (hdivisor : divisor.single? = some (.int d))
    {s : Int64} (hsum : sumTerms (Operand.flatten rest) = some (.int s)) : applyMod (limit :: divisor :: rest) =
      match (Number.int s).floorDiv? (.int d) with
      | some (.int q) => (limitQuotient? word q).map .int
      | _ => none := by
  rw [applyMod, hlimit, hdivisor, hsum]
  rfl

theorem applyMod_entries (hlimit : limit.single? = some (.text word)) (hword : word ∈ ["any", "pos", "neg"])
    (hdivisor : divisor.single? = some (.int d)) (hterms : Operand.flatten rest = entries.map term)
    (h : Bounded entries) :
    (applyMod (limit :: divisor :: rest) = none ↔ d.toInt = 0 ∨ total entries = -2 ^ 63 ∧ d.toInt = -1) ∧
    ∀ v, applyMod (limit :: divisor :: rest) = some v →
      ∃ q : Int64, v = .int q ∧ q.toInt = limited word ⌊(total entries : ℚ) / d.toInt⌋ := by
  obtain ⟨s, hs, hsum⟩ := sumTerms_entries h
  have hvalue := applyMod_eq hlimit hdivisor (hterms ▸ hs)
  rw [hvalue, ← hsum]
  cases hquotient : Number.hasNoQuotient s d with
  | true =>
    rw [Number.floorDiv?_of_hasNoQuotient hquotient]
    constructor
    · exact iff_of_true rfl (Number.hasNoQuotient_iff.1 hquotient)
    · intro v hv
      cases hv
  | false =>
    obtain ⟨q, hq, hfloor⟩ := Number.floorDiv?_eq hquotient
    obtain ⟨c, hc, hlimited⟩ := limitQuotient?_eq hword q
    rw [hq]
    dsimp only
    rw [hc, Option.map_some]
    constructor
    · refine iff_of_false (by simp) ?_
      rw [← Number.hasNoQuotient_iff, hquotient]
      simp
    · intro v hv
      refine ⟨c, (Option.some.inj hv).symm, ?_⟩
      rw [hlimited, hfloor]

theorem applyMod_of_text (h : some (.text text) ∈ Operand.flatten rest) :
    applyMod (limit :: divisor :: rest) = none := by
  rw [applyMod, sumTerms_of_mem h rfl rfl]
  cases Term.text? limit.single? <;> cases Term.number? divisor.single? <;> rfl

end Operator

namespace Formula

variable {F : Formula} {r : Registry} {t : FieldTree} {mode : Refresh} {operands : List Operand}

/-- Where what is added up are truth values and integers whose running sums fit, `sum` is the exact sum of the integers
that do not stand right behind `false`, and `mod` the floor of its exact quotient, limited by its mode; it has no
value only where the divisor is zero or the quotient does not fit. A text among what is added up leaves neither
with a value. -/
theorem sum_and_mod_of_integers (hoperands : F.operands? r t mode = some operands) :
    (F.operator = .sum →
      (∀ entries, Operand.flatten (summands operands) = entries.map term → Bounded entries →
        ∃ s : Int64, (F.evaluate r t mode).1 = some (.int s) ∧ s.toInt = total entries) ∧
      ∀ text, some (.text text) ∈ Operand.flatten (summands operands) → (F.evaluate r t mode).1 = none) ∧
    (F.operator = .mod → ∀ limit divisor rest, operands = limit :: divisor :: rest →
      (∀ word d entries, limit.single? = some (.text word) → word ∈ ["any", "pos", "neg"] →
        divisor.single? = some (.int d) → Operand.flatten rest = entries.map term → Bounded entries →
        ((F.evaluate r t mode).1 = none ↔ d.toInt = 0 ∨ total entries = -2 ^ 63 ∧ d.toInt = -1) ∧
        ∀ v, (F.evaluate r t mode).1 = some v →
          ∃ q : Int64, v = .int q ∧ q.toInt = limited word ⌊(total entries : ℚ) / d.toInt⌋) ∧
      ∀ text, some (.text text) ∈ Operand.flatten rest → (F.evaluate r t mode).1 = none) := by
  rw [evaluate_eq, hoperands, Option.bind_some]
  constructor
  · intro hop
    rw [hop]
    constructor
    · intro entries hterms hbounded
      exact Operator.applySum_entries hterms hbounded
    · intro text htext
      exact Operator.applySum_of_text htext
  · intro hop limit divisor rest hsplit
    rw [hop, hsplit]
    constructor
    · intro word d entries hlimit hword hdivisor hterms hbounded
      exact Operator.applyMod_entries hlimit hword hdivisor hterms hbounded
    · intro text htext
      exact Operator.applyMod_of_text htext

/-- A division of a sum in which the first integer does not count. -/
def switchedSum : Formula where
  anchor := rootId
  expression := "mod any -4 false 5 7 2"
  operator := .mod
  args := [.literal (.text "any"), .literal (.int (-4)), .literal (.bool false), .literal (.int 5), .literal (.int 7),
    .literal (.int 2)]

/-- Nine by minus four is rounded down, away from zero. -/
theorem switchedSum_divided : Formula.parse {} rootId "mod any -4 false 5 7 2" {} = .ok switchedSum {} ∧
    ∃ q : Int64, (switchedSum.evaluate {} {} .fromScratch).1 = some (.int q) ∧ q.toInt = -3 := by
  have hentries : Bounded [.switch false, .integer 5, .integer 7, .integer 2] := by
    have hcounted : counted [.switch false, .integer 5, .integer 7, .integer 2] = [7, 2] := rfl
    intro k
    rw [hcounted]
    match k with
    | 0 => exact ⟨by decide, by decide⟩
    | 1 => exact ⟨by decide, by decide⟩
    | n + 2 =>
      rw [List.take_of_length_le (Nat.le_add_left 2 n)]
      exact ⟨by decide, by decide⟩
  have hoperands : switchedSum.operands? {} {} .fromScratch = some [.literal (.text "any"), .literal (.int (-4)),
      .literal (.bool false), .literal (.int 5), .literal (.int 7), .literal (.int 2)] := rfl
  obtain ⟨hnone, hvalue⟩ := ((sum_and_mod_of_integers hoperands).2 rfl _ _ _ rfl).1 "any" (-4)
    [.switch false, .integer 5, .integer 7, .integer 2] rfl (by decide) rfl rfl hentries
  refine ⟨by cbv, ?_⟩
  cases heval : (switchedSum.evaluate {} {} .fromScratch).1 with
  | none => exact absurd (hnone.1 heval) (by decide)
  | some v =>
    obtain ⟨q, rfl, hq⟩ := hvalue v heval
    refine ⟨q, rfl, hq.trans ?_⟩
    rw [floor_div _ _ (by decide)]
    decide

end Formula

end LiveForm
