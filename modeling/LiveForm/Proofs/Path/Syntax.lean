import LiveForm.Path.Syntax
import Mathlib.Algebra.Group.Int.Defs
import Mathlib.Algebra.Group.Nat.Defs
import Mathlib.Data.List.TakeWhile

/-!
# Reading a path that was written

The text of a path is read as that path again if the grammar has a way to write each of its steps. It has none for most
names, nor for an index that is negative or too great. Only steps that can be written come of reading a text, so all
other paths are lost when they are written.
-/

set_option autoImplicit false

namespace LiveForm

/-- The grammar of paths can write a step: it is a plain name, or an index that is not negative and fits into 64
bits. -/
def Step.Writable : Step → Prop
  | name s => Path.piece? s.toList = some [.name s]
  | index i => 0 ≤ i ∧ i < 2 ^ 63

instance : DecidablePred Step.Writable
  | .name _ => inferInstanceAs (Decidable (_ = _))
  | .index _ => inferInstanceAs (Decidable (_ ∧ _))

/-- All steps of a path can be written. -/
def Path.Writable (p : Path) : Prop :=
  ∀ step ∈ p.steps, step.Writable

namespace Decimal

/-- The digits of a number stand for it. -/
theorem natural?_toDigits (n : Nat) : natural? (Nat.toDigits 10 n) = some n := by
  have hdigits : (Nat.toDigits 10 n).all Char.isDigit = true :=
    List.all_eq_true.2 fun c hc => Nat.isDigit_of_mem_toDigits (by decide) (by decide) hc
  have hvalue : valueOfDigits (Nat.toDigits 10 n) = n := by
    rw [valueOfDigits, ← Nat.ofDigitChars_eq_foldl]
    exact Nat.ofDigitChars_ten_toDigits
  have hempty : (Nat.toDigits 10 n).isEmpty = false := by
    rw [List.isEmpty_eq_false_iff]
    exact Nat.toDigits_ne_nil
  simp [natural?, hdigits, hvalue, hempty]

/-- What starts with a digit has no sign. -/
theorem takeSign_of_isDigit {c : Char} {cs : List Char} (h : c.isDigit = true) : takeSign (c :: cs) = (false, c :: cs) := by
  unfold takeSign
  split
  next rest heq =>
    rw [(List.cons.inj heq).1] at h
    exact absurd h (by decide)
  next rest heq =>
    rw [(List.cons.inj heq).1] at h
    exact absurd h (by decide)
  next => rfl

end Decimal

namespace Path

section Indices

/-- The text between two brackets is read as the number that it was written for. -/
theorem index?_toDigits {n : Nat} (h : n < 2 ^ 63) : index? (Nat.toDigits 10 n) = some (n : Int) := by
  obtain ⟨c, cs, hcs⟩ := List.exists_cons_of_ne_nil (Nat.toDigits_ne_nil (n := n) (b := 10))
  have hc : c.isDigit = true := Nat.isDigit_of_mem_toDigits (b := 10) (n := n) (by decide) (by decide) (by simp [hcs])
  have hplus : (Nat.toDigits 10 n).head? ≠ some '+' := by
    rw [hcs]
    rintro heq
    rw [Option.some.inj heq] at hc
    exact absurd hc (by decide)
  have hint : Decimal.integer? (Nat.toDigits 10 n) = some (n : Int) := by
    have hnat := Decimal.natural?_toDigits n
    rw [hcs] at hnat ⊢
    rw [Decimal.integer?, Decimal.takeSign_of_isDigit hc]
    simp [hnat]
  have hmin : Int64.minValue.toInt = -2 ^ 63 := by decide
  have hmax : Int64.maxValue.toInt = 2 ^ 63 - 1 := by decide
  rw [index?, if_neg hplus, Decimal.int64?, hint]
  dsimp only
  rw [if_pos (by omega), Option.map_some, Int64.toInt_ofInt_of_le (by omega) (by omega)]

/-- What is read between two brackets fits into 64 bits. -/
theorem lt_of_index? {body : List Char} {i : Int} (h : index? body = some i) : i < 2 ^ 63 := by
  unfold index? at h
  split at h
  · cases h
  · obtain ⟨n, -, rfl⟩ := Option.map_eq_some_iff.1 h
    exact Int64.toInt_lt n

variable {read : List Char → Option Int} {cs rest : List Char} {steps : List Step}

/-- An open bracket is closed by the first closing one. -/
theorem indicesFrom?_body (body : List Char) (h : ']' ∉ cs) : indicesFrom? read (cs ++ ']' :: rest) (some body) =
    (read (body.reverse ++ cs)).bind fun i => (indicesFrom? read rest none).map (.index i :: ·) := by
  induction cs generalizing body with
  | nil =>
    rw [List.nil_append, indicesFrom?, if_pos rfl, List.append_nil]
    cases read body.reverse <;> rfl
  | cons c cs ih =>
    rw [List.mem_cons, not_or] at h
    rw [List.cons_append, indicesFrom?, if_neg (Ne.symm h.1), ih _ h.2]
    simp

/-- Only indices that the reader returns are read. -/
theorem mem_indicesFrom? {opened : Option (List Char)} (h : indicesFrom? read cs opened = some steps) {step : Step}
    (hstep : step ∈ steps) : ∃ body i, read body = some i ∧ step = .index i := by
  induction cs generalizing opened steps with
  | nil =>
    cases opened with
    | none =>
      obtain rfl := Option.some.inj h
      cases hstep
    | some body => cases h
  | cons c cs ih =>
    cases opened with
    | none =>
      rw [indicesFrom?] at h
      split at h
      · exact ih h hstep
      · cases h
    | some body =>
      rw [indicesFrom?] at h
      split at h
      · split at h
        next i hread =>
          obtain ⟨others, hothers, rfl⟩ := Option.map_eq_some_iff.1 h
          rcases List.mem_cons.1 hstep with rfl | hstep
          · exact ⟨_, i, hread, rfl⟩
          · exact ih hothers hstep
        next => cases h
      · exact ih h hstep

theorem toList_render_index (n : Nat) : (Step.index n).render.toList = '[' :: (Nat.toDigits 10 n ++ [']']) := by
  have hrepr : (n : Int).repr = String.ofList (Nat.toDigits 10 n) := Nat.repr_eq_ofList_toDigits
  simp [Step.render, hrepr]

/-- An index in brackets is read as that index. -/
theorem indicesFrom?_render {i : Int} (h : (Step.index i).Writable) : indicesFrom? index?
    ((Step.index i).render.toList ++ rest) none = (indicesFrom? index? rest none).map (.index i :: ·) := by
  obtain ⟨n, rfl⟩ := Int.eq_ofNat_of_zero_le h.1
  have hn : n < 2 ^ 63 := by
    have := h.2
    omega
  have hbracket : ']' ∉ Nat.toDigits 10 n := fun hmem =>
    absurd (Nat.isDigit_of_mem_toDigits (b := 10) (by decide) (by decide) hmem) (by decide)
  rw [toList_render_index, List.cons_append, List.append_assoc, List.singleton_append, indicesFrom?, if_pos rfl,
    indicesFrom?_body [] hbracket]
  simp [index?_toDigits hn]

end Indices

section Names

variable {cs rest name : List Char} {c : Char} {s : String}

theorem append_takeName (cs : List Char) : (takeName cs).1 ++ (takeName cs).2 = cs := by
  unfold takeName
  split
  · rfl
  · split
    · simp
    · rfl

/-- The name at the start of a piece is a name by itself. -/
theorem takeName_fst (cs : List Char) : takeName (takeName cs).1 = ((takeName cs).1, []) := by
  cases cs with
  | nil => rfl
  | cons c rest =>
    by_cases hc : isNameStart c = true
    · rw [takeName, if_pos hc]
      dsimp only
      rw [takeName, if_pos hc, List.takeWhile_idem, List.dropWhile_eq_nil_iff.2 fun _ => List.mem_takeWhile_imp]
    · rw [takeName, if_neg hc]
      rfl

/-- A name is split off again from what cannot be a part of it. -/
theorem takeName_append (hname : takeName name = (name, [])) (hne : name ≠ [])
    (hrest : ∀ c, rest.head? = some c → isNamePart c = false) : takeName (name ++ rest) = (name, rest) := by
  obtain ⟨c, cs, rfl⟩ := List.exists_cons_of_ne_nil hne
  unfold takeName at hname
  split at hname
  next heq => cases heq
  next c' cs' heq =>
    obtain ⟨rfl, rfl⟩ := List.cons.inj heq
    split at hname
    next hc =>
      obtain ⟨-, hdrop⟩ := Prod.mk.inj hname
      have hall : ∀ d ∈ cs, isNamePart d = true := List.dropWhile_eq_nil_iff.1 hdrop
      have hstop : rest.takeWhile isNamePart = [] ∧ rest.dropWhile isNamePart = rest := by
        cases rest with
        | nil => exact ⟨rfl, rfl⟩
        | cons d ds =>
          have hd := hrest d rfl
          simp [hd]
      rw [List.cons_append, takeName, if_pos hc, List.takeWhile_append_of_pos hall, List.dropWhile_append_of_pos hall,
        hstop.1, hstop.2, List.append_nil]
    next => cases (Prod.mk.inj hname).1

/-- The steps that a name stands for, which may be missing. -/
def nameSteps (name : List Char) : List Step :=
  if name.isEmpty then [] else [.name (String.ofList name)]

/-- A piece is a name and indices, not both of which are missing. -/
theorem piece?_eq_some {steps : List Step} : piece? cs = some steps ↔ steps ≠ [] ∧ ∃ indices,
    indicesFrom? index? (takeName cs).2 none = some indices ∧ steps = nameSteps (takeName cs).1 ++ indices := by
  unfold piece?
  dsimp only
  cases indicesFrom? index? (takeName cs).2 none with
  | none => simp
  | some indices =>
    change (if (nameSteps _ ++ indices).isEmpty then none else some (nameSteps _ ++ indices)) = _ ↔ _
    by_cases hempty : nameSteps (takeName cs).1 ++ indices = []
    · simp +contextual [hempty]
    · rw [if_neg (by simpa using hempty)]
      constructor
      · rintro h
        obtain rfl := Option.some.inj h
        exact ⟨hempty, indices, rfl, rfl⟩
      · rintro ⟨-, _, hindices, rfl⟩
        rw [Option.some.inj hindices]

/-- A plain name is split off as a whole. -/
theorem takeName_of_writable (h : (Step.name s).Writable) : takeName s.toList = (s.toList, []) ∧ s.toList ≠ [] := by
  obtain ⟨-, indices, hindices, hsteps⟩ := piece?_eq_some.1 h
  have happend := append_takeName s.toList
  unfold nameSteps at hsteps
  split at hsteps
  next =>
    -- indices alone do not make a name
    have hmem : Step.name s ∈ indices := by simp [← show [Step.name s] = indices from hsteps]
    obtain ⟨body, i, -, hi⟩ := mem_indicesFrom? hindices hmem
    cases hi
  next hne =>
    have hstring : s = String.ofList (takeName s.toList).1 := Step.name.inj (List.cons.inj hsteps).1
    have hname : (takeName s.toList).1 = s.toList := by
      simpa using (congrArg String.toList hstring).symm
    have hrest : (takeName s.toList).2 = [] := by
      rw [hname] at happend
      exact List.append_right_eq_self.1 happend
    refine ⟨Prod.ext hname hrest, fun hnil => hne ?_⟩
    rw [hname, hnil]
    rfl

/-- A plain name has no dot in it. -/
theorem isNamePart_of_writable (h : (Step.name s).Writable) : ∀ c ∈ s.toList, isNamePart c = true := by
  obtain ⟨htake, -⟩ := takeName_of_writable h
  unfold takeName at htake
  split at htake
  next heq =>
    rw [heq]
    simp
  next c rest heq =>
    rw [heq] at htake ⊢
    split at htake
    next hc =>
      have hrest : ∀ d ∈ rest, isNamePart d = true := List.dropWhile_eq_nil_iff.1 (Prod.mk.inj htake).2
      have hpart : isNamePart c = true := by
        simp only [isNameStart, isNamePart, Char.isAlphanum, Bool.or_eq_true, decide_eq_true_eq] at hc ⊢
        rcases hc with hc | hc <;> simp [hc]
      exact List.forall_mem_cons.2 ⟨hpart, hrest⟩
    next => cases (Prod.mk.inj htake).1

/-- The piece that starts with a plain name is read as that name and the indices behind it. -/
theorem piece?_append {indices : List Step} (h : (Step.name s).Writable)
    (hrest : ∀ c, rest.head? = some c → isNamePart c = false) (hindices : indicesFrom? index? rest none = some indices) :
    piece? (s.toList ++ rest) = some (.name s :: indices) := by
  obtain ⟨htake, hne⟩ := takeName_of_writable h
  refine piece?_eq_some.2 ⟨by simp, indices, ?_⟩
  rw [takeName_append htake hne hrest]
  refine ⟨hindices, ?_⟩
  rw [nameSteps, if_neg (by simpa using hne)]
  simp

end Names

section Pieces

variable {cs rest : List Char} {steps : List Step} {s : String}

theorem pieces_dot (rest : List Char) : pieces ('.' :: rest) = [] :: pieces rest := rfl

/-- What has no dot in it belongs to the first piece. -/
theorem pieces_append (h : '.' ∉ cs) {first : List Char} {later : List (List Char)} (hrest : pieces rest = first :: later) :
    pieces (cs ++ rest) = (cs ++ first) :: later := by
  induction cs with
  | nil => exact hrest
  | cons c cs ih =>
    rw [List.mem_cons, not_or] at h
    rw [List.cons_append, pieces, if_neg (Ne.symm h.1), ih h.2]
    rfl

/-- A text goes on with some steps: the indices before its first dot, and the pieces behind that. -/
structure GoesOn (cs : List Char) (steps : List Step) (first : List Char) (later : List (List Char)) : Prop where
  pieces : pieces cs = first :: later
  head : ∀ c, first.head? = some c → isNamePart c = false
  read : ∃ indices rest, indicesFrom? index? first none = some indices ∧ stepsOfPieces later = .ok rest ∧
    steps = indices ++ rest

/-- The indices of a path are not negative. -/
theorem isNegativeIndex_eq_false {step : Step} (h : step.Writable) : isNegativeIndex step = false := by
  cases step with
  | name => rfl
  | index i =>
    have := h.1
    simpa [isNegativeIndex] using this

theorem toList_renderRest_name (s : String) (rest : List Step) :
    (renderRest (.name s :: rest)).toList = '.' :: (s.toList ++ (renderRest rest).toList) := by
  simp [renderRest, Step.render]

theorem toList_renderRest_index (i : Int) (rest : List Step) :
    (renderRest (.index i :: rest)).toList = (Step.index i).render.toList ++ (renderRest rest).toList := by
  simp [renderRest]

/-- An index has no dot in it. -/
theorem not_mem_render_index {i : Int} (h : (Step.index i).Writable) : '.' ∉ (Step.index i).render.toList := by
  obtain ⟨n, rfl⟩ := Int.eq_ofNat_of_zero_le h.1
  rw [toList_render_index]
  have hdigit : '.' ∉ Nat.toDigits 10 n := fun hmem =>
    absurd (Nat.isDigit_of_mem_toDigits (b := 10) (by decide) (by decide) hmem) (by decide)
  simp [hdigit]

theorem not_mem_of_plain (h : (Step.name s).Writable) : '.' ∉ s.toList := fun hmem =>
  absurd (isNamePart_of_writable h _ hmem) (by decide)

/-- A piece is read first, and then the ones behind it. -/
theorem stepsOfPieces_cons {piece : List Char} {later : List (List Char)} {rest : List Step}
    (hpiece : piece? piece = some steps) (hlater : stepsOfPieces later = .ok rest)
    (hsteps : ∀ step ∈ steps, step.Writable) : stepsOfPieces (piece :: later) = .ok (steps ++ rest) := by
  have hnegative : steps.any isNegativeIndex = false :=
    List.any_eq_false.2 fun step hstep => by simp [isNegativeIndex_eq_false (hsteps step hstep)]
  simp [stepsOfPieces, hpiece, hnegative, hlater, Except.map]

/-- The piece that a name starts, and the ones behind it. -/
theorem stepsOfPieces_name {first : List Char} {later : List (List Char)} (hs : (Step.name s).Writable)
    (hsteps : ∀ step ∈ steps, step.Writable) (h : GoesOn cs steps first later) :
    stepsOfPieces ((s.toList ++ first) :: later) = .ok (.name s :: steps) := by
  obtain ⟨indices, rest, hindices, hrest, rfl⟩ := h.read
  refine stepsOfPieces_cons (piece?_append hs h.head hindices) hrest ?_
  exact List.forall_mem_cons.2 ⟨hs, fun step hstep => hsteps step (List.mem_append_left _ hstep)⟩

/-- The text of the steps behind the first one goes on with them. -/
theorem goesOn_renderRest (h : ∀ step ∈ steps, step.Writable) :
    ∃ first later, GoesOn (renderRest steps).toList steps first later := by
  induction steps with
  | nil => exact ⟨[], [], rfl, by simp, [], [], rfl, rfl, rfl⟩
  | cons step steps ih =>
    obtain ⟨first, later, hon⟩ := ih fun step hstep => h step (List.mem_cons_of_mem _ hstep)
    have hstep := h step List.mem_cons_self
    cases step with
    | name s =>
      -- a new piece starts, which this name and the indices behind it make up
      have hpieces := pieces_append (not_mem_of_plain hstep) hon.pieces
      refine ⟨[], (s.toList ++ first) :: later, ?_, by simp, [], .name s :: steps, rfl, ?_, rfl⟩
      · rw [toList_renderRest_name, pieces_dot, hpieces]
      · exact stepsOfPieces_name hstep (fun step hstep => h step (List.mem_cons_of_mem _ hstep)) hon
    | index i =>
      obtain ⟨indices, rest, hindices, hrest, rfl⟩ := hon.read
      refine ⟨(Step.index i).render.toList ++ first, later, ?_, ?_, .index i :: indices, rest, ?_, hrest, rfl⟩
      · rw [toList_renderRest_index, pieces_append (not_mem_render_index hstep) hon.pieces]
      · obtain ⟨n, rfl⟩ := Int.eq_ofNat_of_zero_le hstep.1
        rw [toList_render_index]
        rintro c hc
        rw [← Option.some.inj hc]
        decide
      · rw [indicesFrom?_render hstep, hindices]
        rfl

end Pieces

section Reading

variable {p : Path} {steps : List Step} {text : String}

theorem dropSlash_of_ne {c : Char} {cs : List Char} (h : c ≠ '/') : dropSlash (c :: cs) = c :: cs := by
  rw [dropSlash, if_neg h]

/-- A path whose steps can all be written is read again from its text. -/
theorem parse_render (h : p.Writable) : parse p.render = .ok p := by
  obtain ⟨steps⟩ := p
  cases steps with
  | nil => rfl
  | cons step rest =>
    have hstep := h step List.mem_cons_self
    have hrest : ∀ step ∈ rest, step.Writable := fun step hmem => h step (List.mem_cons_of_mem _ hmem)
    obtain ⟨first, later, hon⟩ := goesOn_renderRest hrest
    have htext : (render ⟨step :: rest⟩).toList = step.render.toList ++ (renderRest rest).toList := by simp [render]
    have hread (c : Char) (cs : List Char) (hhead : step.render.toList = c :: cs) (hc : c ≠ '/')
        (hsteps : stepsOfPieces (pieces (step.render.toList ++ (renderRest rest).toList)) = .ok (step :: rest)) :
        parse (render ⟨step :: rest⟩) = .ok ⟨step :: rest⟩ := by
      have hdrop : dropSlash (render ⟨step :: rest⟩).toList = step.render.toList ++ (renderRest rest).toList := by
        rw [htext, hhead, List.cons_append, dropSlash_of_ne hc]
      rw [parse, hdrop, if_neg (by simp [hhead]), hsteps]
      rfl
    cases step with
    | name s =>
      obtain ⟨-, hne⟩ := takeName_of_writable hstep
      obtain ⟨c, cs, hcs⟩ := List.exists_cons_of_ne_nil hne
      have hc : isNamePart c = true := isNamePart_of_writable hstep c (by simp [hcs])
      refine hread c cs hcs (fun hslash => ?_) ?_
      · rw [hslash] at hc
        exact absurd hc (by decide)
      · rw [show (Step.name s).render = s from rfl, pieces_append (not_mem_of_plain hstep) hon.pieces]
        exact stepsOfPieces_name hstep hrest hon
    | index i =>
      obtain ⟨indices, others, hindices, hothers, rfl⟩ := hon.read
      have hhead : ∃ cs, (Step.index i).render.toList = '[' :: cs := ⟨(toString i ++ "]").toList, by simp [Step.render]⟩
      obtain ⟨cs, hcs⟩ := hhead
      refine hread '[' cs hcs (by decide) ?_
      rw [pieces_append (not_mem_render_index hstep) hon.pieces]
      have htake : takeName ((Step.index i).render.toList ++ first) = ([], (Step.index i).render.toList ++ first) := by
        rw [hcs, List.cons_append, takeName, if_neg (by decide)]
      have hpiece : piece? ((Step.index i).render.toList ++ first) = some (.index i :: indices) := by
        refine piece?_eq_some.2 ⟨by simp, .index i :: indices, ?_⟩
        rw [htake]
        exact ⟨by rw [indicesFrom?_render hstep, hindices]; rfl, rfl⟩
      refine stepsOfPieces_cons hpiece hothers (List.forall_mem_cons.2 ⟨hstep, fun step hmem => ?_⟩)
      exact hrest step (List.mem_append_left _ hmem)

/-- What a piece is read as can be written, apart from negative indices. -/
theorem writable_of_piece? {piece : List Char} (h : piece? piece = some steps)
    (hnegative : steps.any isNegativeIndex = false) : ∀ step ∈ steps, step.Writable := by
  obtain ⟨-, indices, hindices, rfl⟩ := piece?_eq_some.1 h
  intro step hstep
  rcases List.mem_append.1 hstep with hname | hindex
  · unfold nameSteps at hname
    split at hname
    · cases hname
    next hne =>
      obtain rfl := List.mem_singleton.1 hname
      have htake := takeName_fst piece
      refine piece?_eq_some.2 ⟨by simp, [], ?_, ?_⟩
      · rw [String.toList_ofList, htake]
        rfl
      · rw [String.toList_ofList, htake, nameSteps, if_neg hne]
        rfl
  · obtain ⟨body, i, hread, rfl⟩ := mem_indicesFrom? hindices hindex
    have hi := List.any_eq_false.1 hnegative _ hstep
    simp only [isNegativeIndex, decide_eq_true_eq] at hi
    exact ⟨by omega, lt_of_index? hread⟩

theorem writable_of_stepsOfPieces {pieces : List (List Char)} (h : stepsOfPieces pieces = .ok steps) :
    ∀ step ∈ steps, step.Writable := by
  induction pieces generalizing steps with
  | nil =>
    obtain rfl := Except.ok.inj h
    simp
  | cons piece later ih =>
    rw [stepsOfPieces] at h
    split at h
    · cases h
    next first hpiece =>
      split at h
      · cases h
      next hnegative =>
        cases hlater : stepsOfPieces later with
        | error =>
          rw [hlater] at h
          cases h
        | ok rest =>
          rw [hlater] at h
          obtain rfl := Except.ok.inj h
          intro step hstep
          rcases List.mem_append.1 hstep with hstep | hstep
          · exact writable_of_piece? hpiece (Bool.not_eq_true _ ▸ hnegative) step hstep
          · exact ih hlater step hstep

/-- Reading a text yields steps only that can be written. -/
theorem writable_of_parse (h : parse text = .ok p) : p.Writable := by
  unfold parse at h
  dsimp only at h
  split at h
  · obtain rfl := Except.ok.inj h
    exact fun step hstep => absurd hstep List.not_mem_nil
  · cases hsteps : stepsOfPieces (pieces (dropSlash text.toList)) with
    | error =>
      rw [hsteps] at h
      cases h
    | ok steps =>
      rw [hsteps] at h
      obtain rfl := Except.ok.inj h
      exact writable_of_stepsOfPieces hsteps

/-- Paths that can be written have different texts. -/
theorem eq_of_render_eq {q : Path} (hp : p.Writable) (hq : q.Writable) (h : p.render = q.render) : p = q :=
  Except.ok.inj ((parse_render hp).symm.trans (h ▸ parse_render hq))

end Reading

end Path

end LiveForm
