import LiveForm.Proofs.Path.Syntax

/-!
# Paths and their texts

Which steps the grammar of paths can write: names that are identifiers, and indices from zero up to the greatest one that
fits into 64 bits. The paths that consist of such steps and the texts that are read as paths correspond: every such path
is read from its text, and reading any text yields such a path.
-/

set_option autoImplicit false

namespace LiveForm

namespace Path

/-- A name starts with an ASCII letter or an underscore. Digits and hyphens may stand behind its first character, too. -/
def IsIdentifier (s : String) : Prop :=
  ∃ c rest, s.toList = c :: rest ∧ (c.isAlpha = true ∨ c = '_') ∧
    ∀ d ∈ rest, d.isAlphanum = true ∨ d = '_' ∨ d = '-'

variable {s : String} {c : Char}

theorem isNameStart_iff : isNameStart c = true ↔ c.isAlpha = true ∨ c = '_' := by
  simp [isNameStart]

theorem isNamePart_iff : isNamePart c = true ↔ c.isAlphanum = true ∨ c = '_' ∨ c = '-' := by
  simp [isNamePart, or_assoc]

/-- The grammar takes identifiers for names, and nothing else. -/
theorem writable_name_iff : (Step.name s).Writable ↔ IsIdentifier s := by
  constructor
  · intro h
    obtain ⟨htake, hne⟩ := takeName_of_writable h
    obtain ⟨c, rest, hcs⟩ := List.exists_cons_of_ne_nil hne
    have hparts := isNamePart_of_writable h
    rw [hcs] at htake hparts
    refine ⟨c, rest, hcs, ?_, fun d hd => isNamePart_iff.1 (hparts d (List.mem_cons_of_mem _ hd))⟩
    rw [← isNameStart_iff]
    by_contra hstart
    rw [takeName, if_neg hstart] at htake
    cases (Prod.mk.inj htake).1
  · rintro ⟨c, rest, hcs, hstart, hrest⟩
    have hparts : ∀ d ∈ rest, isNamePart d = true := fun d hd => isNamePart_iff.2 (hrest d hd)
    have htake : takeName s.toList = (s.toList, []) := by
      rw [hcs, takeName, if_pos (isNameStart_iff.2 hstart), List.takeWhile_eq_self_iff.2 hparts,
        List.dropWhile_eq_nil_iff.2 hparts]
    have hname : nameSteps s.toList = [.name s] := by
      rw [nameSteps, if_neg (by simp [hcs]), String.ofList_toList]
    refine piece?_eq_some.2 ⟨by simp, [], ?_, ?_⟩
    · rw [htake]
      rfl
    · rw [htake, hname, List.append_nil]

end Path

/-- A step is an identifier, or an index that is not negative and fits into 64 bits. -/
def Step.Plain : Step → Prop
  | name s => Path.IsIdentifier s
  | index i => 0 ≤ i ∧ i ≤ 2 ^ 63 - 1

/-- The steps that the grammar can write. -/
theorem Step.writable_iff_plain {step : Step} : step.Writable ↔ step.Plain := by
  cases step with
  | name s => exact Path.writable_name_iff
  | index i =>
    show 0 ≤ i ∧ i < 2 ^ 63 ↔ 0 ≤ i ∧ i ≤ 2 ^ 63 - 1
    omega

instance : DecidablePred Step.Plain := fun _ => decidable_of_iff _ Step.writable_iff_plain

namespace Path

/-- Paths of plain steps are read from their texts again, and whatever text is read as a path, the path has plain steps
only. So the text of a path that was read tells which one it is, and is read as that path. -/
theorem texts_of_plain_paths :
    (∀ steps : List Step, (∀ step ∈ steps, step.Plain) → parse (render ⟨steps⟩) = .ok ⟨steps⟩) ∧
    (∀ text p, parse text = .ok p → (∀ step ∈ p.steps, step.Plain) ∧ parse p.render = .ok p) ∧
    ∀ text text' p p', parse text = .ok p → parse text' = .ok p' → p.render = p'.render → p = p' := by
  refine ⟨fun steps hsteps => ?_, fun text p h => ?_, fun text text' p p' h h' hrender => ?_⟩
  · exact parse_render fun step hstep => Step.writable_iff_plain.2 (hsteps step hstep)
  · have hwritable := writable_of_parse h
    exact ⟨fun step hstep => Step.writable_iff_plain.1 (hwritable step hstep), parse_render hwritable⟩
  · exact eq_of_render_eq (writable_of_parse h) (writable_of_parse h') hrender

/-- A path that starts with indices, one of them the greatest there is, and goes on with a name of all sorts of
characters. -/
theorem text_of_index_path :
    render ⟨[.index 0, .index 9223372036854775807, .name "_a-9", .index 7]⟩ = "[0][9223372036854775807]._a-9[7]" ∧
      parse "[0][9223372036854775807]._a-9[7]" =
        .ok ⟨[.index 0, .index 9223372036854775807, .name "_a-9", .index 7]⟩ := by
  have hrender : render ⟨[.index 0, .index 9223372036854775807, .name "_a-9", .index 7]⟩ =
      "[0][9223372036854775807]._a-9[7]" := by cbv
  have hname : IsIdentifier "_a-9" := ⟨'_', ['a', '-', '9'], by cbv, by decide, by simp⟩
  have hplain : ∀ step ∈ [Step.index 0, .index 9223372036854775807, .name "_a-9", .index 7], step.Plain := by
    simp [Step.Plain, hname]
  refine ⟨hrender, ?_⟩
  rw [← hrender]
  exact texts_of_plain_paths.1 _ hplain

end Path

end LiveForm
