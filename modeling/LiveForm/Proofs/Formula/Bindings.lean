import LiveForm.Formula.Basic

/-!
# The bindings of a formula

A formula lists each of its bindings once.
-/

set_option autoImplicit false

namespace LiveForm

theorem nodup_eraseDups {α : Type} [BEq α] [LawfulBEq α] (l : List α) : l.eraseDups.Nodup := by
  induction hn : l.length using Nat.strongRecOn generalizing l with
  | ind n ih =>
    cases l with
    | nil => simp
    | cons b rest =>
      have hlt : (rest.filter fun c => !c == b).length < n := by
        have hle := List.length_filter_le (fun c => !c == b) rest
        simp only [List.length_cons] at hn
        omega
      rw [List.eraseDups_cons, List.nodup_cons]
      refine ⟨?_, ih _ hlt _ rfl⟩
      rw [List.mem_eraseDups, List.mem_filter]
      simp

namespace Formula

variable {args : List Argument} {id : BindingId}

theorem mem_bindingsOf : id ∈ bindingsOf args ↔ Argument.selector id ∈ args := by
  rw [bindingsOf, List.mem_eraseDups, List.mem_filterMap]
  constructor
  · rintro ⟨arg, harg, h⟩
    cases arg with
    | literal => simp at h
    | selector => simp_all
  · exact fun h => ⟨_, h, rfl⟩

theorem nodup_bindings (F : Formula) : F.bindings.Nodup :=
  nodup_eraseDups _

theorem mem_bindings {F : Formula} : id ∈ F.bindings ↔ Argument.selector id ∈ F.args :=
  mem_bindingsOf

end Formula

end LiveForm
