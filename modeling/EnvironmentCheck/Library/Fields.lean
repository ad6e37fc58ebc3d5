import Mathlib.Order.Basic

namespace EnvironmentCheck

namespace Fields

variable {α : Type*} [DecidableEq α] {sep c : α} {fields : List (List α)}

/-- What stands between two separators of a line is one of its fields. -/
theorem fields_of_append_eq (hfields : ∀ f ∈ fields, sep ∉ f) (hne : fields ≠ [])
    {pre y post : List α} (hy : sep ∉ y)
    (h : pre ++ sep :: (y ++ sep :: post) = [sep].intercalate fields) :
    fields = pre.splitOn sep ++ y :: post.splitOn sep := by
  have hsplit := List.splitOn_intercalate sep hfields hne
  rw [← h, List.splitOn_append_cons_self, List.splitOn_append_cons_self_of_not_mem hy] at hsplit
  exact hsplit.symm

theorem exists_splitOn_concat (hc : c ≠ sep) (pre : List α) :
    ∃ init f, (pre ++ [c]).splitOn sep = init ++ [f ++ [c]] := by
  induction pre with
  | nil =>
    refine ⟨[], [], ?_⟩
    rw [List.nil_append, List.splitOn_eq_singleton (by simpa using hc.symm)]
    rfl
  | cons x pre ih =>
    obtain ⟨init, f, h⟩ := ih
    rw [List.cons_append, List.splitOn_cons_eq_if_modifyHead, h]
    split
    · exact ⟨[] :: init, f, rfl⟩
    · cases init with
      | nil => exact ⟨[], x :: f, rfl⟩
      | cons g init => exact ⟨(x :: g) :: init, f, rfl⟩

omit [DecidableEq α] in
theorem mem_of_mem_intercalate {x : α} (h : x ∈ [sep].intercalate fields) :
    x = sep ∨ ∃ f ∈ fields, x ∈ f := by
  induction fields with
  | nil => cases h
  | cons f fields ih =>
    cases fields with
    | nil =>
      rw [List.intercalate_singleton] at h
      exact Or.inr ⟨f, List.mem_cons_self, h⟩
    | cons g fields =>
      rw [List.intercalate_cons_cons, List.mem_append, List.mem_append, List.mem_singleton] at h
      obtain (hf | hsep) | hrest := h
      · exact Or.inr ⟨f, List.mem_cons_self, hf⟩
      · exact Or.inl hsep
      · obtain hsep | ⟨k, hk, hx⟩ := ih hrest
        · exact Or.inl hsep
        · exact Or.inr ⟨k, List.mem_cons_of_mem f hk, hx⟩

end Fields

end EnvironmentCheck
