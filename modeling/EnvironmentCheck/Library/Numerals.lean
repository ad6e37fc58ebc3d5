import Mathlib.Data.Nat.Digits.Lemmas

namespace EnvironmentCheck

namespace Numerals

/-- The digits of a number as it is printed, the first one first. -/
def numeral (base n : ℕ) : List ℕ :=
  if n = 0 then [0] else (Nat.digits base n).reverse

def value (base : ℕ) (ds : List ℕ) : ℕ :=
  ds.foldl (fun v d => v * base + d) 0

variable {base n : ℕ}

theorem numeral_zero (base : ℕ) : numeral base 0 = [0] :=
  rfl

theorem value_numeral (base n : ℕ) : value base (numeral base n) = n := by
  by_cases hn : n = 0
  · rw [hn, numeral_zero]
    exact Nat.zero_mul base
  · have hdigits := Nat.ofDigits_digits base n
    rw [Nat.ofDigits_eq_foldr] at hdigits
    rw [value, numeral, if_neg hn, List.foldl_reverse]
    refine Eq.trans ?_ hdigits
    congr 1
    funext d v
    rw [Nat.mul_comm, Nat.add_comm, Nat.cast_id]

theorem value_zero_cons (base : ℕ) (ds : List ℕ) : value base (0 :: ds) = value base ds := by
  rw [value, List.foldl_cons, Nat.zero_mul, Nat.zero_add, value]

theorem value_append_zeros (base k : ℕ) (ds : List ℕ) :
    value base (List.replicate k 0 ++ ds) = value base ds := by
  induction k with
  | zero => rfl
  | succ k ih => rw [List.replicate_succ, List.cons_append, value_zero_cons, ih]

theorem lt_of_mem_numeral (hbase : 1 < base) {d : ℕ} (h : d ∈ numeral base n) : d < base := by
  rw [numeral] at h
  split at h
  · rw [List.mem_singleton.mp h]
    omega
  · exact Nat.digits_lt_base hbase (List.mem_reverse.mp h)

theorem numeral_cases (base n : ℕ) :
    n = 0 ∧ numeral base n = [0] ∨ ∃ d ds, numeral base n = d :: ds ∧ d ≠ 0 := by
  by_cases hn : n = 0
  · exact Or.inl ⟨hn, by rw [hn, numeral_zero]⟩
  · right
    have hne := Nat.digits_ne_nil_iff_ne_zero (b := base) |>.mpr hn
    refine ⟨_, (Nat.digits base n).dropLast.reverse, ?_, Nat.getLast_digit_ne_zero base hn⟩
    rw [numeral, if_neg hn]
    conv_lhs => rw [← List.dropLast_append_getLast hne, List.reverse_append]
    rfl

theorem exists_numeral_eq_cons (base n : ℕ) : ∃ d ds, numeral base n = d :: ds := by
  obtain ⟨_, h⟩ | ⟨d, ds, h, _⟩ := numeral_cases base n
  · exact ⟨0, [], h⟩
  · exact ⟨d, ds, h⟩

theorem length_numeral_le (hbase : 1 < base) {k : ℕ} (hk : 0 < k) (h : n < base ^ k) :
    (numeral base n).length ≤ k := by
  rw [numeral]
  split
  · exact hk
  · rw [List.length_reverse]
    exact (Nat.digits_length_le_iff hbase n).mpr h

/-! ### Reading -/

variable {α : Type*} (digit : α → Option ℕ)

/-- The digits that a text begins with, and what follows them. -/
def digitsOf : List α → List ℕ × List α
  | [] => ([], [])
  | c :: s =>
    match digit c with
    | some d => (d :: (digitsOf s).1, (digitsOf s).2)
    | none => ([], c :: s)

variable {digit} {render : ℕ → α}

theorem digitsOf_append (ds : List ℕ) (hds : ∀ d ∈ ds, digit (render d) = some d) {rest : List α}
    (hrest : ∀ c ∈ rest.head?, digit c = none) :
    digitsOf digit (ds.map render ++ rest) = (ds, rest) := by
  induction ds with
  | nil =>
    cases rest with
    | nil => rfl
    | cons c rest =>
      have hc := hrest c rfl
      simp only [List.map_nil, List.nil_append, digitsOf, hc]
  | cons d ds ih =>
    have hd := hds d List.mem_cons_self
    have htail := ih fun e he => hds e (List.mem_cons_of_mem d he)
    simp only [List.map_cons, List.cons_append, digitsOf, hd, htail]

/-- A text of digits and nothing else. -/
theorem mapM_digit {ds : List ℕ} (hds : ∀ d ∈ ds, digit (render d) = some d) :
    (ds.map render).mapM digit = some ds := by
  induction ds with
  | nil => rfl
  | cons d ds ih =>
    have hd := hds d List.mem_cons_self
    have htail := ih fun e he => hds e (List.mem_cons_of_mem d he)
    rw [List.map_cons, List.mapM_cons, hd, htail]
    rfl

end Numerals

end EnvironmentCheck
