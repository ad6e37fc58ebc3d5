import Mathlib.Order.Interval.Finset.Nat
import Mathlib.Algebra.BigOperators.Group.Finset.Piecewise
import Mathlib.Data.Fintype.Basic
import Mathlib.Data.List.ReduceOption

namespace EnvironmentCheck

variable {ι α M : Type*} [Fintype ι] [DecidableEq ι] [AddCommMonoid M]

theorem sum_update_add (f : ι → α) (g : α → M) (i : ι) (a : α) :
    ∑ j, g (Function.update f i a j) + g (f i) = ∑ j, g (f j) + g a := by
  have hafter := Finset.add_sum_erase Finset.univ (fun j => g (Function.update f i a j))
    (Finset.mem_univ i)
  have hbefore := Finset.add_sum_erase Finset.univ (fun j => g (f j)) (Finset.mem_univ i)
  have hothers : ∑ j ∈ Finset.univ.erase i, g (Function.update f i a j) =
      ∑ j ∈ Finset.univ.erase i, g (f j) := by
    apply Finset.sum_congr rfl
    intro j hj
    rw [Function.update_of_ne (Finset.ne_of_mem_erase hj)]
  rw [Function.update_self, hothers] at hafter
  rw [← hafter, ← hbefore]
  ac_rfl

theorem countP_set_add {β : Type*} (p : β → Bool) {xs : List β} {i : ℕ} {y : β}
    (h : xs[i]? = some y) (x : β) :
    (xs.set i x).countP p + (if p y then 1 else 0) = xs.countP p + if p x then 1 else 0 := by
  induction xs generalizing i with
  | nil => cases h
  | cons z zs ih =>
    cases i with
    | zero =>
      obtain rfl : z = y := Option.some.inj h
      rw [List.set_cons_zero, List.countP_cons, List.countP_cons]
      omega
    | succ i =>
      have hrest := ih (i := i) h
      rw [List.set_cons_succ, List.countP_cons, List.countP_cons]
      omega

theorem count_flatMap_set_add {α β : Type*} [DecidableEq β] (f : α → List β) {xs : List α} {i : ℕ}
    {y : α} (h : xs[i]? = some y) (x : α) (b : β) :
    ((xs.set i x).flatMap f).count b + (f y).count b = (xs.flatMap f).count b + (f x).count b := by
  induction xs generalizing i with
  | nil => cases h
  | cons z zs ih =>
    cases i with
    | zero =>
      obtain rfl : z = y := Option.some.inj h
      rw [List.set_cons_zero, List.flatMap_cons, List.flatMap_cons, List.count_append,
        List.count_append]
      omega
    | succ i =>
      have hrest := ih (i := i) h
      rw [List.set_cons_succ, List.flatMap_cons, List.flatMap_cons, List.count_append,
        List.count_append]
      omega

theorem flatMap_set_perm {α β : Type*} (f : α → List β) {xs : List α} {i : ℕ} (h : i < xs.length)
    (x : α) {e : α} (he : f e = []) :
    ((xs.set i x).flatMap f).Perm (f x ++ (xs.set i e).flatMap f) := by
  rw [List.set_eq_take_append_cons_drop, if_pos h, List.set_eq_take_append_cons_drop, if_pos h]
  simp only [List.flatMap_append, List.flatMap_cons, he, List.nil_append]
  rw [← List.append_assoc, ← List.append_assoc]
  exact List.perm_append_comm.append_right _

theorem flatMap_perm_cons {α β : Type*} {f g : α → List β} {xs : List α} {y : α} {b : β}
    (hn : xs.Nodup) (hy : y ∈ xs) (hfy : (f y).Perm (b :: g y)) (hf : ∀ x, x ≠ y → f x = g x) :
    (xs.flatMap f).Perm (b :: xs.flatMap g) := by
  induction xs with
  | nil => cases hy
  | cons x xs ih =>
    rw [List.nodup_cons] at hn
    rw [List.flatMap_cons, List.flatMap_cons]
    by_cases hx : x = y
    · subst hx
      have hrest : xs.flatMap f = xs.flatMap g := by
        apply List.flatMap_congr
        intro z hz
        apply hf
        rintro rfl
        exact hn.1 hz
      rw [hrest]
      exact hfy.append_right _
    · have hmem : y ∈ xs := (List.mem_cons.mp hy).resolve_left (Ne.symm hx)
      rw [hf x hx]
      exact ((ih hn.2 hmem).append_left _).trans List.perm_middle

theorem reduceOption_perm {β : Type*} {xs : List (Option β)} {i : ℕ} {p : β}
    (hi : xs[i]? = some (some p)) :
    xs.reduceOption.Perm (p :: (xs.set i none).reduceOption) := by
  induction xs generalizing i with
  | nil => cases hi
  | cons x xs ih =>
    cases i with
    | zero =>
      obtain rfl : x = some p := Option.some.inj hi
      exact List.Perm.refl _
    | succ i =>
      have hrest := ih (i := i) hi
      cases x with
      | none => exact hrest
      | some q =>
        rw [List.set_cons_succ, List.reduceOption_cons_of_some, List.reduceOption_cons_of_some]
        exact (hrest.cons q).trans (List.Perm.swap p q _)

theorem reduceOption_set_perm {β : Type*} {xs : List (Option β)} {i : ℕ} {x : Option β}
    (hi : xs[i]? = some x) (q : β) :
    (q :: (xs.set i none).reduceOption).Perm (xs.set i (some q)).reduceOption := by
  have hlt := (List.getElem?_eq_some_iff.mp hi).1
  have hperm := reduceOption_perm (List.getElem?_set_self hlt (a := some q))
  rw [List.set_set] at hperm
  exact hperm.symm

theorem reduceOption_append_perm {β : Type*} (xs : List (Option β)) (p : β) :
    (p :: xs.reduceOption).Perm (xs ++ [some p]).reduceOption := by
  rw [List.reduceOption_append]
  exact (List.perm_append_singleton p xs.reduceOption).symm

theorem length_le_of_increasing {ns : List ℕ} {m : ℕ} (hinc : ns.Pairwise (· < ·))
    (hle : ∀ n ∈ ns, 0 < n ∧ n ≤ m) : ns.length ≤ m := by
  have hsub : ns.toFinset ⊆ Finset.Icc 1 m := by
    intro n hn
    exact Finset.mem_Icc.mpr (hle n (List.mem_toFinset.mp hn))
  have hcard := Finset.card_le_card hsub
  have hnodup : ns.Nodup := hinc.imp fun hlt => hlt.ne
  rw [List.toFinset_card_of_nodup hnodup, Nat.card_Icc] at hcard
  omega

end EnvironmentCheck
