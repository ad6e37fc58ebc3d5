import Mathlib.Order.Lattice

namespace EnvironmentCheck

/-- Elements in ascending order of their keys, no key twice: an ordered set where an element is its
own key, an ordered map where it is a pair keyed by its first component. -/
@[ext] structure Ordered {α κ : Type*} [LinearOrder κ] (key : α → κ) where
  elems : List α
  ascending : elems.Pairwise fun x y => key x < key y

abbrev OrderedSet (κ : Type*) [LinearOrder κ] := Ordered (id : κ → κ)

abbrev OrderedMap (κ β : Type*) [LinearOrder κ] := Ordered (Prod.fst : κ × β → κ)

namespace Ordered

variable {α κ : Type*} [LinearOrder κ] {key : α → κ}

instance : Membership α (Ordered key) := ⟨fun s x => x ∈ s.elems⟩

theorem mem_def {s : Ordered key} {x : α} : x ∈ s ↔ x ∈ s.elems := Iff.rfl

instance [DecidableEq α] (s : Ordered key) (x : α) : Decidable (x ∈ s) :=
  inferInstanceAs (Decidable (x ∈ s.elems))

def empty : Ordered key := ⟨[], .nil⟩

def isEmpty (s : Ordered key) : Bool := s.elems.isEmpty

def insertList (key : α → κ) (x : α) : List α → List α
  | [] => [x]
  | y :: ys =>
    if key x < key y then x :: y :: ys
    else if key x = key y then x :: ys
    else y :: insertList key x ys

theorem mem_insertList {x y : α} {xs : List α} (h : xs.Pairwise fun x y => key x < key y) :
    y ∈ insertList key x xs ↔ y = x ∨ (y ∈ xs ∧ key y ≠ key x) := by
  induction xs with
  | nil => simp [insertList]
  | cons z zs ih =>
    have hz : ∀ w ∈ zs, key z < key w := fun w hw => List.rel_of_pairwise_cons h hw
    unfold insertList
    split_ifs with hlt heq
    · have hne : ∀ w ∈ z :: zs, key w ≠ key x := by
        intro w hw
        rcases List.mem_cons.mp hw with rfl | hw
        · exact hlt.ne'
        · exact (hlt.trans (hz w hw)).ne'
      rw [List.mem_cons]
      exact or_congr_right ⟨fun hw => ⟨hw, hne y hw⟩, fun hw => hw.1⟩
    · simp only [List.mem_cons, heq]
      constructor
      · rintro (rfl | hy)
        · exact .inl rfl
        · exact .inr ⟨.inr hy, (hz y hy).ne'⟩
      · rintro (rfl | ⟨rfl | hy, hne⟩)
        · exact .inl rfl
        · exact absurd rfl hne
        · exact .inr hy
    · simp only [List.mem_cons, ih h.of_cons]
      constructor
      · rintro (rfl | rfl | hy)
        · exact .inr ⟨.inl rfl, fun he => heq he.symm⟩
        · exact .inl rfl
        · exact .inr ⟨.inr hy.1, hy.2⟩
      · rintro (rfl | ⟨rfl | hy, hne⟩)
        · exact .inr (.inl rfl)
        · exact .inl rfl
        · exact .inr (.inr ⟨hy, hne⟩)

theorem insertList_ascending {x : α} {xs : List α} (h : xs.Pairwise fun x y => key x < key y) :
    (insertList key x xs).Pairwise fun x y => key x < key y := by
  induction xs with
  | nil => simp [insertList]
  | cons z zs ih =>
    have hz : ∀ w ∈ zs, key z < key w := fun w hw => List.rel_of_pairwise_cons h hw
    unfold insertList
    split_ifs with hlt heq
    · refine List.pairwise_cons.mpr ⟨fun w hw => ?_, h⟩
      rcases List.mem_cons.mp hw with rfl | hw
      · exact hlt
      · exact hlt.trans (hz w hw)
    · exact List.pairwise_cons.mpr ⟨fun w hw => heq ▸ hz w hw, h.of_cons⟩
    · refine List.pairwise_cons.mpr ⟨fun w hw => ?_, ih h.of_cons⟩
      rcases (mem_insertList h.of_cons).mp hw with rfl | ⟨hw, _⟩
      · exact lt_of_le_of_ne (not_lt.mp hlt) (fun he => heq he.symm)
      · exact hz w hw

def insert (s : Ordered key) (x : α) : Ordered key :=
  ⟨insertList key x s.elems, insertList_ascending s.ascending⟩

def erase (s : Ordered key) (k : κ) : Ordered key :=
  ⟨s.elems.filter (key · ≠ k), s.ascending.filter _⟩

@[simp] theorem mem_insert {s : Ordered key} {x y : α} :
    y ∈ s.insert x ↔ y = x ∨ (y ∈ s ∧ key y ≠ key x) :=
  mem_insertList s.ascending

@[simp] theorem mem_erase {s : Ordered key} {k : κ} {y : α} :
    y ∈ s.erase k ↔ y ∈ s ∧ key y ≠ k := by
  simp [mem_def, erase]

@[simp] theorem not_mem_empty {x : α} : x ∉ (empty : Ordered key) := List.not_mem_nil

@[simp] theorem isEmpty_iff {s : Ordered key} : s.isEmpty = true ↔ ∀ x, x ∉ s := by
  simp [isEmpty, mem_def, List.eq_nil_iff_forall_not_mem]

theorem nodup (s : Ordered key) : s.elems.Nodup :=
  s.ascending.imp fun h he => (he ▸ h).ne rfl

end Ordered

end EnvironmentCheck
