import Mathlib.Data.Set.Insert
import Mathlib.Logic.Function.Basic

namespace EnvironmentCheck

/-- Live members, each of which owns others, is owned by one other, or stands alone. -/
@[ext] structure OwnerForest (α : Type*) where
  live : Set α
  owner : α → Option α
  owned_live : ∀ {x o}, owner x = some o → x ∈ live
  owner_live : ∀ {x o}, owner x = some o → o ∈ live
  owner_root : ∀ {x o}, owner x = some o → owner o = none

namespace OwnerForest

variable {α : Type*} (F : OwnerForest α) {x : α}

def Owns (o x : α) : Prop := F.owner x = some o

def IsOwner (o : α) : Prop := ∃ x, F.Owns o x

def IsOwned (x : α) : Prop := ∃ o, F.Owns o x

def root (x : α) : α := (F.owner x).getD x

theorem not_owns_self (x : α) : ¬ F.Owns x x := by
  intro h
  have hn : F.owner x = none := F.owner_root h
  rw [show F.owner x = some x from h] at hn
  cases hn

theorem not_isOwned_of_isOwner (h : F.IsOwner x) : ¬ F.IsOwned x := by
  obtain ⟨y, hy⟩ := h
  rintro ⟨o, ho⟩
  have hn : F.owner x = none := F.owner_root hy
  rw [show F.owner x = some o from ho] at hn
  cases hn

theorem root_eq_self (h : F.owner x = none) : F.root x = x := by simp [root, h]

theorem root_of_owns {o : α} (h : F.Owns o x) : F.root x = o := by
  simp [root, show F.owner x = some o from h]

theorem owner_root_eq_none (x : α) : F.owner (F.root x) = none := by
  cases h : F.owner x with
  | none => rw [F.root_eq_self h, h]
  | some o => rw [F.root_of_owns h, F.owner_root h]

theorem root_live (h : x ∈ F.live) : F.root x ∈ F.live := by
  cases ho : F.owner x with
  | none => rwa [F.root_eq_self ho]
  | some o => rw [F.root_of_owns ho]; exact F.owner_live ho

/-- Two members that one other owns. -/
def Siblings (x y : α) : Prop := x ≠ y ∧ ∃ o, F.Owns o x ∧ F.Owns o y

theorem root_eq_iff {y : α} :
    F.root x = F.root y ↔ (x = y ∨ F.Owns x y ∨ F.Owns y x) ∨ F.Siblings x y := by
  constructor
  · intro h
    cases hx : F.owner x with
    | none =>
      rw [F.root_eq_self hx] at h
      cases hy : F.owner y with
      | none =>
        rw [F.root_eq_self hy] at h
        exact .inl (.inl h)
      | some o =>
        rw [F.root_of_owns hy] at h
        exact .inl (.inr (.inl (h ▸ hy)))
    | some p =>
      rw [F.root_of_owns hx] at h
      cases hy : F.owner y with
      | none =>
        rw [F.root_eq_self hy] at h
        exact .inl (.inr (.inr (h ▸ hx)))
      | some o =>
        rw [F.root_of_owns hy] at h
        subst h
        by_cases hxy : x = y
        · exact .inl (.inl hxy)
        · exact .inr ⟨hxy, p, hx, hy⟩
  · rintro ((rfl | h | h) | ⟨-, o, hx, hy⟩)
    · rfl
    · rw [F.root_of_owns h, F.root_eq_self (F.owner_root h)]
    · rw [F.root_of_owns h, F.root_eq_self (F.owner_root h)]
    · rw [F.root_of_owns hx, F.root_of_owns hy]

theorem not_related_of_siblings {y : α} (h : F.Siblings x y) :
    ¬ (x = y ∨ F.Owns x y ∨ F.Owns y x) := by
  obtain ⟨hne, o, hx, hy⟩ := h
  rintro (he | howns | howns)
  · exact hne he
  · exact F.not_isOwned_of_isOwner ⟨y, howns⟩ ⟨o, hx⟩
  · exact F.not_isOwned_of_isOwner ⟨x, howns⟩ ⟨o, hy⟩

def empty : OwnerForest α where
  live := ∅
  owner _ := none
  owned_live h := by cases h
  owner_live h := by cases h
  owner_root h := by cases h

def add (x : α) : OwnerForest α where
  live := insert x F.live
  owner := F.owner
  owned_live h := .inr (F.owned_live h)
  owner_live h := .inr (F.owner_live h)
  owner_root := F.owner_root

section Steps

variable [DecidableEq α]

def link {o x : α} (ho : o ∈ F.live) (hx : x ∈ F.live) (hne : o ≠ x) (hroot : F.owner o = none)
    (hleaf : ¬ F.IsOwner x) : OwnerForest α where
  live := F.live
  owner := Function.update F.owner x (some o)
  owned_live {y p} h := by
    by_cases hy : y = x
    · exact hy ▸ hx
    · rw [Function.update_of_ne hy] at h
      exact F.owned_live h
  owner_live {y p} h := by
    by_cases hy : y = x
    · rw [hy, Function.update_self, Option.some.injEq] at h
      exact h ▸ ho
    · rw [Function.update_of_ne hy] at h
      exact F.owner_live h
  owner_root {y p} h := by
    by_cases hy : y = x
    · rw [hy, Function.update_self, Option.some.injEq] at h
      rw [← h, Function.update_of_ne hne, hroot]
    · rw [Function.update_of_ne hy] at h
      have hp : p ≠ x := fun he => hleaf ⟨y, he ▸ h⟩
      rw [Function.update_of_ne hp, F.owner_root h]

def unlink (x : α) : OwnerForest α where
  live := F.live
  owner := Function.update F.owner x none
  owned_live {y p} h := by
    by_cases hy : y = x
    · simp [hy] at h
    · rw [Function.update_of_ne hy] at h
      exact F.owned_live h
  owner_live {y p} h := by
    by_cases hy : y = x
    · simp [hy] at h
    · rw [Function.update_of_ne hy] at h
      exact F.owner_live h
  owner_root {y p} h := by
    by_cases hy : y = x
    · simp [hy] at h
    · rw [Function.update_of_ne hy] at h
      by_cases hp : p = x
      · rw [hp, Function.update_self]
      · rw [Function.update_of_ne hp, F.owner_root h]

def remove (r : α) : OwnerForest α where
  live := {y ∈ F.live | y ≠ r ∧ F.owner y ≠ some r}
  owner y := if y = r ∨ F.owner y = some r then none else F.owner y
  owned_live {y p} h := by
    split_ifs at h with hy
    rw [not_or] at hy
    exact ⟨F.owned_live h, hy⟩
  owner_live {y p} h := by
    split_ifs at h with hy
    rw [not_or] at hy
    refine ⟨F.owner_live h, fun he => hy.2 (he ▸ h), ?_⟩
    simp [F.owner_root h]
  owner_root {y p} h := by
    split_ifs at h with hy
    simp [F.owner_root h]

end Steps

inductive Step {α : Type*} [DecidableEq α] (F : OwnerForest α) : OwnerForest α → Prop where
  | stay : Step F F
  | add (x : α) : x ∉ F.live → Step F (F.add x)
  | link {o x : α} (ho : o ∈ F.live) (hx : x ∈ F.live) (hne : o ≠ x) (hroot : F.owner o = none)
      (hleaf : ¬ F.IsOwner x) : F.owner x = none → Step F (F.link ho hx hne hroot hleaf)
  | unlink (o x : α) : F.Owns o x → Step F (F.unlink x)
  | remove (r : α) : F.owner r = none → Step F (F.remove r)

end OwnerForest

end EnvironmentCheck
