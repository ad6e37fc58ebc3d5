import Mathlib.Order.Basic

namespace EnvironmentCheck

/-- What Java's tables say of a character. -/
structure JavaText where
  upper : Char → Char
  lower : Char → Char
  digit : ℕ → Char → Option ℕ
  upper_ascii : ∀ n < 128, upper (Char.ofNat n) = (Char.ofNat n).toUpper
  lower_ascii : ∀ n < 128, lower (Char.ofNat n) = (Char.ofNat n).toLower
  digit_ascii : ∀ d < 10, digit 10 (Char.ofNat (48 + d)) = some d

def asciiText : JavaText where
  upper := Char.toUpper
  lower := Char.toLower
  digit radix c :=
    if c.isDigit ∧ c.toNat - 48 < radix then some (c.toNat - 48)
    else if c.isAlpha ∧ c.toLower.toNat - 87 < radix then some (c.toLower.toNat - 87)
    else none
  upper_ascii _ _ := rfl
  lower_ascii _ _ := rfl
  digit_ascii := by decide

variable (java : JavaText)

def sameIgnoringCase (c d : Char) : Bool :=
  c = d ∨ java.upper c = java.upper d ∨
    java.lower (java.upper c) = java.lower (java.upper d)

def equalsIgnoreCase : List Char → List Char → Bool
  | [], [] => true
  | c :: s, d :: t => sameIgnoringCase java c d && equalsIgnoreCase s t
  | _, _ => false

variable {java}

theorem length_eq_of_equalsIgnoreCase {s t : List Char} (h : equalsIgnoreCase java s t = true) :
    s.length = t.length := by
  induction s generalizing t with
  | nil =>
    cases t with
    | nil => rfl
    | cons d t => cases h
  | cons c s ih =>
    cases t with
    | nil => cases h
    | cons d t =>
      rw [equalsIgnoreCase, Bool.and_eq_true] at h
      rw [List.length_cons, List.length_cons, ih h.2]

end EnvironmentCheck
