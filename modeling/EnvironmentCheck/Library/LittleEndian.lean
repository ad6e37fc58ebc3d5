import Mathlib.Data.Nat.Digits.Lemmas

namespace EnvironmentCheck.LittleEndian

def value (bytes : List UInt8) : ℕ := Nat.ofDigits 256 (bytes.map UInt8.toNat)

def bytes : ℕ → ℕ → List UInt8
  | 0, _ => []
  | n + 1, v => .ofNat v :: bytes n (v / 256)

def IsLowestBit (v p : ℕ) : Prop := v.testBit p = true ∧ ∀ j < p, v.testBit j = false

variable {xs ys : List UInt8} {n k v w p : ℕ}

theorem lt_of_mem_map_toNat {d : ℕ} (h : d ∈ xs.map UInt8.toNat) : d < 256 := by
  obtain ⟨b, -, rfl⟩ := List.mem_map.mp h
  exact b.toNat_lt

theorem value_cons (b : UInt8) : value (b :: xs) = b.toNat + 256 * value xs := Nat.ofDigits_cons ..

theorem value_lt (xs : List UInt8) : value xs < 256 ^ xs.length := by
  have h := Nat.ofDigits_lt_base_pow_length (b := 256) (l := xs.map UInt8.toNat) (by decide)
    fun _ => lt_of_mem_map_toNat
  rwa [List.length_map] at h

theorem value_take (xs : List UInt8) (k : ℕ) : value (xs.take k) = value xs % 256 ^ k := by
  rw [value, value, Nat.ofDigits_mod_pow_eq_ofDigits_take k (by decide) _
    fun _ => lt_of_mem_map_toNat, List.map_take]

theorem value_drop (xs : List UInt8) (k : ℕ) : value (xs.drop k) = value xs / 256 ^ k := by
  rw [value, value, Nat.ofDigits_div_pow_eq_ofDigits_drop k (by decide) _
    fun _ => lt_of_mem_map_toNat, List.map_drop]

theorem value_inj (hlength : xs.length = ys.length) (h : value xs = value ys) : xs = ys := by
  have hmap := Nat.ofDigits_inj_of_len_eq (b := 256) (by decide)
    (by rw [List.length_map, List.length_map, hlength]) (fun _ => lt_of_mem_map_toNat)
    (fun _ => lt_of_mem_map_toNat) h
  exact List.map_injective_iff.mpr (fun _ _ => UInt8.toNat_inj.mp) hmap

@[simp] theorem length_bytes (n v : ℕ) : (bytes n v).length = n := by
  induction n generalizing v with
  | zero => rfl
  | succ n ih => rw [bytes, List.length_cons, ih]

theorem value_bytes (h : v < 256 ^ n) : value (bytes n v) = v := by
  induction n generalizing v with
  | zero =>
    obtain rfl : v = 0 := by
      rw [pow_zero] at h
      omega
    rfl
  | succ n ih =>
    have hdiv : v / 256 < 256 ^ n := by
      rw [pow_succ] at h
      exact Nat.div_lt_of_lt_mul (by rwa [mul_comm])
    rw [bytes, value_cons, ih hdiv, UInt8.toNat_ofNat']
    omega

theorem take_bytes (h : k ≤ n) : (bytes n v).take k = bytes k v := by
  induction k generalizing n v with
  | zero => rfl
  | succ k ih =>
    obtain ⟨m, rfl⟩ : ∃ m, n = m + 1 := ⟨n - 1, by omega⟩
    rw [bytes, bytes, List.take_succ_cons, ih (by omega)]

theorem mod_eq_of_lowest (h : IsLowestBit (v ^^^ w) p) (hk : 8 * k ≤ p) :
    v % 256 ^ k = w % 256 ^ k := by
  have hpow : 256 ^ k = 2 ^ (8 * k) := (pow_mul 2 8 k).symm
  rw [hpow]
  apply Nat.eq_of_testBit_eq
  intro j
  rw [Nat.testBit_mod_two_pow, Nat.testBit_mod_two_pow]
  by_cases hj : j < 8 * k
  · have hsame := h.2 j (hj.trans_le hk)
    rw [Nat.testBit_xor, bne_eq_false_iff_eq] at hsame
    rw [hsame]
  · simp [hj]

theorem mod_ne_of_lowest (h : IsLowestBit (v ^^^ w) p) (hk : p < 8 * k) :
    v % 256 ^ k ≠ w % 256 ^ k := by
  intro hmod
  have hpow : 256 ^ k = 2 ^ (8 * k) := (pow_mul 2 8 k).symm
  have hbit := congrArg (Nat.testBit · p) hmod
  simp only [hpow, Nat.testBit_mod_two_pow, hk, decide_true, Bool.true_and] at hbit
  have hdiffer := h.1
  rw [Nat.testBit_xor, hbit, Bool.xor_self] at hdiffer
  cases hdiffer

/-- The lowest bit in which two words differ lies in the first byte in which they do. -/
theorem first_difference (hlength : xs.length = ys.length)
    (h : IsLowestBit (value xs ^^^ value ys) p) :
    xs.take (p / 8) = ys.take (p / 8) ∧ xs.take (p / 8 + 1) ≠ ys.take (p / 8 + 1) ∧
      p / 8 < xs.length := by
  have hne : xs.take (p / 8 + 1) ≠ ys.take (p / 8 + 1) := by
    intro htake
    have hvalue := congrArg value htake
    rw [value_take, value_take] at hvalue
    exact mod_ne_of_lowest h (by omega) hvalue
  have heq : xs.take (p / 8) = ys.take (p / 8) := by
    apply value_inj
    · rw [List.length_take, List.length_take, hlength]
    · rw [value_take, value_take, mod_eq_of_lowest h (by omega)]
  refine ⟨heq, hne, ?_⟩
  by_contra hle
  rw [List.take_of_length_le (by omega), List.take_of_length_le (by omega)] at heq
  exact hne (by rw [heq])

end EnvironmentCheck.LittleEndian
