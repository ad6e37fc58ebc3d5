import Mathlib.Data.Nat.Bitwise

namespace EnvironmentCheck.Leb128

/-- The number in groups of seven bits, least significant first, of which all but the last are
marked in the eighth bit, and the bytes after it. -/
def decode : List UInt8 → Option (ℕ × List UInt8)
  | [] => none
  | byte :: bytes =>
    if byte.toNat < 128 then some (byte.toNat, bytes)
    else (decode bytes).map fun r => (byte.toNat % 128 + 128 * r.1, r.2)

def encode (n : ℕ) : List UInt8 :=
  if n < 128 then [.ofNat n] else .ofNat (n % 128 + 128) :: encode (n / 128)

variable {bytes rest : List UInt8} {n : ℕ}

theorem decode_cons_last {byte : UInt8} (h : byte.toNat < 128) :
    decode (byte :: bytes) = some (byte.toNat, bytes) := by
  rw [decode, if_pos h]

theorem decode_cons_more {byte : UInt8} (h : ¬ byte.toNat < 128) :
    decode (byte :: bytes) = (decode bytes).map fun r => (byte.toNat % 128 + 128 * r.1, r.2) := by
  rw [decode, if_neg h]

theorem decode_cons_more_iff {byte : UInt8} (h : ¬ byte.toNat < 128) :
    decode (byte :: bytes) = some (n, rest) ↔
      ∃ m, decode bytes = some (m, rest) ∧ n = byte.toNat % 128 + 128 * m := by
  rw [decode_cons_more h, Option.map_eq_some_iff]
  constructor
  · rintro ⟨⟨m, rest'⟩, hm, heq⟩
    obtain ⟨rfl, rfl⟩ := Prod.mk.inj heq
    exact ⟨m, hm, rfl⟩
  · rintro ⟨m, hm, rfl⟩
    exact ⟨(m, rest), hm, rfl⟩

theorem decode_encode (n : ℕ) (rest : List UInt8) : decode (encode n ++ rest) = some (n, rest) := by
  induction n using encode.induct with
  | case1 n hlt =>
    have hbyte : (UInt8.ofNat n).toNat = n := by rw [UInt8.toNat_ofNat']; omega
    rw [encode, if_pos hlt, List.singleton_append, decode_cons_last (by omega), hbyte]
  | case2 n hge ih =>
    have hbyte : (UInt8.ofNat (n % 128 + 128)).toNat = n % 128 + 128 := by
      rw [UInt8.toNat_ofNat']
      omega
    rw [encode, if_neg hge, List.cons_append, decode_cons_more (by omega), ih, hbyte]
    simp only [Option.map_some, Option.some.injEq, Prod.mk.injEq, and_true]
    omega

theorem length_encode_le {k : ℕ} (h : n < 128 ^ k) (hk : 0 < k) : (encode n).length ≤ k := by
  induction k generalizing n with
  | zero => exact absurd hk (lt_irrefl 0)
  | succ k ih =>
    rw [encode]
    split_ifs with hlt
    · exact hk
    · have hpos : 0 < k := by
        by_contra hzero
        obtain rfl : k = 0 := by omega
        exact hlt (by simpa using h)
      have hdiv : n / 128 < 128 ^ k := by
        rw [Nat.div_lt_iff_lt_mul (by decide), ← pow_succ]
        exact h
      rw [List.length_cons]
      exact Nat.succ_le_succ (ih hdiv hpos)

theorem length_decode (h : decode bytes = some (n, rest)) : rest.length < bytes.length := by
  induction bytes generalizing n with
  | nil => cases h
  | cons byte bytes ih =>
    by_cases hlt : byte.toNat < 128
    · rw [decode_cons_last hlt] at h
      cases h
      exact Nat.lt_succ_self _
    · obtain ⟨m, hm, -⟩ := (decode_cons_more_iff hlt).mp h
      exact (ih hm).trans (Nat.lt_succ_self _)

end EnvironmentCheck.Leb128
