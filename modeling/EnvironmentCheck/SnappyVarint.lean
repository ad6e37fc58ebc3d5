import EnvironmentCheck.Library.Leb128
import Mathlib.Tactic.IntervalCases
import Mathlib.Tactic.Ring

namespace EnvironmentCheck

open Leb128

/-- From the group `i` on, of which there are at most five. -/
def parseGroups (i : ℕ) (result : UInt32) : List UInt8 → Option (UInt32 × List UInt8)
  | [] => none
  | b :: ptr =>
    let result := result ||| (b.toUInt32 &&& 127) <<< (7 * i).toUInt32
    if b.toNat < (if i = 4 then 16 else 128) then some (result, ptr)
    else if i = 4 then none
    else parseGroups (i + 1) result ptr

/-- `Varint::Parse32WithLimit`, which stops at the end of the bytes. -/
def parse32WithLimit (ptr : List UInt8) : Option (UInt32 × List UInt8) := parseGroups 0 0 ptr

def getUncompressedLength (start : List UInt8) : Option ℕ :=
  (parse32WithLimit start).map fun r => r.1.toNat

/-- The stream begins with this length, below `2 ^ 32` and in at most five bytes. -/
def Declares (stream : List UInt8) (length : ℕ) : Prop :=
  ∃ rest, decode stream = some (length, rest) ∧ stream.length ≤ rest.length + 5 ∧ length < 2 ^ 32

variable {stream rest : List UInt8} {length : ℕ}

theorem toNat_shifted {i : ℕ} {b : UInt8} (hi : i ≤ 4) (hlast : i = 4 → b.toNat < 16) :
    ((b.toUInt32 &&& 127) <<< (7 * i).toUInt32).toNat = 2 ^ (7 * i) * (b.toNat % 128) := by
  have hlow : (b.toUInt32 &&& 127).toNat = b.toNat % 128 := by
    rw [UInt32.toNat_and, UInt8.toNat_toUInt32]
    exact Nat.and_two_pow_sub_one_eq_mod b.toNat 7
  have hshift : (7 * i).toUInt32.toNat % 32 = 7 * i := by
    rw [Nat.toUInt32_eq, UInt32.toNat_ofNat']
    omega
  have hfits : 2 ^ (7 * i) * (b.toNat % 128) < 2 ^ 32 := by
    interval_cases i <;> omega
  rw [UInt32.toNat_shiftLeft, hshift, hlow, Nat.shiftLeft_eq, mul_comm, Nat.mod_eq_of_lt hfits]

theorem toNat_group {i : ℕ} {result : UInt32} {b : UInt8} (hi : i ≤ 4)
    (hresult : result.toNat < 2 ^ (7 * i)) (hlast : i = 4 → b.toNat < 16) :
    (result ||| (b.toUInt32 &&& 127) <<< (7 * i).toUInt32).toNat =
      result.toNat + 2 ^ (7 * i) * (b.toNat % 128) := by
  rw [UInt32.toNat_or, toNat_shifted hi hlast, Nat.or_comm,
    ← Nat.two_pow_add_eq_or_of_lt hresult, add_comm]

theorem two_pow_next (i : ℕ) : 2 ^ (7 * (i + 1)) = 2 ^ (7 * i) * 128 := by
  rw [Nat.mul_add, pow_add]
  rfl

theorem toNat_group_lt {i : ℕ} {result : UInt32} {b : UInt8} (hi : i < 4)
    (hresult : result.toNat < 2 ^ (7 * i)) :
    (result ||| (b.toUInt32 &&& 127) <<< (7 * i).toUInt32).toNat < 2 ^ (7 * (i + 1)) := by
  have hfits : 2 ^ (7 * i) * (b.toNat % 128 + 1) ≤ 2 ^ (7 * i) * 128 :=
    Nat.mul_le_mul_left _ (Nat.mod_lt _ (by decide))
  rw [Nat.mul_add, mul_one] at hfits
  rw [toNat_group hi.le hresult fun h => absurd h hi.ne, two_pow_next]
  omega

/-- A fifth group that is marked, or too large, has no place in 32 bits. -/
theorem fifth_group_refused {b : UInt8} {result v : UInt32} {n : ℕ} (hb : ¬ b.toNat < 16)
    (h : decode (b :: stream) = some (n, rest)) (hlength : (b :: stream).length + 4 ≤ rest.length + 5) :
    v.toNat ≠ result.toNat + 2 ^ (7 * 4) * n := by
  have hbound := v.toNat_lt
  by_cases hbyte : b.toNat < 128
  · rw [decode_cons_last hbyte] at h
    cases h
    omega
  · obtain ⟨m, hm, -⟩ := (decode_cons_more_iff hbyte).mp h
    have hshort := length_decode hm
    rw [List.length_cons] at hlength
    omega

/-- What is read from the group `i` on counts `2 ^ (7 * i)` times. -/
theorem parseGroups_eq_some {i : ℕ} {result v : UInt32} (hi : i ≤ 4)
    (hresult : result.toNat < 2 ^ (7 * i)) :
    parseGroups i result stream = some (v, rest) ↔
      ∃ n, decode stream = some (n, rest) ∧ stream.length + i ≤ rest.length + 5 ∧
        v.toNat = result.toNat + 2 ^ (7 * i) * n := by
  induction stream generalizing i result with
  | nil => simp [parseGroups, decode]
  | cons b ptr ih =>
    by_cases hlast : b.toNat < if i = 4 then 16 else 128
    · have hbyte : b.toNat < 128 := by split_ifs at hlast <;> omega
      have hgroup := toNat_group hi hresult fun hfour => by rwa [if_pos hfour] at hlast
      rw [Nat.mod_eq_of_lt hbyte] at hgroup
      rw [parseGroups, if_pos hlast, decode_cons_last hbyte]
      constructor
      · rintro h
        cases h
        exact ⟨_, rfl, by rw [List.length_cons]; omega, hgroup⟩
      · rintro ⟨n, h, -, hv⟩
        cases h
        rw [← hgroup] at hv
        rw [UInt32.toNat_inj.mp hv]
    · by_cases hfour : i = 4
      · subst hfour
        rw [parseGroups, if_neg hlast, if_pos rfl]
        rw [if_pos rfl] at hlast
        apply iff_of_false
        · intro h
          cases h
        · rintro ⟨n, h, hlength, hv⟩
          exact fifth_group_refused hlast h hlength hv
      · have hbyte : ¬ b.toNat < 128 := by rwa [if_neg hfour] at hlast
        have hgroup := toNat_group (b := b) hi hresult fun h => absurd h hfour
        have hnext := toNat_group_lt (b := b) (lt_of_le_of_ne hi hfour) hresult
        have hsum : ∀ m, result.toNat + 2 ^ (7 * i) * (b.toNat % 128) + 2 ^ (7 * (i + 1)) * m =
            result.toNat + 2 ^ (7 * i) * (b.toNat % 128 + 128 * m) := by
          intro m
          rw [two_pow_next]
          ring
        rw [parseGroups, if_neg hlast, if_neg hfour, ih (by omega) hnext, hgroup]
        constructor
        · rintro ⟨m, hm, hlength, hv⟩
          exact ⟨_, (decode_cons_more_iff hbyte).mpr ⟨m, hm, rfl⟩, by rw [List.length_cons]; omega,
            hv.trans (hsum m)⟩
        · rintro ⟨n, h, hlength, hv⟩
          obtain ⟨m, hm, rfl⟩ := (decode_cons_more_iff hbyte).mp h
          exact ⟨m, hm, by rw [List.length_cons] at hlength; omega, hv.trans (hsum m).symm⟩

theorem parse32WithLimit_eq_some {v : UInt32} : parse32WithLimit stream = some (v, rest) ↔
    decode stream = some (v.toNat, rest) ∧ stream.length ≤ rest.length + 5 := by
  rw [parse32WithLimit, parseGroups_eq_some (by decide) (by decide)]
  constructor
  · rintro ⟨n, hn, hlength, hv⟩
    have hv' : v.toNat = n := by simpa using hv
    exact ⟨hv' ▸ hn, hlength⟩
  · rintro ⟨hn, hlength⟩
    exact ⟨_, hn, hlength, by simp⟩

theorem getUncompressedLength_eq_some :
    getUncompressedLength stream = some length ↔ Declares stream length := by
  rw [getUncompressedLength, Option.map_eq_some_iff]
  constructor
  · rintro ⟨⟨v, rest⟩, h, rfl⟩
    obtain ⟨hdecode, hlength⟩ := parse32WithLimit_eq_some.mp h
    exact ⟨rest, hdecode, hlength, v.toNat_lt⟩
  · rintro ⟨rest, hdecode, hlength, hlt⟩
    have hv : (UInt32.ofNat length).toNat = length := UInt32.toNat_ofNat_of_lt hlt
    rw [← hv] at hdecode
    exact ⟨_, parse32WithLimit_eq_some.mpr ⟨hdecode, hlength⟩, hv⟩

end EnvironmentCheck
