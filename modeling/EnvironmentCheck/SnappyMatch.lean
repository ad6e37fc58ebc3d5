import EnvironmentCheck.Library.Buffer
import EnvironmentCheck.Library.LittleEndian
import Mathlib.Data.Nat.Bitwise
import Mathlib.Tactic.Linarith

namespace EnvironmentCheck.SnappyCodec

open Buffer LittleEndian

/-- One turn of the loop, on what is left of the word and on the logarithm of what is not. -/
def log2Turn (s : ℕ × ℕ) (i : ℕ) : ℕ × ℕ :=
  let shift := 1 <<< i
  let x := s.1 >>> shift
  if x ≠ 0 then (x, s.2 + shift) else s

def log2FloorNonZero (n : ℕ) : ℕ := ([4, 3, 2, 1, 0].foldl log2Turn (n, 0)).2

def lsbTurn (s : ℕ × ℕ) (shift : ℕ) : ℕ × ℕ :=
  let x := s.1 <<< shift % 2 ^ 32
  if x ≠ 0 then (x, s.2 - shift) else s

def findLSBSetNonZero (n : ℕ) : ℕ := ([16, 8, 4, 2, 1].foldl lsbTurn (n, 31)).2

def findLSBSetNonZero64 (n : ℕ) : ℕ :=
  let bottombits := n % 2 ^ 32
  if bottombits = 0 then 32 + findLSBSetNonZero (n >>> 32 % 2 ^ 32) else findLSBSetNonZero bottombits

def load32 (mem : List UInt8) (ptr : ℕ) : Option ℕ := (load mem ptr 4).map value

def load64 (mem : List UInt8) (ptr : ℕ) : Option ℕ := (load mem ptr 8).map value

/-- The length of the match, whether it is below eight, and the bytes after it. -/
structure MatchLength where
  matched : ℕ
  short : Bool
  data : ℕ

/-- The loop over single bytes, at whose end `data` is loaded where eight bytes are left. -/
def matchBytes (mem : List UInt8) (s1 s2Limit s2 matched data : ℕ) : Option MatchLength :=
  if _h : s2 < s2Limit then do
    let b1 ← mem[s1 + matched]?
    let b2 ← mem[s2]?
    if b1 = b2 then matchBytes mem s1 s2Limit (s2 + 1) (matched + 1) data
    else if s2 + 8 ≤ s2Limit then return ⟨matched, matched < 8, ← load64 mem s2⟩
    else return ⟨matched, matched < 8, data⟩
  else some ⟨matched, matched < 8, data⟩
termination_by s2Limit - s2

/-- The five bytes after the first difference of two words, from `s2` or from four bytes later on. -/
def dataAfter (a2 a3 xorval shift : ℕ) : ℕ :=
  (if xorval % 2 ^ 32 = 0 then a3 else a2) >>> (shift &&& 3 * 8)

def matchWords (mem : List UInt8) (s1 s2Limit s2 matched data : ℕ) : Option MatchLength :=
  if _h : s2 + 16 ≤ s2Limit then do
    let a1 ← load64 mem (s1 + matched)
    let a2 ← load64 mem s2
    if a1 = a2 then matchWords mem s1 s2Limit (s2 + 8) (matched + 8) data
    else
      let xorval := a1 ^^^ a2
      let shift := findLSBSetNonZero64 xorval
      let a3 ← load64 mem (s2 + 4)
      return ⟨matched + shift >>> 3, false, dataAfter a2 a3 xorval shift⟩
  else matchBytes mem s1 s2Limit s2 matched data
termination_by s2Limit - s2

/-- `FindMatchLength` on the ABIs of 64 bits. -/
def findMatchLength64 (mem : List UInt8) (s1 s2 s2Limit data : ℕ) : Option MatchLength :=
  if s2 + 16 ≤ s2Limit then do
    let a1 ← load64 mem s1
    let a2 ← load64 mem s2
    if a1 ≠ a2 then
      let xorval := a1 ^^^ a2
      let shift := findLSBSetNonZero64 xorval
      let a3 ← load64 mem (s2 + 4)
      return ⟨shift >>> 3, true, dataAfter a2 a3 xorval shift⟩
    else matchWords mem s1 s2Limit (s2 + 8) 8 data
  else matchWords mem s1 s2Limit s2 0 data

def lastBytes (mem : List UInt8) (s1 s2Limit s2 matched : ℕ) : Option (ℕ × ℕ) :=
  if _h : s2 < s2Limit then do
    let b1 ← mem[s1 + matched]?
    let b2 ← mem[s2]?
    if b1 = b2 then lastBytes mem s1 s2Limit (s2 + 1) (matched + 1) else return (s2, matched)
  else some (s2, matched)
termination_by s2Limit - s2

def matchWords32 (mem : List UInt8) (s1 s2Limit s2 matched : ℕ) : Option (ℕ × ℕ) :=
  if _h : s2 + 4 ≤ s2Limit then do
    let a2 ← load32 mem s2
    let a1 ← load32 mem (s1 + matched)
    if a2 = a1 then matchWords32 mem s1 s2Limit (s2 + 4) (matched + 4)
    else
      let matchingBits := findLSBSetNonZero (a2 ^^^ a1)
      return (s2 + matchingBits >>> 3, matched + matchingBits >>> 3)
  else lastBytes mem s1 s2Limit s2 matched
termination_by s2Limit - s2

/-- `FindMatchLength` on the other ABIs. -/
def findMatchLength32 (mem : List UInt8) (s1 s2 s2Limit data : ℕ) : Option MatchLength := do
  let (s2, matched) ← matchWords32 mem s1 s2Limit s2 0
  if s2 + 8 ≤ s2Limit then return ⟨matched, matched < 8, ← load64 mem s2⟩
  else return ⟨matched, matched < 8, data⟩

variable {mem xs ys : List UInt8} {s1 s2 s2Limit matched data d i k n p q v w : ℕ}

/-- What the turns have left to decide: whether the next `span` bits hold all that remains. -/
def Log2Within (n span : ℕ) (s : ℕ × ℕ) : Prop :=
  s.1 = n >>> s.2 ∧ s.1 ≠ 0 ∧ n >>> (s.2 + span) = 0

theorem log2Within_turn {s : ℕ × ℕ} (h : Log2Within n (2 ^ (i + 1)) s) :
    Log2Within n (2 ^ i) (log2Turn s i) := by
  obtain ⟨hs, hne, hlast⟩ := h
  have hshift : s.1 >>> (1 <<< i) = n >>> (s.2 + 2 ^ i) := by
    rw [hs, Nat.one_shiftLeft, ← Nat.shiftRight_add]
  rw [log2Turn]
  split_ifs with hx
  · refine ⟨by rw [hshift, Nat.one_shiftLeft], hx, ?_⟩
    rw [Nat.one_shiftLeft, add_assoc, ← two_mul, ← pow_succ']
    exact hlast
  · rw [not_not, hshift] at hx
    exact ⟨hs, hne, hx⟩

theorem log2FloorNonZero_eq (h : n ≠ 0) (hn : n < 2 ^ 32) :
    2 ^ log2FloorNonZero n ≤ n ∧ n < 2 ^ (log2FloorNonZero n + 1) := by
  have hstart : Log2Within n (2 ^ 5) (n, 0) := by
    refine ⟨rfl, h, ?_⟩
    rw [Nat.shiftRight_eq_div_pow]
    exact Nat.div_eq_of_lt hn
  have hturns := log2Within_turn (log2Within_turn (log2Within_turn (log2Within_turn
    (log2Within_turn hstart))))
  obtain ⟨hs, hne, hlast⟩ := hturns
  rw [hs, Nat.shiftRight_eq_div_pow] at hne
  rw [Nat.shiftRight_eq_div_pow] at hlast
  constructor
  · exact (Nat.div_ne_zero_iff.mp hne).2
  · exact (Nat.div_eq_zero_iff.mp hlast).resolve_left (by positivity)

def LsbWithin (v span : ℕ) (s : ℕ × ℕ) : Prop :=
  ∃ k, k + span ≤ 32 ∧ s = (v <<< k % 2 ^ 32, 31 - k) ∧ v <<< k % 2 ^ 32 ≠ 0 ∧
    v <<< (k + span) % 2 ^ 32 = 0

theorem shiftLeft_mod_shiftLeft (v k i : ℕ) :
    (v <<< k % 2 ^ 32) <<< i % 2 ^ 32 = v <<< (k + i) % 2 ^ 32 := by
  rw [Nat.shiftLeft_eq, Nat.shiftLeft_eq, Nat.shiftLeft_eq, Nat.mod_mul_mod, pow_add, mul_assoc]

theorem lsbWithin_turn {s : ℕ × ℕ} (h : LsbWithin v (n + n) s) : LsbWithin v n (lsbTurn s n) := by
  obtain ⟨k, hk, rfl, hne, hlast⟩ := h
  rw [lsbTurn, shiftLeft_mod_shiftLeft]
  split_ifs with hx
  · refine ⟨k + n, by omega, by rw [Nat.sub_add_eq], hx, ?_⟩
    rw [add_assoc]
    exact hlast
  · exact ⟨k, by omega, rfl, hne, not_not.mp hx⟩

theorem findLSBSetNonZero_lowest (h : v ≠ 0) (hv : v < 2 ^ 32) :
    IsLowestBit v (findLSBSetNonZero v) := by
  have hstart : LsbWithin v (16 + 16) (v, 31) := by
    refine ⟨0, le_rfl, ?_, ?_, ?_⟩
    · rw [Nat.shiftLeft_zero, Nat.mod_eq_of_lt hv]
    · rwa [Nat.shiftLeft_zero, Nat.mod_eq_of_lt hv]
    · rw [Nat.zero_add, Nat.shiftLeft_eq]
      exact Nat.mul_mod_left v _
  have hturns := lsbWithin_turn (n := 1) (lsbWithin_turn (n := 2) (lsbWithin_turn (n := 4)
    (lsbWithin_turn (n := 8) (lsbWithin_turn hstart))))
  obtain ⟨k, hk, hs, hne, hlast⟩ := hturns
  have hrc : findLSBSetNonZero v = 31 - k := by
    simp only [findLSBSetNonZero, List.foldl_cons, List.foldl_nil, hs]
  have hlow : ∀ j < 31 - k, v.testBit j = false := by
    intro j hj
    have hbit := congrArg (Nat.testBit · (j + (k + 1))) hlast
    rw [Nat.testBit_mod_two_pow, Nat.testBit_shiftLeft, decide_eq_true (by omega),
      decide_eq_true (by omega), Nat.add_sub_cancel, Nat.zero_testBit] at hbit
    exact hbit
  rw [hrc]
  refine ⟨?_, hlow⟩
  obtain ⟨j, hj⟩ := Nat.exists_testBit_of_ne_zero hne
  rw [Nat.testBit_mod_two_pow, Nat.testBit_shiftLeft, Bool.and_eq_true, Bool.and_eq_true,
    decide_eq_true_eq, decide_eq_true_eq] at hj
  obtain ⟨hlt, hle, hbit⟩ := hj
  obtain hbefore | hlast : j - k < 31 - k ∨ j - k = 31 - k := by omega
  · rw [hlow _ hbefore] at hbit
    cases hbit
  · rwa [← hlast]

theorem findLSBSetNonZero64_lowest (h : v ≠ 0) (hv : v < 2 ^ 64) :
    IsLowestBit v (findLSBSetNonZero64 v) := by
  rw [findLSBSetNonZero64]
  split_ifs with hbottom
  · have hhigh : v >>> 32 % 2 ^ 32 = v / 2 ^ 32 := by
      rw [Nat.shiftRight_eq_div_pow]
      apply Nat.mod_eq_of_lt
      omega
    obtain ⟨hbit, hlow⟩ := findLSBSetNonZero_lowest (v := v / 2 ^ 32) (by omega) (by omega)
    rw [hhigh]
    constructor
    · rwa [Nat.testBit_div_two_pow, add_comm] at hbit
    · intro j hj
      obtain hfirst | hlater := lt_or_ge j 32
      · have hzero := congrArg (Nat.testBit · j) hbottom
        rw [Nat.testBit_mod_two_pow, decide_eq_true hfirst, Bool.true_and] at hzero
        rw [hzero, Nat.zero_testBit]
      · have hlast := hlow (j - 32) (by omega)
        rwa [Nat.testBit_div_two_pow, Nat.sub_add_cancel hlater] at hlast
  · obtain ⟨hbit, hlow⟩ := findLSBSetNonZero_lowest hbottom (Nat.mod_lt v (by decide))
    rw [Nat.testBit_mod_two_pow, Bool.and_eq_true, decide_eq_true_eq] at hbit
    refine ⟨hbit.2, ?_⟩
    intro j hj
    have hzero := hlow j hj
    rw [Nat.testBit_mod_two_pow, decide_eq_true (hj.trans hbit.1), Bool.true_and] at hzero
    exact hzero

/-- The longest common beginning of what is at `s1` and at `s2`, and the five bytes after it. -/
structure IsMatch (mem : List UInt8) (s1 s2 s2Limit : ℕ) (r : MatchLength) : Prop where
  fits : s2 + r.matched ≤ s2Limit
  same : ∀ i < r.matched, mem[s1 + i]? = mem[s2 + i]?
  longest : s2 + r.matched < s2Limit → mem[s1 + r.matched]? ≠ mem[s2 + r.matched]?
  short : r.short = decide (r.matched < 8)
  data : s2 + r.matched + 8 ≤ s2Limit →
    ∃ v, load64 mem (s2 + r.matched) = some v ∧ r.data % 256 ^ 5 = v % 256 ^ 5

theorem same_of_load (hp : load mem p n = some xs) (hq : load mem q n = some ys) (hk : k ≤ n)
    (h : xs.take k = ys.take k) (hi : i < k) : mem[p + i]? = mem[q + i]? := by
  rw [← getElem?_load hp (hi.trans_le hk), ← getElem?_load hq (hi.trans_le hk),
    ← List.getElem?_take_of_lt hi, h, List.getElem?_take_of_lt hi]

theorem differ_of_load (hp : load mem p n = some xs) (hq : load mem q n = some ys) (hk : k < n)
    (h : xs.take k = ys.take k) (hne : xs.take (k + 1) ≠ ys.take (k + 1)) :
    mem[p + k]? ≠ mem[q + k]? := by
  intro hsame
  rw [← getElem?_load hp hk, ← getElem?_load hq hk] at hsame
  apply hne
  rw [List.take_add_one, List.take_add_one, h, hsame]

/-- Two words that are loaded and differ, and the byte in which they do. -/
theorem first_difference_of_load (hp : load mem p n = some xs) (hq : load mem q n = some ys)
    (h : IsLowestBit (value xs ^^^ value ys) v) :
    v / 8 < n ∧ (∀ i < v / 8, mem[p + i]? = mem[q + i]?) ∧ mem[p + v / 8]? ≠ mem[q + v / 8]? := by
  obtain ⟨htake, hne, hlt⟩ :=
    first_difference (by rw [length_load hp, length_load hq]) h
  rw [length_load hp] at hlt
  exact ⟨hlt, fun i hi => same_of_load hp hq hlt.le htake hi, differ_of_load hp hq hlt htake hne⟩

theorem same_of_value (hp : load mem p n = some xs) (hq : load mem q n = some ys)
    (h : value xs = value ys) (hi : i < n) : mem[p + i]? = mem[q + i]? := by
  obtain rfl := value_inj (by rw [length_load hp, length_load hq]) h
  exact same_of_load hp hq le_rfl rfl hi

theorem value_load_lt (h : load mem p n = some xs) : value xs < 256 ^ n := by
  rw [← length_load h]
  exact value_lt xs

/-- Five bytes of a word that begins `n` bytes earlier. -/
theorem value_window (h : load mem p 8 = some xs) (hfits : p + n + 8 ≤ mem.length) (hn : n ≤ 3) :
    ∃ v, load64 mem (p + n) = some v ∧ (value xs >>> (8 * n)) % 256 ^ 5 = v % 256 ^ 5 := by
  refine ⟨_, congrArg (Option.map value) (load_of_le hfits), ?_⟩
  have hpow : 2 ^ (8 * n) = 256 ^ n := pow_mul 2 8 n
  obtain ⟨-, rfl⟩ := load_eq_some.mp h
  rw [Nat.shiftRight_eq_div_pow, hpow, ← value_drop, ← value_take, ← value_take, List.drop_take,
    List.take_take, List.take_take, List.drop_drop]
  congr 2
  omega

theorem load64_eq_some : load64 mem p = some v ↔ ∃ xs, load mem p 8 = some xs ∧ value xs = v :=
  Option.map_eq_some_iff

theorem load32_eq_some : load32 mem p = some v ↔ ∃ xs, load mem p 4 = some xs ∧ value xs = v :=
  Option.map_eq_some_iff

theorem exists_load64 (h : p + 8 ≤ mem.length) : ∃ xs, load mem p 8 = some xs ∧
    load64 mem p = some (value xs) :=
  ⟨_, load_of_le h, congrArg (Option.map value) (load_of_le h)⟩

theorem exists_load32 (h : p + 4 ≤ mem.length) : ∃ xs, load mem p 4 = some xs ∧
    load32 mem p = some (value xs) :=
  ⟨_, load_of_le h, congrArg (Option.map value) (load_of_le h)⟩

/-- The first `k` bytes are the same, and the next ones are at `s2`. -/
structure Matching (mem : List UInt8) (s1 s2 s2Limit k : ℕ) : Prop where
  fits : s2 + k ≤ s2Limit
  same : ∀ i < k, mem[s1 + i]? = mem[s2 + i]?

theorem matching_zero (h : s2 ≤ s2Limit) : Matching mem s1 s2 s2Limit 0 :=
  ⟨h, fun _ hi => absurd hi (Nat.not_lt_zero _)⟩

theorem Matching.add (h : Matching mem s1 s2 s2Limit k)
    (hfits : s2 + (k + n) ≤ s2Limit)
    (hn : ∀ i < n, mem[s1 + k + i]? = mem[s2 + k + i]?) :
    Matching mem s1 s2 s2Limit (k + n) := by
  refine ⟨hfits, ?_⟩
  intro i hi
  obtain hbefore | hafter := lt_or_ge i k
  · exact h.same i hbefore
  · have hsame := hn (i - k) (by omega)
    rwa [Nat.add_assoc, Nat.add_assoc, Nat.add_sub_cancel' hafter] at hsame

theorem lowest_of_ne (hne : value xs ≠ value ys) (hp : load mem p 8 = some xs)
    (hq : load mem q 8 = some ys) :
    IsLowestBit (value xs ^^^ value ys) (findLSBSetNonZero64 (value xs ^^^ value ys)) := by
  apply findLSBSetNonZero64_lowest (Nat.xor_ne_zero_iff.mpr hne)
  exact Nat.xor_lt_two_pow (value_load_lt hp) (value_load_lt hq)

theorem lowest_of_ne32 (hne : value xs ≠ value ys) (hp : load mem p 4 = some xs)
    (hq : load mem q 4 = some ys) :
    IsLowestBit (value xs ^^^ value ys) (findLSBSetNonZero (value xs ^^^ value ys)) := by
  apply findLSBSetNonZero_lowest (Nat.xor_ne_zero_iff.mpr hne)
  exact Nat.xor_lt_two_pow (value_load_lt hp) (value_load_lt hq)

theorem mod_eq_zero_iff_of_lowest (h : IsLowestBit v p) : v % 2 ^ 32 = 0 ↔ 32 ≤ p := by
  constructor
  · intro hzero
    by_contra hlt
    have hbit := congrArg (Nat.testBit · p) hzero
    simp only [Nat.testBit_mod_two_pow, Nat.zero_testBit, h.1, Bool.and_true,
      decide_eq_false_iff_not] at hbit
    exact hbit (not_le.mp hlt)
  · intro hle
    apply Nat.eq_of_testBit_eq
    intro j
    rw [Nat.testBit_mod_two_pow, Nat.zero_testBit]
    by_cases hj : j < 32
    · rw [h.2 j (by omega), Bool.and_false]
    · rw [decide_eq_false hj, Bool.false_and]

theorem and_twentyFour (p : ℕ) : p &&& 3 * 8 = 8 * (p / 8 % 4) := by
  apply Nat.eq_of_testBit_eq
  intro j
  have hmul : 8 * (p / 8 % 4) = (p / 2 ^ 3 % 2 ^ 2) * 2 ^ 3 := by omega
  have hmask : 3 * 8 = (2 ^ 2 - 1) * 2 ^ 3 := by decide
  rw [hmul, hmask, Nat.testBit_and, Nat.testBit_mul_two_pow, Nat.testBit_mul_two_pow,
    Nat.testBit_two_pow_sub_one, Nat.testBit_mod_two_pow, Nat.testBit_div_two_pow]
  by_cases hj : 3 ≤ j
  · rw [Nat.sub_add_cancel hj, Bool.and_comm, decide_eq_true hj, Bool.true_and, Bool.true_and]
  · rw [decide_eq_false hj, Bool.false_and, Bool.and_false, Bool.false_and]

/-- Whichever of the two words is taken, it holds five bytes from the first difference on. -/
theorem dataAfter_window {zs : List UInt8} {shift xorval : ℕ} (hys : load mem s2 8 = some ys)
    (hzs : load mem (s2 + 4) 8 = some zs) (h : IsLowestBit xorval shift) (hshift : shift / 8 < 8)
    (hfits : s2 + shift / 8 + 8 ≤ mem.length) :
    ∃ v, load64 mem (s2 + shift / 8) = some v ∧
      dataAfter (value ys) (value zs) xorval shift % 256 ^ 5 = v % 256 ^ 5 := by
  rw [dataAfter, and_twentyFour]
  by_cases hlate : 32 ≤ shift
  · rw [if_pos ((mod_eq_zero_iff_of_lowest h).mpr hlate)]
    have hsplit : s2 + shift / 8 = s2 + 4 + shift / 8 % 4 := by omega
    rw [hsplit] at hfits ⊢
    exact value_window hzs hfits (by omega)
  · rw [if_neg fun hzero => hlate ((mod_eq_zero_iff_of_lowest h).mp hzero)]
    have hsplit : shift / 8 % 4 = shift / 8 := by omega
    rw [hsplit]
    exact value_window hys hfits (by omega)

theorem Matching.differ (h : Matching mem s1 s2 s2Limit k)
    (hne : mem[s1 + k]? ≠ mem[s2 + k]?)
    (hdata : s2 + k + 8 ≤ s2Limit →
      ∃ v, load64 mem (s2 + k) = some v ∧ data % 256 ^ 5 = v % 256 ^ 5) :
    IsMatch mem s1 s2 s2Limit ⟨k, k < 8, data⟩ :=
  ⟨h.fits, h.same, fun _ => hne, rfl, hdata⟩

theorem Matching.ends (h : Matching mem s1 s2 s2Limit k) (hend : s2Limit ≤ s2 + k) :
    IsMatch mem s1 s2 s2Limit ⟨k, k < 8, data⟩ :=
  ⟨h.fits, h.same, fun hlt => absurd hlt (not_lt.mpr hend), rfl,
    fun hlt => absurd hlt (by dsimp only; omega)⟩

theorem matchBytes_isMatch (h : Matching mem s1 s2 s2Limit k) (hs : s1 ≤ s2)
    (hlimit : s2Limit ≤ mem.length) :
    ∃ r, matchBytes mem s1 s2Limit (s2 + k) k data = some r ∧
      IsMatch mem s1 s2 s2Limit r := by
  induction hn : s2Limit - (s2 + k) generalizing k with
  | zero =>
    rw [matchBytes, dif_neg (by omega)]
    exact ⟨_, rfl, h.ends (by omega)⟩
  | succ n ih =>
    have h1 : s1 + k < mem.length := by omega
    have h2 : s2 + k < mem.length := by omega
    rw [matchBytes, dif_pos (by omega), List.getElem?_eq_getElem h1, List.getElem?_eq_getElem h2]
    simp only [Option.bind_eq_bind, Option.bind_some]
    by_cases hsame : mem[s1 + k] = mem[s2 + k]
    · rw [if_pos hsame]
      apply ih (k := k + 1)
      · apply h.add (by omega)
        intro i hi
        obtain rfl : i = 0 := by omega
        rw [Nat.add_zero, Nat.add_zero, List.getElem?_eq_getElem h1, List.getElem?_eq_getElem h2,
          hsame]
      · omega
    · have hne : mem[s1 + k]? ≠ mem[s2 + k]? := by
        rw [List.getElem?_eq_getElem h1, List.getElem?_eq_getElem h2]
        exact fun heq => hsame (Option.some.inj heq)
      rw [if_neg hsame]
      split_ifs with hroom
      · obtain ⟨xs, -, hxs⟩ := exists_load64 (show s2 + k + 8 ≤ mem.length by omega)
        rw [hxs]
        exact ⟨_, rfl, h.differ hne fun _ => ⟨_, hxs, rfl⟩⟩
      · exact ⟨_, rfl, h.differ hne fun hfits => absurd hfits hroom⟩

theorem matchWords_isMatch (h : Matching mem s1 s2 s2Limit k) (hs : s1 ≤ s2)
    (hlimit : s2Limit ≤ mem.length) (hlong : s2 + k + 16 ≤ s2Limit → 8 ≤ k) :
    ∃ r, matchWords mem s1 s2Limit (s2 + k) k data = some r ∧
      IsMatch mem s1 s2 s2Limit r := by
  induction hn : s2Limit - (s2 + k) using Nat.strong_induction_on generalizing k with
  | h n ih =>
    by_cases hroom : s2 + k + 16 ≤ s2Limit
    · obtain ⟨xs, hxs, h1⟩ := exists_load64 (show s1 + k + 8 ≤ mem.length by omega)
      obtain ⟨ys, hys, h2⟩ := exists_load64 (show s2 + k + 8 ≤ mem.length by omega)
      obtain ⟨zs, hzs, h3⟩ := exists_load64 (show s2 + k + 4 + 8 ≤ mem.length by omega)
      rw [matchWords, dif_pos hroom, h1, h2, h3]
      simp only [Option.bind_eq_bind, Option.bind_some]
      by_cases hsame : value xs = value ys
      · rw [if_pos hsame]
        apply ih (s2Limit - (s2 + (k + 8))) (by omega) (k := k + 8)
        · exact h.add (by omega) fun i hi => same_of_value hxs hys hsame hi
        · omega
        · rfl
      · have hlow := lowest_of_ne hsame hxs hys
        obtain ⟨hlt, heq, hne⟩ := first_difference_of_load hxs hys hlow
        rw [if_neg hsame]
        refine ⟨_, rfl, ?_⟩
        have hmatching := h.add (by omega) heq
        rw [Nat.shiftRight_eq_div_pow]
        have hshort : false = decide
            (k + findLSBSetNonZero64 (value xs ^^^ value ys) / 2 ^ 3 < 8) :=
          (decide_eq_false (by omega)).symm
        rw [hshort]
        apply hmatching.differ
        · rw [← Nat.add_assoc, ← Nat.add_assoc]
          exact hne
        · intro hfits
          rw [← Nat.add_assoc]
          exact dataAfter_window hys hzs hlow hlt (by omega)
    · rw [matchWords, dif_neg hroom]
      exact matchBytes_isMatch h hs hlimit

theorem findMatchLength64_isMatch (hs : s1 ≤ s2) (h : s2 ≤ s2Limit) (hlimit : s2Limit ≤ mem.length) :
    ∃ r, findMatchLength64 mem s1 s2 s2Limit data = some r ∧ IsMatch mem s1 s2 s2Limit r := by
  have hstart : Matching mem s1 s2 s2Limit 0 := matching_zero h
  rw [findMatchLength64]
  split_ifs with hroom
  · obtain ⟨xs, hxs, h1⟩ := exists_load64 (show s1 + 8 ≤ mem.length by omega)
    obtain ⟨ys, hys, h2⟩ := exists_load64 (show s2 + 8 ≤ mem.length by omega)
    obtain ⟨zs, hzs, h3⟩ := exists_load64 (show s2 + 4 + 8 ≤ mem.length by omega)
    rw [h1, h2, h3]
    simp only [Option.bind_eq_bind, Option.bind_some, ne_eq]
    by_cases hsame : value xs = value ys
    · rw [if_neg (not_not.mpr hsame)]
      apply matchWords_isMatch (k := 8) _ hs hlimit fun _ => le_rfl
      have hnext := hstart.add (n := 8) (by omega) fun i hi => same_of_value hxs hys hsame hi
      rwa [Nat.zero_add] at hnext
    · have hlow := lowest_of_ne hsame hxs hys
      obtain ⟨hlt, heq, hne⟩ := first_difference_of_load hxs hys hlow
      rw [if_pos hsame]
      refine ⟨_, rfl, ?_⟩
      have hmatching := hstart.add (by omega) heq
      rw [Nat.zero_add] at hmatching
      rw [Nat.shiftRight_eq_div_pow]
      have hshort : true = decide (findLSBSetNonZero64 (value xs ^^^ value ys) / 2 ^ 3 < 8) :=
        (decide_eq_true hlt).symm
      rw [hshort]
      apply hmatching.differ hne
      intro hfits
      exact dataAfter_window hys hzs hlow hlt (by omega)
  · exact matchWords_isMatch (k := 0) hstart hs hlimit fun hfits => absurd hfits hroom

def Longest (mem : List UInt8) (s1 s2 s2Limit n : ℕ) : Prop :=
  Matching mem s1 s2 s2Limit n ∧ (s2 + n < s2Limit → mem[s1 + n]? ≠ mem[s2 + n]?)

theorem lastBytes_longest (h : Matching mem s1 s2 s2Limit k) (hs : s1 ≤ s2)
    (hlimit : s2Limit ≤ mem.length) :
    ∃ l, lastBytes mem s1 s2Limit (s2 + k) k = some (s2 + l, l) ∧
      Longest mem s1 s2 s2Limit l := by
  induction hn : s2Limit - (s2 + k) generalizing k with
  | zero =>
    rw [lastBytes, dif_neg (by omega)]
    exact ⟨k, rfl, h, fun hlt => by omega⟩
  | succ n ih =>
    have h1 : s1 + k < mem.length := by omega
    have h2 : s2 + k < mem.length := by omega
    rw [lastBytes, dif_pos (by omega), List.getElem?_eq_getElem h1, List.getElem?_eq_getElem h2]
    simp only [Option.bind_eq_bind, Option.bind_some]
    by_cases hsame : mem[s1 + k] = mem[s2 + k]
    · rw [if_pos hsame]
      apply ih (k := k + 1)
      · apply h.add (by omega)
        intro i hi
        obtain rfl : i = 0 := by omega
        rw [Nat.add_zero, Nat.add_zero, List.getElem?_eq_getElem h1, List.getElem?_eq_getElem h2,
          hsame]
      · omega
    · rw [if_neg hsame]
      refine ⟨k, rfl, h, ?_⟩
      intro _
      rw [List.getElem?_eq_getElem h1, List.getElem?_eq_getElem h2]
      exact fun heq => hsame (Option.some.inj heq)

theorem matchWords32_longest (h : Matching mem s1 s2 s2Limit k) (hs : s1 ≤ s2)
    (hlimit : s2Limit ≤ mem.length) :
    ∃ l, matchWords32 mem s1 s2Limit (s2 + k) k = some (s2 + l, l) ∧
      Longest mem s1 s2 s2Limit l := by
  induction hn : s2Limit - (s2 + k) using Nat.strong_induction_on generalizing k with
  | h n ih =>
    by_cases hroom : s2 + k + 4 ≤ s2Limit
    · obtain ⟨xs, hxs, h1⟩ := exists_load32 (show s1 + k + 4 ≤ mem.length by omega)
      obtain ⟨ys, hys, h2⟩ := exists_load32 (show s2 + k + 4 ≤ mem.length by omega)
      rw [matchWords32, dif_pos hroom, h1, h2]
      simp only [Option.bind_eq_bind, Option.bind_some]
      by_cases hsame : value ys = value xs
      · rw [if_pos hsame]
        apply ih (s2Limit - (s2 + (k + 4))) (by omega) (k := k + 4)
        · exact h.add (by omega) fun i hi => same_of_value hxs hys hsame.symm hi
        · rfl
      · have hlow := lowest_of_ne32 hsame hys hxs
        obtain ⟨hlt, heq, hne⟩ := first_difference_of_load hys hxs hlow
        rw [if_neg hsame, Nat.shiftRight_eq_div_pow]
        refine ⟨k + findLSBSetNonZero (value ys ^^^ value xs) / 2 ^ 3, ?_, ?_, ?_⟩
        · rw [← Nat.add_assoc]
          rfl
        · exact h.add (by omega) fun i hi => (heq i hi).symm
        · intro _
          rw [← Nat.add_assoc, ← Nat.add_assoc]
          exact hne.symm
    · rw [matchWords32, dif_neg hroom]
      exact lastBytes_longest h hs hlimit

theorem findMatchLength32_isMatch (hs : s1 ≤ s2) (h : s2 ≤ s2Limit) (hlimit : s2Limit ≤ mem.length) :
    ∃ r, findMatchLength32 mem s1 s2 s2Limit data = some r ∧ IsMatch mem s1 s2 s2Limit r := by
  obtain ⟨m, hm, hmatching, hlongest⟩ :=
    matchWords32_longest (k := 0) (matching_zero h) hs hlimit
  rw [Nat.add_zero] at hm
  rw [findMatchLength32, hm]
  simp only [Option.bind_eq_bind, Option.bind_some]
  split_ifs with hroom
  · obtain ⟨xs, -, hxs⟩ := exists_load64 (show s2 + m + 8 ≤ mem.length by omega)
    rw [hxs]
    exact ⟨_, rfl, hmatching.fits, hmatching.same, hlongest, rfl, fun _ => ⟨_, hxs, rfl⟩⟩
  · exact ⟨_, rfl, hmatching.fits, hmatching.same, hlongest, rfl, fun hfits => absurd hfits hroom⟩

/-- The ABIs that the application is built for. -/
inductive Abi
  | armeabiV7a
  | arm64V8a
  | x86
  | x86_64
  deriving DecidableEq

def findMatchLength : Abi → List UInt8 → ℕ → ℕ → ℕ → ℕ → Option MatchLength
  | .arm64V8a | .x86_64 => findMatchLength64
  | .armeabiV7a | .x86 => findMatchLength32

theorem findMatchLength_isMatch (abi : Abi) (data : ℕ) (hs : s1 ≤ s2) (h : s2 ≤ s2Limit)
    (hlimit : s2Limit ≤ mem.length) :
    ∃ r, findMatchLength abi mem s1 s2 s2Limit data = some r ∧ IsMatch mem s1 s2 s2Limit r := by
  cases abi with
  | arm64V8a => exact findMatchLength64_isMatch hs h hlimit
  | x86_64 => exact findMatchLength64_isMatch hs h hlimit
  | armeabiV7a => exact findMatchLength32_isMatch hs h hlimit
  | x86 => exact findMatchLength32_isMatch hs h hlimit

theorem IsMatch.matched_le {r r' : MatchLength} (h : IsMatch mem s1 s2 s2Limit r)
    (h' : IsMatch mem s1 s2 s2Limit r') : r.matched ≤ r'.matched := by
  by_contra hlt
  have hfits := h.fits
  exact h'.longest (by omega) (h.same r'.matched (by omega))

/-- On every ABI the bodies read inside the buffer only, and find the same longest match with the
same five bytes after it. -/
theorem findMatchLength_agrees (abi abi' : Abi) (data : ℕ) (hs : s1 ≤ s2) (h : s2 ≤ s2Limit)
    (hlimit : s2Limit ≤ mem.length) :
    ∃ r r', findMatchLength abi mem s1 s2 s2Limit data = some r ∧
      findMatchLength abi' mem s1 s2 s2Limit data = some r' ∧ IsMatch mem s1 s2 s2Limit r ∧
      IsMatch mem s1 s2 s2Limit r' ∧ r.matched = r'.matched ∧ r.short = r'.short ∧
      (s2 + r.matched + 8 ≤ s2Limit → r.data % 256 ^ 5 = r'.data % 256 ^ 5) := by
  obtain ⟨r, hr, hmatch⟩ := findMatchLength_isMatch abi data hs h hlimit
  obtain ⟨r', hr', hmatch'⟩ := findMatchLength_isMatch abi' data hs h hlimit
  have heq : r.matched = r'.matched := le_antisymm (hmatch.matched_le hmatch') (hmatch'.matched_le hmatch)
  refine ⟨r, r', hr, hr', hmatch, hmatch', heq, ?_, ?_⟩
  · rw [hmatch.short, hmatch'.short, heq]
  · intro hfits
    obtain ⟨v, hv, hdata⟩ := hmatch.data hfits
    obtain ⟨v', hv', hdata'⟩ := hmatch'.data (heq ▸ hfits)
    rw [← heq, hv] at hv'
    rw [hdata, hdata', Option.some.inj hv']

theorem findMatchLength_agrees_twenty :
    let mem : List UInt8 := List.replicate 20 7 ++ [9]
    ∃ r r', findMatchLength .x86_64 mem 0 1 21 0 = some r ∧ findMatchLength .x86 mem 0 1 21 0 = some r' ∧
      IsMatch mem 0 1 21 r ∧ IsMatch mem 0 1 21 r' ∧ r.matched = r'.matched ∧ r.short = r'.short ∧
      (1 + r.matched + 8 ≤ 21 → r.data % 256 ^ 5 = r'.data % 256 ^ 5) :=
  findMatchLength_agrees .x86_64 .x86 0 (by decide) (by decide) (by decide)

end EnvironmentCheck.SnappyCodec
