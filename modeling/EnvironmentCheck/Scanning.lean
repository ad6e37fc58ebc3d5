import EnvironmentCheck.Library.Numerals

namespace EnvironmentCheck

namespace Scanning

open Numerals

def isspace (b : UInt8) : Bool :=
  b = 32 ∨ 9 ≤ b ∧ b ≤ 13

def byteDigit (b : UInt8) : Option ℕ :=
  if 48 ≤ b ∧ b ≤ 57 then some (b.toNat - 48) else none

def hexDigit (b : UInt8) : Option ℕ :=
  if 48 ≤ b ∧ b ≤ 57 then some (b.toNat - 48)
  else if 97 ≤ b ∧ b ≤ 102 then some (b.toNat - 87)
  else if 65 ≤ b ∧ b ≤ 70 then some (b.toNat - 55)
  else none

def signOf : List UInt8 → Bool × List UInt8
  | [] => (false, [])
  | b :: s => if b = 45 then (true, s) else if b = 43 then (false, s) else (false, b :: s)

/-- `0x` counts only where a digit stands after it. -/
def hexPrefix (s : List UInt8) : List UInt8 :=
  if (s.take 2 = [48, 120] ∨ s.take 2 = [48, 88]) ∧ ((s.drop 2).head?.bind hexDigit).isSome then
    s.drop 2
  else s

-- numbers are read with 64 bits and stored with 32

def storeInt (negative : Bool) (n : ℕ) : ℤ :=
  Int.bmod (if negative then -(min n (2 ^ 63) : ℕ) else (min n (2 ^ 63 - 1) : ℕ)) (2 ^ 32)

def storeHex (negative : Bool) (n : ℕ) : ℤ :=
  Int.bmod (if negative then -(min n (2 ^ 64 - 1) : ℕ) else (min n (2 ^ 64 - 1) : ℕ)) (2 ^ 32)

/-- `%d`: the number and what stays unread. -/
def scanInt (s : List UInt8) : Option (ℤ × List UInt8) :=
  let (negative, t) := signOf (s.dropWhile isspace)
  match digitsOf byteDigit t with
  | ([], _) => none
  | (d :: ds, rest) => some (storeInt negative (value 10 (d :: ds)), rest)

/-- `%x` -/
def scanHex (s : List UInt8) : Option (ℤ × List UInt8) :=
  let (negative, t) := signOf (s.dropWhile isspace)
  match digitsOf hexDigit (hexPrefix t) with
  | ([], _) => none
  | (d :: ds, rest) => some (storeHex negative (value 16 (d :: ds)), rest)

/-- `%*s` -/
def skipString (s : List UInt8) : Option (List UInt8) :=
  if s.dropWhile isspace = [] then none
  else some ((s.dropWhile isspace).dropWhile fun b => !isspace b)

def atoi (s : List UInt8) : ℤ :=
  match scanInt s with
  | some (n, _) => n
  | none => 0

/-! ### Numbers as they are printed -/

def digitByte (d : ℕ) : UInt8 :=
  UInt8.ofNat (if d < 10 then 48 + d else 87 + d)

def decimal (n : ℕ) : List UInt8 :=
  (numeral 10 n).map digitByte

/-- A number with zeros before it up to this width. -/
def hexadecimal (width n : ℕ) : List UInt8 :=
  (List.replicate (width - (numeral 16 n).length) 0 ++ numeral 16 n).map digitByte

theorem hexDigit_digitByte {d : ℕ} (h : d < 16) : hexDigit (digitByte d) = some d := by
  interval_cases d <;> rfl

theorem byteDigit_digitByte {d : ℕ} (h : d < 10) : byteDigit (digitByte d) = some d := by
  interval_cases d <;> rfl

theorem digitByte_toNat {d : ℕ} (h : d < 10) : (digitByte d).toNat = 48 + d := by
  interval_cases d <;> rfl

/-- A byte of a number is no mark that its reader looks for. -/
theorem digitByte_facts {d : ℕ} (h : d < 16) :
    isspace (digitByte d) = false ∧ digitByte d ≠ 45 ∧ digitByte d ≠ 43 ∧ digitByte d ≠ 120 ∧
      digitByte d ≠ 88 := by
  interval_cases d <;> decide

theorem le_digitByte {d : ℕ} (h : d < 16) : 48 ≤ (digitByte d).toNat := by
  interval_cases d <;> decide

theorem lt_of_mem_decimal {n d : ℕ} (h : d ∈ numeral 10 n) : d < 10 :=
  lt_of_mem_numeral (by decide) h

theorem lt_of_mem_hexadecimal {k n d : ℕ} (h : d ∈ List.replicate k 0 ++ numeral 16 n) :
    d < 16 := by
  obtain hzero | hdigit := List.mem_append.mp h
  · rw [(List.mem_replicate.mp hzero).2]
    decide
  · exact lt_of_mem_numeral (by decide) hdigit

theorem le_of_mem_decimal {n : ℕ} {b : UInt8} (h : b ∈ decimal n) : 48 ≤ b.toNat := by
  obtain ⟨d, hd, rfl⟩ := List.mem_map.mp h
  exact le_digitByte ((lt_of_mem_decimal hd).trans (by decide))

theorem le_of_mem_hexadecimal {width n : ℕ} {b : UInt8} (h : b ∈ hexadecimal width n) :
    48 ≤ b.toNat := by
  obtain ⟨d, hd, rfl⟩ := List.mem_map.mp h
  exact le_digitByte (lt_of_mem_hexadecimal hd)

theorem length_decimal_le {n k : ℕ} (hk : 0 < k) (h : n < 10 ^ k) : (decimal n).length ≤ k := by
  rw [decimal, List.length_map]
  exact length_numeral_le (by decide) hk h

theorem length_hexadecimal_le (width : ℕ) {n k : ℕ} (hwidth : width ≤ k) (hk : 0 < k) (h : n < 16 ^ k) :
    (hexadecimal width n).length ≤ k := by
  have hlen := length_numeral_le (by decide) hk h
  rw [hexadecimal, List.length_map, List.length_append, List.length_replicate]
  omega

theorem exists_hexadecimal_eq_cons (k n : ℕ) :
    ∃ d ds, List.replicate k 0 ++ numeral 16 n = d :: ds := by
  obtain ⟨e, es, h⟩ := exists_numeral_eq_cons 16 n
  apply List.exists_cons_of_ne_nil
  rw [h]
  exact List.append_ne_nil_of_right_ne_nil _ (List.cons_ne_nil e es)

theorem storeInt_of_lt {n : ℕ} (h : n < 2 ^ 31) : storeInt false n = n := by
  have hmin : min n (2 ^ 63 - 1) = n := by omega
  rw [storeInt, hmin, if_neg Bool.false_ne_true]
  apply Int.bmod_eq_of_le <;> omega

theorem storeHex_of_lt {n : ℕ} (h : n < 2 ^ 31) : storeHex false n = n := by
  have hmin : min n (2 ^ 64 - 1) = n := by omega
  rw [storeHex, hmin, if_neg Bool.false_ne_true]
  apply Int.bmod_eq_of_le <;> omega

theorem dropWhile_spaces {blanks s : List UInt8} (hblanks : ∀ b ∈ blanks, isspace b = true)
    (hs : ∀ b ∈ s.head?, isspace b = false) : (blanks ++ s).dropWhile isspace = s := by
  rw [List.dropWhile_append_of_pos hblanks]
  cases s with
  | nil => rfl
  | cons b s => rw [List.dropWhile_cons_of_neg (by rw [hs b rfl]; decide)]

theorem signOf_digitByte {d : ℕ} (h : d < 16) (s : List UInt8) :
    signOf (digitByte d :: s) = (false, digitByte d :: s) := by
  obtain ⟨_, hminus, hplus, _, _⟩ := digitByte_facts h
  rw [signOf, if_neg hminus, if_neg hplus]

/-- `%d` reads a number that was printed, up to what is no digit. -/
theorem scanInt_decimal (blanks : List UInt8) (hblanks : ∀ b ∈ blanks, isspace b = true) {n : ℕ}
    (hn : n < 2 ^ 31) {rest : List UInt8} (hrest : ∀ b ∈ rest.head?, byteDigit b = none) :
    scanInt (blanks ++ (decimal n ++ rest)) = some ((n : ℤ), rest) := by
  have hread := digitsOf_append (numeral 10 n)
    (fun d hd => byteDigit_digitByte (lt_of_mem_decimal hd)) hrest
  have hvalue := value_numeral 10 n
  rw [decimal]
  obtain ⟨d, ds, hcons⟩ := exists_numeral_eq_cons 10 n
  have hd : d < 16 := (lt_of_mem_decimal (hcons ▸ List.mem_cons_self)).trans (by decide)
  rw [hcons, List.map_cons, List.cons_append] at hread
  have hblank : (blanks ++ (digitByte d :: (ds.map digitByte ++ rest))).dropWhile isspace =
      digitByte d :: (ds.map digitByte ++ rest) := by
    apply dropWhile_spaces hblanks
    rintro b ⟨⟩
    exact (digitByte_facts hd).1
  rw [hcons] at hvalue
  rw [hcons, List.map_cons, List.cons_append]
  simp only [scanInt, hblank, signOf_digitByte hd, hread, hvalue, storeInt_of_lt hn]

theorem hexPrefix_eq {s : List UInt8} (h : 120 ∉ s.take 2 ∧ 88 ∉ s.take 2) : hexPrefix s = s := by
  apply if_neg
  rintro ⟨hx | hX, _⟩
  · rw [hx] at h
    exact h.1 (by decide)
  · rw [hX] at h
    exact h.2 (by decide)

/-- `%x` reads a number that was printed, up to what is no digit and no mark of the base. -/
theorem scanHex_hexadecimal (blanks : List UInt8) (hblanks : ∀ b ∈ blanks, isspace b = true)
    (width : ℕ) {n : ℕ} (hn : n < 2 ^ 31) {b : UInt8} (hb : hexDigit b = none)
    (hbase : b ≠ 120 ∧ b ≠ 88) (rest : List UInt8) :
    scanHex (blanks ++ (hexadecimal width n ++ b :: rest)) = some ((n : ℤ), b :: rest) := by
  rw [hexadecimal]
  have hend : ∀ c ∈ (b :: rest).head?, hexDigit c = none := by
    rintro c ⟨⟩
    exact hb
  have hread := digitsOf_append (List.replicate (width - (numeral 16 n).length) 0 ++ numeral 16 n)
    (fun d hd => hexDigit_digitByte (lt_of_mem_hexadecimal hd)) hend
  have hvalue : value 16 (List.replicate (width - (numeral 16 n).length) 0 ++ numeral 16 n) = n := by
    rw [value_append_zeros, value_numeral]
  obtain ⟨d, ds, hcons⟩ := exists_hexadecimal_eq_cons (width - (numeral 16 n).length) n
  have hdigits : ∀ e ∈ d :: ds, e < 16 := fun e he => lt_of_mem_hexadecimal (hcons ▸ he)
  rw [hcons] at hread hvalue ⊢
  have hd := hdigits d List.mem_cons_self
  have hblank : (blanks ++ (digitByte d :: (ds.map digitByte ++ b :: rest))).dropWhile isspace =
      digitByte d :: (ds.map digitByte ++ b :: rest) := by
    apply dropWhile_spaces hblanks
    rintro b ⟨⟩
    exact (digitByte_facts hd).1
  have hfront : hexPrefix (digitByte d :: (ds.map digitByte ++ b :: rest)) =
      digitByte d :: (ds.map digitByte ++ b :: rest) := by
    apply hexPrefix_eq
    obtain ⟨_, _, _, hx, hX⟩ := digitByte_facts hd
    cases ds with
    | nil => simp [hx.symm, hX.symm, hbase.1.symm, hbase.2.symm]
    | cons e ds =>
      obtain ⟨_, _, _, hx', hX'⟩ := digitByte_facts (hdigits e (by simp))
      simp [hx.symm, hX.symm, hx'.symm, hX'.symm]
  rw [List.map_cons, List.cons_append] at hread ⊢
  simp only [scanHex, hblank, signOf_digitByte hd, hfront, hread, hvalue, storeHex_of_lt hn]

theorem skipString_append (blanks : List UInt8) {word rest : List UInt8} {b : UInt8}
    (hblanks : ∀ b ∈ blanks, isspace b = true) (hword : ∀ b ∈ word, isspace b = false)
    (hne : word ≠ []) (hb : isspace b = true) :
    skipString (blanks ++ (word ++ b :: rest)) = some (b :: rest) := by
  have hblank : (blanks ++ (word ++ b :: rest)).dropWhile isspace = word ++ b :: rest := by
    apply dropWhile_spaces hblanks
    obtain ⟨c, w, rfl⟩ := List.exists_cons_of_ne_nil hne
    rintro c ⟨⟩
    exact hword c List.mem_cons_self
  rw [skipString, hblank, if_neg (List.append_ne_nil_of_left_ne_nil hne _),
    List.dropWhile_append_of_pos (by simpa using hword), List.dropWhile_cons_of_neg (by simp [hb])]

theorem skipString_first {word rest : List UInt8} (hword : ∀ b ∈ word, isspace b = false)
    (hne : word ≠ []) : skipString (word ++ 32 :: rest) = some (32 :: rest) :=
  skipString_append [] (fun _ hb => absurd hb List.not_mem_nil) hword hne rfl

theorem skipString_next {word rest : List UInt8} (hword : ∀ b ∈ word, isspace b = false)
    (hne : word ≠ []) : skipString (32 :: (word ++ 32 :: rest)) = some (32 :: rest) :=
  skipString_append [32] (by simp [isspace]) hword hne rfl

end Scanning

end EnvironmentCheck
