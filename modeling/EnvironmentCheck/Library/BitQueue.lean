import Mathlib.Tactic.Ring

namespace EnvironmentCheck.BitQueue

/-- The number that a list of bits writes, the highest bit first. -/
def value : List Bool → ℕ
  | [] => 0
  | b :: bs => b.toNat * 2 ^ bs.length + value bs

/-- The lowest `n` bits of a number. -/
def word : ℕ → ℕ → List Bool
  | 0, _ => []
  | n + 1, v => decide (v / 2 ^ n % 2 = 1) :: word n v

def zeros (n : ℕ) : List Bool := List.replicate n false

section Bits

variable {n v : ℕ} {bs : List Bool}

theorem value_lt (bs : List Bool) : value bs < 2 ^ bs.length := by
  induction bs with
  | nil => exact Nat.one_pos
  | cons b bs ih =>
    have hb := b.toNat_lt
    have hmul : b.toNat * 2 ^ bs.length ≤ 1 * 2 ^ bs.length := Nat.mul_le_mul_right _ (by omega)
    rw [value, List.length_cons, Nat.pow_succ]
    omega

theorem value_append (xs ys : List Bool) : value (xs ++ ys) = value xs * 2 ^ ys.length + value ys := by
  induction xs with
  | nil => simp [value]
  | cons x xs ih =>
    rw [List.cons_append, value, value, ih, List.length_append, Nat.pow_add]
    ring

theorem length_word (n v : ℕ) : (word n v).length = n := by
  induction n with
  | zero => rfl
  | succ n ih => rw [word, List.length_cons, ih]

theorem length_zeros (n : ℕ) : (zeros n).length = n := List.length_replicate

theorem value_word (n v : ℕ) : value (word n v) = v % 2 ^ n := by
  induction n with
  | zero => simp [word, value, Nat.mod_one]
  | succ n ih =>
    rw [word, value, length_word, ih, Nat.mod_pow_succ]
    obtain h | h := Nat.mod_two_eq_zero_or_one (v / 2 ^ n)
    · simp [h]
    · simp [h, Nat.add_comm]

theorem value_word_of_lt (h : v < 2 ^ n) : value (word n v) = v := by
  rw [value_word, Nat.mod_eq_of_lt h]

theorem value_inj {xs ys : List Bool} (hlen : xs.length = ys.length) (h : value xs = value ys) :
    xs = ys := by
  induction xs generalizing ys with
  | nil => exact (List.eq_nil_of_length_eq_zero hlen.symm).symm
  | cons x xs ih =>
    cases ys with
    | nil => cases hlen
    | cons y ys =>
      have htail : xs.length = ys.length := Nat.succ.inj hlen
      have hx := value_lt xs
      have hy := value_lt ys
      rw [value, value, htail] at h
      rw [htail] at hx
      obtain rfl : x = y := by
        cases x <;> cases y <;> simp at h ⊢ <;> omega
      rw [ih htail (by omega)]

theorem word_value (bs : List Bool) : word bs.length (value bs) = bs := by
  apply value_inj (length_word _ _)
  exact value_word_of_lt (value_lt bs)

theorem value_zeros (n : ℕ) : value (zeros n) = 0 := by
  induction n with
  | zero => rfl
  | succ n ih =>
    rw [zeros, List.replicate_succ, value, Bool.toNat_false, Nat.zero_mul, Nat.zero_add]
    exact ih

theorem eq_zeros_iff : bs = zeros bs.length ↔ value bs = 0 := by
  constructor
  · intro h
    rw [h]
    exact value_zeros _
  · intro h
    apply value_inj (length_zeros _).symm
    rw [h, value_zeros]

theorem value_split (n : ℕ) (bs : List Bool) :
    value bs = value (bs.drop n) + value (bs.take n) * 2 ^ (bs.drop n).length := by
  rw [Nat.add_comm, ← value_append, List.take_append_drop]

theorem value_take (n : ℕ) (bs : List Bool) :
    value (bs.take n) = value bs / 2 ^ (bs.drop n).length := by
  rw [value_split n bs, Nat.add_mul_div_right _ _ (Nat.two_pow_pos _),
    Nat.div_eq_of_lt (value_lt _), Nat.zero_add]

theorem value_drop (n : ℕ) (bs : List Bool) :
    value (bs.drop n) = value bs % 2 ^ (bs.drop n).length := by
  rw [value_split n bs, Nat.add_mul_mod_self_right, Nat.mod_eq_of_lt (value_lt _)]

end Bits

section Words

variable {n : ℕ} {vs ws : List ℕ}

def words (n : ℕ) (vs : List ℕ) : List Bool := vs.flatMap (word n)

theorem words_cons (n v : ℕ) (vs : List ℕ) : words n (v :: vs) = word n v ++ words n vs := rfl

theorem length_words (n : ℕ) (vs : List ℕ) : (words n vs).length = n * vs.length := by
  induction vs with
  | nil => rfl
  | cons v vs ih =>
    rw [words_cons, List.length_append, length_word, ih, List.length_cons]
    ring

theorem words_inj (hv : ∀ v ∈ vs, v < 2 ^ n) (hw : ∀ w ∈ ws, w < 2 ^ n)
    (hlen : vs.length = ws.length) (h : words n vs = words n ws) : vs = ws := by
  induction vs generalizing ws with
  | nil => exact (List.eq_nil_of_length_eq_zero hlen.symm).symm
  | cons v vs ih =>
    cases ws with
    | nil => cases hlen
    | cons w ws =>
      have hword : (word n v).length = (word n w).length := by rw [length_word, length_word]
      obtain ⟨hfirst, hrest⟩ := List.append_inj h hword
      have hvalue := congrArg value hfirst
      rw [value_word_of_lt (hv v (by simp)), value_word_of_lt (hw w (by simp))] at hvalue
      rw [hvalue, ih (fun v h => hv v (List.mem_cons_of_mem _ h))
        (fun w h => hw w (List.mem_cons_of_mem _ h)) (Nat.succ.inj hlen) hrest]

/-- Two ways of writing the same bits as words and a rest shorter than a word. -/
theorem words_append_inj {xs ys : List Bool} (hv : ∀ v ∈ vs, v < 2 ^ n) (hw : ∀ w ∈ ws, w < 2 ^ n)
    (hx : xs.length < n) (hy : ys.length < n) (h : words n vs ++ xs = words n ws ++ ys) :
    vs = ws ∧ xs = ys := by
  have hlen := congrArg List.length h
  rw [List.length_append, List.length_append, length_words, length_words] at hlen
  have hcount : vs.length = ws.length := by
    have hdiv := congrArg (· / n) hlen
    simp only [Nat.mul_add_div (Nat.zero_lt_of_lt hx), Nat.div_eq_of_lt hx,
      Nat.div_eq_of_lt hy] at hdiv
    exact hdiv
  obtain ⟨hwords, hrest⟩ := List.append_inj h (by rw [length_words, length_words, hcount])
  exact ⟨words_inj hv hw hcount hwords, hrest⟩

end Words

/-- The buffer has the bits in its highest places, and zeros below. -/
structure Holds (width buffer : ℕ) (bits : List Bool) : Prop where
  room : bits.length ≤ width
  eq : buffer = value bits * 2 ^ (width - bits.length)

section Holds

variable {width buffer n v : ℕ} {bits : List Bool}

theorem Holds.nil (width : ℕ) : Holds width 0 [] := ⟨Nat.zero_le _, by simp [value]⟩

theorem Holds.append (h : Holds width buffer bits) (hv : v < 2 ^ n)
    (hroom : bits.length + n ≤ width) :
    Holds width (buffer ||| v <<< (width - bits.length - n)) (bits ++ word n v) := by
  have hlen : (bits ++ word n v).length = bits.length + n := by
    rw [List.length_append, length_word]
  have hsplit : width - bits.length = n + (width - bits.length - n) := by omega
  have hlow : v <<< (width - bits.length - n) < 2 ^ (width - bits.length) := by
    rw [Nat.shiftLeft_eq]
    conv_rhs => rw [hsplit, Nat.pow_add]
    exact Nat.mul_lt_mul_of_pos_right hv (Nat.two_pow_pos _)
  refine ⟨by omega, ?_⟩
  rw [hlen, value_append, length_word, value_word_of_lt hv, h.eq, ← Nat.shiftLeft_eq,
    ← Nat.shiftLeft_add_eq_or_of_lt hlow, Nat.shiftLeft_eq, Nat.shiftLeft_eq, Nat.sub_add_eq]
  conv_lhs => rw [hsplit, Nat.pow_add]
  rw [show n + (width - bits.length - n) - n = width - bits.length - n by omega]
  ring

/-- The highest `n` places of the buffer. -/
theorem Holds.peek (h : Holds width buffer bits) (hn : n ≤ width) :
    buffer >>> (width - n) = value ((bits ++ zeros (n - bits.length)).take n) := by
  have hroom := h.room
  rw [Nat.shiftRight_eq_div_pow, h.eq, value_take, value_append, value_zeros, length_zeros,
    Nat.add_zero]
  obtain hle | hle := Nat.le_total n bits.length
  · have hzero : n - bits.length = 0 := by omega
    have hsplit : width - n = (bits.length - n) + (width - bits.length) := by omega
    rw [hzero, hsplit, Nat.pow_add, Nat.mul_div_mul_right _ _ (Nat.two_pow_pos _)]
    simp [zeros]
  · have hsplit : width - bits.length = (n - bits.length) + (width - n) := by omega
    rw [hsplit, Nat.pow_add, ← Nat.mul_assoc, Nat.mul_div_cancel _ (Nat.two_pow_pos _),
      List.drop_eq_nil_of_le (by rw [List.length_append, length_zeros]; omega)]
    simp

theorem Holds.drop (h : Holds width buffer bits) (hn : n ≤ bits.length) :
    Holds width ((buffer <<< n) &&& (2 ^ width - 1)) (bits.drop n) := by
  have hroom := h.room
  refine ⟨by rw [List.length_drop]; omega, ?_⟩
  have hsplit : width - (bits.drop n).length = n + (width - bits.length) := by
    rw [List.length_drop]
    omega
  have hwidth : 2 ^ width = 2 ^ (bits.drop n).length * 2 ^ (n + (width - bits.length)) := by
    rw [← Nat.pow_add, List.length_drop]
    congr 1
    omega
  rw [Nat.and_two_pow_sub_one_eq_mod, Nat.shiftLeft_eq, h.eq, hsplit, value_drop, hwidth,
    Nat.mul_assoc, ← Nat.pow_add, Nat.add_comm (width - bits.length) n,
    Nat.mul_mod_mul_right]

end Holds

end EnvironmentCheck.BitQueue
