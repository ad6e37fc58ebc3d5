import EnvironmentCheck.Library.Buffer
import Mathlib.Tactic.Linarith

namespace EnvironmentCheck.BackReference

open Buffer

variable {α : Type*}

/-- Element by element, so that a copy may read what it has itself written. -/
def extend (offset : ℕ) : ℕ → List α → List α
  | 0, out => out
  | n + 1, out => extend offset n (out ++ out[out.length - offset]?.toList)

inductive Item (α : Type*)
  | literal (xs : List α)
  | copy (offset length : ℕ)

def Item.apply (out : List α) : Item α → Option (List α)
  | .literal xs => some (out ++ xs)
  | .copy offset length =>
    if 0 < offset ∧ offset ≤ out.length then some (extend offset length out) else none

/-- From `start` to `n` every element repeats the one `offset` before it. -/
def Repeats (offset start n : ℕ) (xs : List α) : Prop :=
  ∀ i, start ≤ i → i < n → xs[i]? = xs[i - offset]?

variable {offset start n k src dst pos : ℕ} {mem mem' out xs : List α}

theorem length_extend (h : 0 < offset) (hout : offset ≤ out.length) :
    (extend offset n out).length = out.length + n := by
  induction n generalizing out with
  | zero => rfl
  | succ n ih =>
    have hback : out.length - offset < out.length := by omega
    rw [extend, List.getElem?_eq_getElem hback, Option.toList_some, ih (by simp; omega)]
    simp only [List.length_append, List.length_singleton]
    omega

/-- What lies before everything that is copied stays out of it. -/
theorem extend_append (before : List α) (hout : offset ≤ out.length) :
    extend offset n (before ++ out) = before ++ extend offset n out := by
  induction n generalizing out with
  | zero => rfl
  | succ n ih =>
    have hback : (before ++ out)[(before ++ out).length - offset]? = out[out.length - offset]? := by
      rw [List.length_append, List.getElem?_append_right (by omega)]
      congr 1
      omega
    rw [extend, extend, hback, List.append_assoc, ih]
    rw [List.length_append]
    omega

theorem extend_add (m n : ℕ) (out : List α) :
    extend offset (m + n) out = extend offset n (extend offset m out) := by
  induction m generalizing out with
  | zero => rw [Nat.zero_add, extend]
  | succ m ih => rw [Nat.succ_add, extend, extend, ih]

theorem eq_extend (h : 0 < offset) (hout : offset ≤ out.length)
    (hlength : xs.length = out.length + n) (hfront : xs.take out.length = out)
    (hxs : Repeats offset out.length xs.length xs) : xs = extend offset n out := by
  induction n generalizing out with
  | zero => rw [extend, ← hfront, List.take_of_length_le (by omega)]
  | succ n ih =>
    have hback : out.length - offset < out.length := by omega
    have hnext : xs[out.length]? = out[out.length - offset]? := by
      rw [hxs out.length le_rfl (by omega), ← List.getElem?_take_of_lt hback, hfront]
    have hlonger : xs.take (out.length + 1) = out ++ out[out.length - offset]?.toList := by
      rw [List.take_add_one, hfront, hnext]
    rw [List.getElem?_eq_getElem hback, Option.toList_some] at hlonger
    rw [extend, List.getElem?_eq_getElem hback, Option.toList_some]
    apply ih
    · simp only [List.length_append, List.length_singleton]
      omega
    · simp only [List.length_append, List.length_singleton]
      omega
    · rw [List.length_append, List.length_singleton]
      exact hlonger
    · intro i hi
      rw [List.length_append, List.length_singleton] at hi
      exact hxs i (by omega)

/-- What has been copied is a prefix of something that repeats itself at this offset. -/
theorem take_eq_extend (h : 0 < offset) (hpos : offset ≤ pos) (hlength : pos + n ≤ xs.length)
    (hxs : Repeats offset pos (pos + n) xs) : xs.take (pos + n) = extend offset n (xs.take pos) := by
  have hpre : (xs.take pos).length = pos := by
    rw [List.length_take]
    omega
  apply eq_extend h
  · omega
  · rw [List.length_take, hpre]
    omega
  · rw [hpre, List.take_take, Nat.min_eq_left (Nat.le_add_right pos n)]
  · intro i hi hlt
    rw [hpre] at hi
    rw [List.length_take] at hlt
    rw [List.getElem?_take_of_lt (by omega), List.getElem?_take_of_lt (by omega)]
    exact hxs i hi (by omega)

/-- What does not reach itself is copied at once. -/
theorem extend_of_le (hn : n ≤ offset) (hout : offset ≤ out.length) :
    extend offset n out = out ++ (out.drop (out.length - offset)).take n := by
  obtain rfl | hpos := Nat.eq_zero_or_pos n
  · rw [extend, List.take_zero, List.append_nil]
  have hchunk : ((out.drop (out.length - offset)).take n).length = n := by
    rw [List.length_take, List.length_drop]
    omega
  symm
  apply eq_extend (by omega) hout
  · rw [List.length_append, hchunk]
  · exact List.take_left
  · intro i hi hlt
    rw [List.length_append, hchunk] at hlt
    rw [List.getElem?_append_right hi, List.getElem?_take_of_lt (by omega), List.getElem?_drop,
      List.getElem?_append_left (by omega)]
    congr 1
    omega

theorem Repeats.mono {m : ℕ} (hxs : Repeats offset start n xs) (h : m ≤ n) :
    Repeats offset start m xs :=
  fun i hi hlt => hxs i hi (hlt.trans_le h)

theorem Repeats.back (hxs : Repeats offset start n xs) (h : offset ≤ start) (c : ℕ) {i : ℕ}
    (hi : start + c * offset ≤ i + offset) (hlt : i < n) : xs[i]? = xs[i - c * offset]? := by
  induction c generalizing i with
  | zero => rw [Nat.zero_mul, Nat.sub_zero]
  | succ c ih =>
    have hmul : (c + 1) * offset = c * offset + offset := Nat.succ_mul c offset
    rw [hxs i (by omega) hlt, ih (by omega) (by omega), hmul]
    congr 1
    omega

/-- A block may be moved from any multiple of the offset further back, for what lies before its own
beginning. -/
theorem Repeats.move (hmem : Repeats offset start dst mem) (h : offset ≤ start) (c : ℕ)
    (hdst : dst = src + (c + 1) * offset) (hsrc : start ≤ src + offset)
    (hmove : move mem src dst k = some mem') :
    Repeats offset start (dst + min k (dst - src)) mem' := by
  have hmul : (c + 1) * offset = c * offset + offset := Nat.succ_mul c offset
  obtain ⟨xs, hload, hstore⟩ := Option.bind_eq_some_iff.mp hmove
  have hxs := length_load hload
  intro i hi hlt
  obtain hbefore | hinside := lt_or_ge i dst
  · rw [getElem?_store_of_lt hstore hbefore, getElem?_store_of_lt hstore (by omega)]
    exact hmem i hi hbefore
  · have hread : mem'[i]? = mem[src + (i - dst)]? := by
      rw [← getElem?_move hmove (by omega)]
      congr 1
      omega
    rw [hread]
    obtain hearlier | hlater := lt_or_ge (i - offset) dst
    · rw [getElem?_store_of_lt hstore hearlier,
        hmem.back h c (i := i - offset) (by omega) hearlier]
      congr 1
      omega
    · have hread' : mem'[i - offset]? = mem[src + (i - dst) - offset]? := by
        rw [show i - offset = dst + (i - offset - dst) by omega, getElem?_move hmove (by omega)]
        congr 1
        omega
      rw [hread']
      exact hmem _ (by omega) (by omega)

/-- The memory up to `limit`, where what follows `start` has been filled up to `n`. -/
structure Filled (offset start limit : ℕ) (mem : List α) (n : ℕ) (mem' : List α) : Prop where
  size : mem'.length = mem.length
  before : mem'.take start = mem.take start
  after : mem'.drop limit = mem.drop limit
  repeats : Repeats offset start n mem'

theorem filled_start (offset start limit : ℕ) (mem : List α) :
    Filled offset start limit mem start mem :=
  ⟨rfl, rfl, rfl, fun _ hi hlt => absurd hi (not_le.mpr hlt)⟩

theorem Filled.mono {limit m : ℕ} (h : Filled offset start limit mem n mem') (hm : m ≤ n) :
    Filled offset start limit mem m mem' :=
  ⟨h.size, h.before, h.after, h.repeats.mono hm⟩

theorem Filled.move {limit : ℕ} (h : Filled offset start limit mem dst mem') (hstart : start ≤ dst)
    (hoffset : offset ≤ start) (hback : offset ∣ dst - src) (hlt : src < dst)
    (hsrc : start ≤ src + offset) (hdst : dst + k ≤ limit) (hlimit : limit ≤ mem.length) :
    ∃ mem'', move mem' src dst k = some mem'' ∧
      Filled offset start limit mem (dst + min k (dst - src)) mem'' := by
  have hsize := h.size
  obtain ⟨mem'', hmove⟩ :=
    exists_move (show src + k ≤ mem'.length by omega) (show dst + k ≤ mem'.length by omega)
  refine ⟨mem'', hmove, (length_move hmove).trans hsize, ?_, ?_, ?_⟩
  · rw [take_of_move hmove hstart, h.before]
  · rw [drop_move hmove hdst, h.after]
  · obtain ⟨c, hc⟩ := hback
    obtain ⟨c, rfl⟩ : ∃ c', c = c' + 1 := by
      apply Nat.exists_eq_succ_of_ne_zero
      rintro rfl
      rw [Nat.mul_zero] at hc
      omega
    apply h.repeats.move hoffset c _ hsrc hmove
    rw [Nat.mul_comm, ← hc]
    omega

theorem Filled.take_eq {limit : ℕ} (h : Filled offset start limit mem (start + n) mem')
    (hpos : 0 < offset) (hoffset : offset ≤ start) (hfits : start + n ≤ mem.length) :
    mem'.take (start + n) = extend offset n (mem.take start) := by
  have hsize := h.size
  rw [take_eq_extend hpos hoffset (by omega) h.repeats, h.before]

theorem length_le_of_apply {item : Item α} {next : List α} (h : item.apply out = some next) :
    out.length ≤ next.length := by
  cases item with
  | literal xs =>
    cases h
    rw [List.length_append]
    omega
  | copy offset length =>
    rw [Item.apply] at h
    split_ifs at h with hback
    cases h
    rw [length_extend hback.1 hback.2]
    omega

theorem apply_copy_take (h : 0 < offset) (hpos : offset ≤ pos) (hlength : pos + n ≤ xs.length)
    (hxs : Repeats offset pos (pos + n) xs) :
    Item.apply (xs.take pos) (.copy offset n) = some (xs.take (pos + n)) := by
  have hpre : (xs.take pos).length = pos := by
    rw [List.length_take]
    omega
  rw [Item.apply, if_pos ⟨h, hpre.symm ▸ hpos⟩, take_eq_extend h hpos hlength hxs]

end EnvironmentCheck.BackReference
