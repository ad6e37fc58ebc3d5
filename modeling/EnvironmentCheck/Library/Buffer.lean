import Mathlib.Data.List.TakeDrop

namespace EnvironmentCheck.Buffer

variable {α : Type*}

/-- `n` elements from `i` on, none of them past the end. -/
def load (mem : List α) (i n : ℕ) : Option (List α) :=
  if i + n ≤ mem.length then some ((mem.drop i).take n) else none

def store (mem : List α) (i : ℕ) (xs : List α) : Option (List α) :=
  if i + xs.length ≤ mem.length then some (mem.take i ++ xs ++ mem.drop (i + xs.length)) else none

/-- The `n` elements from `src` on are read before any of them is written. -/
def move (mem : List α) (src dst n : ℕ) : Option (List α) :=
  (load mem src n).bind (store mem dst)

variable {mem mem' xs : List α} {i j k n src dst : ℕ}

theorem load_of_le (h : i + n ≤ mem.length) : load mem i n = some ((mem.drop i).take n) := if_pos h

theorem load_eq_some : load mem i n = some xs ↔ i + n ≤ mem.length ∧ xs = (mem.drop i).take n := by
  rw [load]
  split_ifs with h
  · rw [Option.some.injEq, eq_comm]
    exact ⟨fun hxs => ⟨h, hxs⟩, And.right⟩
  · simp [h]

theorem length_load (h : load mem i n = some xs) : xs.length = n := by
  obtain ⟨hle, rfl⟩ := load_eq_some.mp h
  rw [List.length_take, List.length_drop]
  omega

theorem getElem?_load (h : load mem i n = some xs) (hj : j < n) : xs[j]? = mem[i + j]? := by
  obtain ⟨-, rfl⟩ := load_eq_some.mp h
  rw [List.getElem?_take_of_lt hj, List.getElem?_drop]

theorem exists_store (h : i + xs.length ≤ mem.length) : ∃ mem', store mem i xs = some mem' :=
  ⟨_, if_pos h⟩

theorem store_eq_some : store mem i xs = some mem' ↔
    i + xs.length ≤ mem.length ∧ mem' = mem.take i ++ xs ++ mem.drop (i + xs.length) := by
  rw [store]
  split_ifs with h
  · rw [Option.some.injEq, eq_comm]
    exact ⟨fun hmem => ⟨h, hmem⟩, And.right⟩
  · simp [h]

theorem length_store (h : store mem i xs = some mem') : mem'.length = mem.length := by
  obtain ⟨hle, rfl⟩ := store_eq_some.mp h
  simp only [List.length_append, List.length_take, List.length_drop]
  omega

/-- Where a prefix of what was stored counts, the rest of it does not matter. -/
theorem take_store (h : store mem i xs = some mem') (hk : k ≤ xs.length) :
    mem'.take (i + k) = mem.take i ++ xs.take k := by
  obtain ⟨hle, rfl⟩ := store_eq_some.mp h
  have hlength : (mem.take i).length = i := by
    rw [List.length_take]
    omega
  rw [List.append_assoc, List.take_append, hlength, List.take_take, Nat.add_sub_cancel_left,
    List.take_append_of_le_length hk, Nat.min_eq_right (Nat.le_add_right i k)]

theorem take_of_store (h : store mem i xs = some mem') (hj : j ≤ i) : mem'.take j = mem.take j := by
  have hfront := congrArg (List.take j) (take_store h (Nat.zero_le _))
  rw [List.take_take, List.take_zero, List.append_nil, List.take_take] at hfront
  rwa [Nat.min_eq_left (by omega), Nat.min_eq_left hj] at hfront

theorem getElem?_store (h : store mem i xs = some mem') (hi : i ≤ j) (hj : j < i + xs.length) :
    mem'[j]? = xs[j - i]? := by
  obtain ⟨hle, rfl⟩ := store_eq_some.mp h
  have hlength : (mem.take i).length = i := by
    rw [List.length_take]
    omega
  rw [List.append_assoc, List.getElem?_append_right (by omega), hlength,
    List.getElem?_append_left (by omega)]

theorem getElem?_store_of_lt (h : store mem i xs = some mem') (hj : j < i) : mem'[j]? = mem[j]? := by
  rw [← List.getElem?_take_of_lt (Nat.lt_succ_self j), take_of_store h hj,
    List.getElem?_take_of_lt (Nat.lt_succ_self j)]

theorem drop_store (h : store mem i xs = some mem') (hj : i + xs.length ≤ j) :
    mem'.drop j = mem.drop j := by
  obtain ⟨hle, rfl⟩ := store_eq_some.mp h
  have hlength : (mem.take i ++ xs).length = i + xs.length := by
    rw [List.length_append, List.length_take]
    omega
  rw [List.drop_append, List.drop_eq_nil_of_le (by omega), List.nil_append, List.drop_drop, hlength]
  congr 1
  omega

theorem exists_move (hsrc : src + n ≤ mem.length) (hdst : dst + n ≤ mem.length) :
    ∃ mem', move mem src dst n = some mem' := by
  rw [move, load_of_le hsrc]
  apply exists_store
  rwa [length_load (load_of_le hsrc)]

theorem length_move (h : move mem src dst n = some mem') : mem'.length = mem.length := by
  obtain ⟨xs, -, hstore⟩ := Option.bind_eq_some_iff.mp h
  exact length_store hstore

theorem take_of_move (h : move mem src dst n = some mem') (hj : j ≤ dst) :
    mem'.take j = mem.take j := by
  obtain ⟨xs, -, hstore⟩ := Option.bind_eq_some_iff.mp h
  exact take_of_store hstore hj

theorem drop_move (h : move mem src dst n = some mem') (hj : dst + n ≤ j) :
    mem'.drop j = mem.drop j := by
  obtain ⟨xs, hload, hstore⟩ := Option.bind_eq_some_iff.mp h
  exact drop_store hstore (by rwa [length_load hload])

theorem getElem?_move (h : move mem src dst n = some mem') (hj : j < n) :
    mem'[dst + j]? = mem[src + j]? := by
  obtain ⟨xs, hload, hstore⟩ := Option.bind_eq_some_iff.mp h
  rw [getElem?_store hstore (Nat.le_add_right dst j) (by rw [length_load hload]; omega),
    Nat.add_sub_cancel_left, getElem?_load hload hj]

/-- Of blocks that all have the same size, but for the last one, which may be shorter. -/
theorem getElem?_flatten_of_blocks {full : List (List α)} {last : Option (List α)} (hn : 0 < n)
    (hfull : ∀ block ∈ full, block.length = n) (hlast : ∀ block ∈ last, block.length ≤ n)
    (hi : i < (full ++ last.toList).flatten.length) :
    (full ++ last.toList)[i / n]?.bind (fun block => block[i % n]?) = (full ++ last.toList).flatten[i]? := by
  induction full generalizing i with
  | nil =>
    cases last with
    | none => exact absurd hi (Nat.not_lt_zero i)
    | some block =>
      have hblock : block.length ≤ n := hlast block rfl
      rw [List.nil_append, Option.toList_some, List.flatten_cons, List.flatten_nil, List.append_nil] at hi ⊢
      rw [Nat.div_eq_of_lt (by omega), Nat.mod_eq_of_lt (by omega)]
      rfl
  | cons block full ih =>
    have hblock : block.length = n := hfull block List.mem_cons_self
    rw [List.cons_append, List.flatten_cons] at hi ⊢
    obtain hfirst | hlater := Nat.lt_or_ge i n
    · rw [Nat.div_eq_of_lt hfirst, Nat.mod_eq_of_lt hfirst, List.getElem?_append_left (by omega)]
      rfl
    · obtain ⟨j, rfl⟩ := Nat.exists_eq_add_of_le' hlater
      rw [List.length_append, hblock] at hi
      rw [Nat.add_div_right j hn, Nat.add_mod_right, List.getElem?_cons_succ,
        ih (fun b hb => hfull b (List.mem_cons_of_mem _ hb)) (by omega), List.getElem?_append_right (by omega),
        hblock, Nat.add_sub_cancel]

end EnvironmentCheck.Buffer
