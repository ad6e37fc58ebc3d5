import Mathlib.Data.Nat.Bitwise

namespace EnvironmentCheck.Sextets

abbrev digitOf (n : ℕ) : Fin 64 := .ofNat 64 n

def sextets : List UInt8 → List (Fin 64)
  | [] => []
  | [x] => [.ofNat 64 (x.toNat / 4), .ofNat 64 (x.toNat % 4 * 16)]
  | [x, y] => [.ofNat 64 (x.toNat / 4), .ofNat 64 (x.toNat % 4 * 16 + y.toNat / 16),
      .ofNat 64 (y.toNat % 16 * 4)]
  | x :: y :: z :: xs => .ofNat 64 (x.toNat / 4) :: .ofNat 64 (x.toNat % 4 * 16 + y.toNat / 16) ::
      .ofNat 64 (y.toNat % 16 * 4 + z.toNat / 64) :: .ofNat 64 (z.toNat % 64) :: sextets xs

/-- The bits that fill up the last digit are zero. -/
def octets : List (Fin 64) → Option (List UInt8)
  | [] => some []
  | [_] => none
  | [a, b] => if b.val % 16 = 0 then some [.ofNat (a.val * 4 + b.val / 16)] else none
  | [a, b, c] => if c.val % 4 = 0 then
      some [.ofNat (a.val * 4 + b.val / 16), .ofNat (b.val % 16 * 16 + c.val / 4)] else none
  | a :: b :: c :: d :: ds => (octets ds).map fun xs => .ofNat (a.val * 4 + b.val / 16) ::
      .ofNat (b.val % 16 * 16 + c.val / 4) :: .ofNat (c.val % 4 * 64 + d.val) :: xs

theorem ofNat_eq {n : ℕ} {a : Fin 64} (h : n % 64 = a.val) : Fin.ofNat 64 n = a := Fin.ext h

theorem uint8_ofNat_eq {n : ℕ} {x : UInt8} (h : n % 256 = x.toNat) : UInt8.ofNat n = x := by
  apply UInt8.toNat_inj.mp
  rw [UInt8.toNat_ofNat']
  exact h

theorem octets_sextets (xs : List UInt8) : octets (sextets xs) = some xs := by
  induction xs using sextets.induct with
  | case1 => rfl
  | case2 x =>
    have hx := x.toNat_lt
    simp only [sextets, octets, Fin.val_ofNat]
    rw [if_pos (by omega), uint8_ofNat_eq (x := x) (by omega)]
  | case3 x y =>
    have hx := x.toNat_lt
    have hy := y.toNat_lt
    simp only [sextets, octets, Fin.val_ofNat]
    rw [if_pos (by omega), uint8_ofNat_eq (x := x) (by omega), uint8_ofNat_eq (x := y) (by omega)]
  | case4 x y z xs ih =>
    have hx := x.toNat_lt
    have hy := y.toNat_lt
    have hz := z.toNat_lt
    simp only [sextets, octets, Fin.val_ofNat, ih, Option.map_some]
    rw [uint8_ofNat_eq (x := x) (by omega), uint8_ofNat_eq (x := y) (by omega),
      uint8_ofNat_eq (x := z) (by omega)]

theorem sextets_of_octets {ds : List (Fin 64)} {xs : List UInt8} (h : octets ds = some xs) :
    sextets xs = ds := by
  induction ds using octets.induct generalizing xs with
  | case1 =>
    rw [← Option.some.inj h]
    rfl
  | case2 a => cases h
  | case3 a b hb =>
    have ha := a.isLt
    rw [octets, if_pos hb] at h
    rw [← Option.some.inj h]
    simp only [sextets, UInt8.toNat_ofNat']
    rw [ofNat_eq (a := a) (by omega), ofNat_eq (a := b) (by omega)]
  | case4 a b hb =>
    rw [octets, if_neg hb] at h
    cases h
  | case5 a b c hc =>
    have ha := a.isLt
    have hlt := b.isLt
    rw [octets, if_pos hc] at h
    rw [← Option.some.inj h]
    simp only [sextets, UInt8.toNat_ofNat']
    rw [ofNat_eq (a := a) (by omega), ofNat_eq (a := b) (by omega), ofNat_eq (a := c) (by omega)]
  | case6 a b c hc =>
    rw [octets, if_neg hc] at h
    cases h
  | case7 a b c d ds ih =>
    obtain ⟨ys, hys, rfl⟩ := Option.map_eq_some_iff.mp h
    simp only [sextets, UInt8.toNat_ofNat']
    rw [ih hys, ofNat_eq (a := a) (by omega), ofNat_eq (a := b) (by omega),
      ofNat_eq (a := c) (by omega), ofNat_eq (a := d) (by omega)]

section Words

/-- Four digits in the low bits of a word. -/
def pack (a b c d : UInt32) : UInt32 := (a <<< 18) ||| (b <<< 12) ||| (c <<< 6) ||| d

def byteAt (word shift : UInt32) : UInt32 := (word >>> shift) &&& 0xFF

theorem pack_toNat {a b c d : ℕ} (ha : a < 64) (hb : b < 64) (hc : c < 64) (hd : d < 64) :
    (pack (.ofNat a) (.ofNat b) (.ofNat c) (.ofNat d)).toNat =
      a * 262144 + b * 4096 + c * 64 + d := by
  have hab : a <<< 18 ||| b <<< 12 = (a * 64 + b) <<< 12 := by
    rw [← Nat.shiftLeft_add_eq_or_of_lt (by rw [Nat.shiftLeft_eq]; omega)]
    simp only [Nat.shiftLeft_eq]
    omega
  have habc : (a * 64 + b) <<< 12 ||| c <<< 6 = (a * 4096 + b * 64 + c) <<< 6 := by
    rw [← Nat.shiftLeft_add_eq_or_of_lt (by rw [Nat.shiftLeft_eq]; omega)]
    simp only [Nat.shiftLeft_eq]
    omega
  have habcd : (a * 4096 + b * 64 + c) <<< 6 ||| d = a * 262144 + b * 4096 + c * 64 + d := by
    rw [← Nat.shiftLeft_add_eq_or_of_lt (by omega), Nat.shiftLeft_eq]
    omega
  have hshift : ∀ {n k : ℕ}, n < 64 → k ≤ 18 → n <<< k % 2 ^ 32 = n <<< k := by
    intro n k hn hk
    rw [Nat.mod_eq_of_lt]
    rw [Nat.shiftLeft_eq]
    have hpow : 2 ^ k ≤ 2 ^ 18 := Nat.pow_le_pow_right (by decide) hk
    calc n * 2 ^ k ≤ n * 2 ^ 18 := Nat.mul_le_mul_left n hpow
      _ < 2 ^ 32 := by omega
  have h18 : UInt32.toNat 18 % 32 = 18 := rfl
  have h12 : UInt32.toNat 12 % 32 = 12 := rfl
  have h6 : UInt32.toNat 6 % 32 = 6 := rfl
  simp only [pack, UInt32.toNat_or, UInt32.toNat_shiftLeft, UInt32.toNat_ofNat', h18, h12, h6]
  rw [Nat.mod_eq_of_lt (a := a) (by omega), Nat.mod_eq_of_lt (a := b) (by omega),
    Nat.mod_eq_of_lt (a := c) (by omega), Nat.mod_eq_of_lt (a := d) (by omega),
    hshift ha (by decide), hshift hb (by decide), hshift hc (by decide), hab, habc, habcd]

theorem byteAt_toNat (word : UInt32) {shift : UInt32} (hs : shift.toNat < 32) :
    (byteAt word shift).toNat = word.toNat / 2 ^ shift.toNat % 256 := by
  have hmask : (0xFF : UInt32).toNat = 2 ^ 8 - 1 := rfl
  rw [byteAt, UInt32.toNat_and, UInt32.toNat_shiftRight, hmask, Nat.and_two_pow_sub_one_eq_mod,
    Nat.mod_eq_of_lt hs, Nat.shiftRight_eq_div_pow]

theorem pack_first (a b c d : Fin 64) : (byteAt (pack (.ofNat a.val) (.ofNat b.val) (.ofNat c.val)
    (.ofNat d.val)) 16).toNat = a.val * 4 + b.val / 16 := by
  rw [byteAt_toNat _ (by decide), pack_toNat a.isLt b.isLt c.isLt d.isLt]
  have h16 : UInt32.toNat 16 = 16 := rfl
  rw [h16]
  omega

theorem pack_second (a b c d : Fin 64) : (byteAt (pack (.ofNat a.val) (.ofNat b.val) (.ofNat c.val)
    (.ofNat d.val)) 8).toNat = b.val % 16 * 16 + c.val / 4 := by
  rw [byteAt_toNat _ (by decide), pack_toNat a.isLt b.isLt c.isLt d.isLt]
  have h8 : UInt32.toNat 8 = 8 := rfl
  rw [h8]
  omega

theorem pack_third (a b c d : Fin 64) : (byteAt (pack (.ofNat a.val) (.ofNat b.val) (.ofNat c.val)
    (.ofNat d.val)) 0).toNat = c.val % 4 * 64 + d.val := by
  rw [byteAt_toNat _ (by decide), pack_toNat a.isLt b.isLt c.isLt d.isLt]
  have h0 : UInt32.toNat 0 = 0 := rfl
  rw [h0]
  omega

/-- Three bytes in the low bits of a word. -/
def join (x y z : UInt32) : UInt32 :=
  (z &&& 0xFF : UInt32) ||| ((y &&& 0xFF : UInt32) <<< 8) ||| ((x &&& 0xFF : UInt32) <<< 16)

def sextetAt (word shift : UInt32) : UInt32 := (word >>> shift) &&& 0x3F

theorem join_toNat (x y z : UInt8) :
    (join x.toUInt32 y.toUInt32 z.toUInt32).toNat = x.toNat * 65536 + y.toNat * 256 + z.toNat := by
  have hx := x.toNat_lt
  have hy := y.toNat_lt
  have hz := z.toNat_lt
  have hmask : (0xFF : UInt32).toNat = 2 ^ 8 - 1 := rfl
  have h16 : UInt32.toNat 16 % 32 = 16 := rfl
  have h8 : UInt32.toNat 8 % 32 = 8 := rfl
  have hyz : z.toNat ||| y.toNat <<< 8 = y.toNat * 256 + z.toNat := by
    rw [Nat.lor_comm, ← Nat.shiftLeft_add_eq_or_of_lt hz, Nat.shiftLeft_eq]
  have hxyz : y.toNat * 256 + z.toNat ||| x.toNat <<< 16 =
      x.toNat * 65536 + y.toNat * 256 + z.toNat := by
    rw [Nat.lor_comm, ← Nat.shiftLeft_add_eq_or_of_lt (by omega), Nat.shiftLeft_eq]
    omega
  simp only [join, UInt32.toNat_or, UInt32.toNat_shiftLeft, UInt32.toNat_and,
    UInt8.toNat_toUInt32, hmask, Nat.and_two_pow_sub_one_eq_mod, h16, h8]
  rw [Nat.mod_eq_of_lt (a := x.toNat) (by omega), Nat.mod_eq_of_lt (a := y.toNat) (by omega),
    Nat.mod_eq_of_lt (a := z.toNat) (by omega),
    Nat.mod_eq_of_lt (a := y.toNat <<< 8) (by rw [Nat.shiftLeft_eq]; omega),
    Nat.mod_eq_of_lt (a := x.toNat <<< 16) (by rw [Nat.shiftLeft_eq]; omega), hyz, hxyz]

theorem sextetAt_toNat (word : UInt32) {shift : UInt32} (hs : shift.toNat < 32) :
    (sextetAt word shift).toNat = word.toNat / 2 ^ shift.toNat % 64 := by
  have hmask : (0x3F : UInt32).toNat = 2 ^ 6 - 1 := rfl
  rw [sextetAt, UInt32.toNat_and, UInt32.toNat_shiftRight, hmask, Nat.and_two_pow_sub_one_eq_mod,
    Nat.mod_eq_of_lt hs, Nat.shiftRight_eq_div_pow]

section Join

variable (x y z : UInt8)

theorem join_first :
    (sextetAt (join x.toUInt32 y.toUInt32 z.toUInt32) 18).toNat = x.toNat / 4 := by
  have hx := x.toNat_lt
  have hy := y.toNat_lt
  have hz := z.toNat_lt
  have h18 : UInt32.toNat 18 = 18 := rfl
  rw [sextetAt_toNat _ (by decide), join_toNat, h18]
  omega

theorem join_second : (sextetAt (join x.toUInt32 y.toUInt32 z.toUInt32) 12).toNat =
    x.toNat % 4 * 16 + y.toNat / 16 := by
  have hy := y.toNat_lt
  have hz := z.toNat_lt
  have h12 : UInt32.toNat 12 = 12 := rfl
  rw [sextetAt_toNat _ (by decide), join_toNat, h12]
  omega

theorem join_third : (sextetAt (join x.toUInt32 y.toUInt32 z.toUInt32) 6).toNat =
    y.toNat % 16 * 4 + z.toNat / 64 := by
  have hz := z.toNat_lt
  have h6 : UInt32.toNat 6 = 6 := rfl
  rw [sextetAt_toNat _ (by decide), join_toNat, h6]
  omega

theorem join_fourth :
    (sextetAt (join x.toUInt32 y.toUInt32 z.toUInt32) 0).toNat = z.toNat % 64 := by
  have h0 : UInt32.toNat 0 = 0 := rfl
  rw [sextetAt_toNat _ (by decide), join_toNat, h0]
  omega

end Join

end Words

/-- The text has a character for each digit of `xs`; `letter` has what a character stands for. -/
def Spells (letter : UInt8 → Option (Fin 64)) (xs text : List UInt8) : Prop :=
  text.map letter = (sextets xs).map some

def Encodes (letter : UInt8 → Option (Fin 64)) (pad : UInt8) (xs text : List UInt8) : Prop :=
  ∃ body, Spells letter xs body ∧
    (text = body ∨ text = body ++ List.replicate ((4 - body.length % 4) % 4) pad)

section Spells

variable {letter : UInt8 → Option (Fin 64)} {pad a b c d : UInt8} {xs ys text text' : List UInt8}

theorem spells_iff : Spells letter xs text ↔ ∃ ds, text.map letter = ds.map some ∧ octets ds = some xs := by
  constructor
  · intro h
    exact ⟨sextets xs, h, octets_sextets xs⟩
  · rintro ⟨ds, hds, hxs⟩
    rw [Spells, sextets_of_octets hxs]
    exact hds

theorem Spells.mem (h : Spells letter xs text) (ha : a ∈ text) : letter a ≠ none := by
  have hmem : letter a ∈ text.map letter := List.mem_map_of_mem ha
  rw [h] at hmem
  obtain ⟨d, -, hd⟩ := List.mem_map.mp hmem
  rw [← hd]
  exact Option.some_ne_none d

theorem length_sextets (xs : List UInt8) : (sextets xs).length = (4 * xs.length + 2) / 3 := by
  induction xs using sextets.induct with
  | case4 x y z xs ih =>
    simp only [sextets, List.length_cons, ih]
    omega
  | _ => simp [sextets]

theorem Spells.length (h : Spells letter xs text) : text.length = (4 * xs.length + 2) / 3 := by
  have hlen := congrArg List.length h
  rwa [List.length_map, List.length_map, length_sextets] at hlen

theorem Spells.length_ne (h : Spells letter xs text) : text.length % 4 ≠ 1 := by
  have hlen := h.length
  omega

/-- Zero for a character that stands for nothing. -/
def valueOf (letter : UInt8 → Option (Fin 64)) (c : UInt8) : Fin 64 := (letter c).getD 0

/-- The bytes that a text without padding spells. -/
def spelled (letter : UInt8 → Option (Fin 64)) (text : List UInt8) : Option (List UInt8) :=
  (text.mapM letter).bind octets

theorem mapM_eq_some {ds : List (Fin 64)} : text.mapM letter = some ds ↔ text.map letter = ds.map some := by
  induction text generalizing ds with
  | nil => cases ds <;> simp
  | cons c cs ih =>
    cases ds with
    | nil =>
      simp only [List.map_cons, List.map_nil, reduceCtorEq, iff_false]
      intro h
      simp [Option.bind_eq_some_iff] at h
    | cons d ds =>
      simp only [List.mapM_cons, List.map_cons, List.cons.injEq, Option.bind_eq_bind,
        Option.bind_eq_some_iff, Option.pure_def, Option.some.injEq]
      constructor
      · rintro ⟨d', hd, ds', hds, rfl, rfl⟩
        exact ⟨hd, ih.mp hds⟩
      · rintro ⟨hd, hds⟩
        exact ⟨d, hd, ds, ih.mpr hds, rfl, rfl⟩

theorem spelled_eq_some : spelled letter text = some xs ↔ Spells letter xs text := by
  rw [spelled, spells_iff, Option.bind_eq_some_iff]
  simp only [mapM_eq_some]

theorem spelled_eq_none {c : UInt8} (hc : c ∈ text) (hl : letter c = none) :
    spelled letter text = none := by
  cases h : spelled letter text with
  | none => rfl
  | some xs => exact absurd hl ((spelled_eq_some.mp h).mem hc)

theorem spelled_four (text : List UInt8) :
    spelled letter (a :: b :: c :: d :: text) =
      (spelled letter [a, b, c, d]).bind fun xs => (spelled letter text).map (xs ++ ·) := by
  by_cases h : ∃ e ∈ [a, b, c, d], letter e = none
  · obtain ⟨e, he, hl⟩ := h
    have hmem : e ∈ a :: b :: c :: d :: text := List.mem_append_left text he
    rw [spelled_eq_none he hl, spelled_eq_none hmem hl]
    rfl
  · push Not at h
    obtain ⟨da, ha⟩ := Option.ne_none_iff_exists'.mp (h a (by simp))
    obtain ⟨db, hb⟩ := Option.ne_none_iff_exists'.mp (h b (by simp))
    obtain ⟨dc, hc⟩ := Option.ne_none_iff_exists'.mp (h c (by simp))
    obtain ⟨dd, hd⟩ := Option.ne_none_iff_exists'.mp (h d (by simp))
    cases ht : text.mapM letter with
    | none => simp [spelled, ha, hb, hc, hd, ht]
    | some ds => simp [spelled, ha, hb, hc, hd, ht, octets]

theorem length_of_spelled (h : spelled letter text = some xs) :
    text.length = (4 * xs.length + 2) / 3 := (spelled_eq_some.mp h).length

end Spells

end EnvironmentCheck.Sextets
