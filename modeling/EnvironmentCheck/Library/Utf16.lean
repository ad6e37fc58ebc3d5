import Mathlib.Algebra.GroupWithZero.Nat
import Mathlib.Data.List.Infix

namespace EnvironmentCheck.Utf16

/-- The code units of a character: itself or a surrogate pair. -/
def units (c : Char) : List UInt16 :=
  let v := c.val.toNat
  if v < 0x10000 then [.ofNat v]
  else [.ofNat (0xD800 + (v - 0x10000) / 1024), .ofNat (0xDC00 + (v - 0x10000) % 1024)]

def encode (cs : List Char) : List UInt16 := cs.flatMap units

/-- None where a surrogate stands by itself. -/
def decode : List UInt16 → Option (List Char)
  | [] => some []
  | [u] =>
    if u.toNat < 0xD800 ∨ 0xDFFF < u.toNat then some [.ofNat u.toNat] else none
  | u :: v :: us =>
    if u.toNat < 0xD800 ∨ 0xDFFF < u.toNat then (decode (v :: us)).map (.ofNat u.toNat :: ·)
    else if u.toNat < 0xDC00 ∧ 0xDC00 ≤ v.toNat ∧ v.toNat ≤ 0xDFFF then
      (decode us).map
        (.ofNat (0x10000 + (u.toNat - 0xD800) * 1024 + (v.toNat - 0xDC00)) :: ·)
    else none

def utf8 (cs : List Char) : List UInt8 := cs.flatMap String.utf8EncodeChar

def utf8Decode (bs : List UInt8) : Option (List Char) :=
  bs.toByteArray.utf8Decode?.map Array.toList

section RoundTrip

variable {c : Char} {cs : List Char} {u v : UInt16} {us : List UInt16}

theorem valid_toNat (c : Char) :
    c.val.toNat < 0xD800 ∨ (0xDFFF < c.val.toNat ∧ c.val.toNat < 0x110000) := c.valid

theorem ofNat_val (c : Char) {n : ℕ} (h : n = c.val.toNat) : Char.ofNat n = c := by
  rw [h]
  exact Char.ofNat_toNat c

theorem toNat_val_ofNat {n : ℕ} (h : n < 0xD800 ∨ (0xDFFF < n ∧ n < 0x110000)) :
    (Char.ofNat n).val.toNat = n := by
  have hvalid : n.isValidChar := h
  rw [Char.ofNat, dif_pos hvalid]
  rfl

theorem uint16_toNat {n : ℕ} (h : n < 2 ^ 16) : (UInt16.ofNat n).toNat = n :=
  UInt16.toNat_ofNat_of_lt' h

theorem uint8_toNat {n : ℕ} (h : n < 2 ^ 8) : (UInt8.ofNat n).toNat = n :=
  UInt8.toNat_ofNat_of_lt' h

theorem uint16_ofNat_eq {n : ℕ} (h : n = u.toNat) : UInt16.ofNat n = u := by
  rw [h, UInt16.ofNat_toNat]

theorem decode_single (h : u.toNat < 0xD800 ∨ 0xDFFF < u.toNat) :
    decode (u :: us) = (decode us).map (.ofNat u.toNat :: ·) := by
  cases us with
  | nil => simp only [decode, if_pos h, Option.map_some]
  | cons v us => rw [decode, if_pos h]

theorem decode_units (us : List UInt16) : decode (units c ++ us) = (decode us).map (c :: ·) := by
  have hvalid := valid_toNat c
  unfold units
  simp only
  split_ifs with h
  · have hu : (UInt16.ofNat c.val.toNat).toNat = c.val.toNat := uint16_toNat h
    rw [List.singleton_append, decode_single (by omega), hu, ofNat_val c rfl]
  · have hhigh : (UInt16.ofNat (0xD800 + (c.val.toNat - 0x10000) / 1024)).toNat =
        0xD800 + (c.val.toNat - 0x10000) / 1024 := uint16_toNat (by omega)
    have hlow : (UInt16.ofNat (0xDC00 + (c.val.toNat - 0x10000) % 1024)).toNat =
        0xDC00 + (c.val.toNat - 0x10000) % 1024 := uint16_toNat (by omega)
    rw [List.cons_append, List.singleton_append, decode, if_neg (by omega), if_pos (by omega), hhigh,
      hlow, ofNat_val c (by omega)]

theorem decode_encode (cs : List Char) : decode (encode cs) = some cs := by
  induction cs with
  | nil => rfl
  | cons c cs ih => rw [encode, List.flatMap_cons, decode_units, ← encode, ih, Option.map_some]

theorem units_single (h : u.toNat < 0xD800 ∨ 0xDFFF < u.toNat) :
    units (.ofNat u.toNat) = [u] := by
  have hlt := u.toNat_lt
  rw [units, toNat_val_ofNat (by omega), if_pos hlt, UInt16.ofNat_toNat]

theorem units_pair (h : ¬ (u.toNat < 0xD800 ∨ 0xDFFF < u.toNat))
    (hpair : u.toNat < 0xDC00 ∧ 0xDC00 ≤ v.toNat ∧ v.toNat ≤ 0xDFFF) :
    units (.ofNat (0x10000 + (u.toNat - 0xD800) * 1024 + (v.toNat - 0xDC00))) = [u, v] := by
  rw [units, toNat_val_ofNat (by omega), if_neg (by omega), uint16_ofNat_eq (u := u) (by omega),
    uint16_ofNat_eq (u := v) (by omega)]

theorem encode_of_decode (h : decode us = some cs) : encode cs = us := by
  induction us using decode.induct generalizing cs with
  | case1 =>
    rw [← Option.some.inj h]
    rfl
  | case2 u hu =>
    rw [decode, if_pos hu] at h
    rw [← Option.some.inj h, encode, List.flatMap_singleton, units_single hu]
  | case3 u hu =>
    rw [decode, if_neg hu] at h
    cases h
  | case4 u v us hu ih =>
    rw [decode, if_pos hu] at h
    obtain ⟨ds, hds, rfl⟩ := Option.map_eq_some_iff.mp h
    rw [encode, List.flatMap_cons, units_single hu, ← encode, ih hds]
    rfl
  | case5 u v us hu hpair ih =>
    rw [decode, if_neg hu, if_pos hpair] at h
    obtain ⟨ds, hds, rfl⟩ := Option.map_eq_some_iff.mp h
    rw [encode, List.flatMap_cons, units_pair hu hpair, ← encode, ih hds]
    rfl
  | case6 u v us hu hpair =>
    rw [decode, if_neg hu, if_neg hpair] at h
    cases h

theorem encode_append (cs ds : List Char) : encode (cs ++ ds) = encode cs ++ encode ds :=
  List.flatMap_append

theorem units_of_lt (h : c.val.toNat < 0x10000) : units c = [.ofNat c.val.toNat] := by
  rw [units]
  exact if_pos h

/-- A unit that is no surrogate is a character of the text. -/
theorem mem_of_mem_encode (h : u.toNat < 0xD800) (hu : u ∈ encode cs) : .ofNat u.toNat ∈ cs := by
  obtain ⟨c, hc, huc⟩ := List.mem_flatMap.mp hu
  have hvalid := valid_toNat c
  unfold units at huc
  simp only at huc
  split_ifs at huc with hsmall
  · obtain rfl := List.mem_singleton.mp huc
    rwa [uint16_toNat hsmall, ofNat_val c rfl]
  · rw [List.mem_pair] at huc
    obtain rfl | rfl := huc
    · rw [uint16_toNat (by omega)] at h
      omega
    · rw [uint16_toNat (by omega)] at h
      omega

theorem encode_inj {ds : List Char} (h : encode cs = encode ds) : cs = ds := by
  have hdecode := decode_encode cs
  rw [h, decode_encode] at hdecode
  exact (Option.some.inj hdecode).symm

theorem utf8Decode_utf8 (cs : List Char) : utf8Decode (utf8 cs) = some cs := by
  have h : (utf8 cs).toByteArray = cs.utf8Encode := rfl
  rw [utf8Decode, h, List.utf8Decode?_utf8Encode]
  rfl

theorem utf8Decode_isSome_iff {bs : List UInt8} :
    (utf8Decode bs).isSome = true ↔ ∃ cs, bs = utf8 cs := by
  rw [utf8Decode, Option.isSome_map, ByteArray.isSome_utf8Decode?_iff]
  constructor
  · rintro ⟨cs, h⟩
    exact ⟨cs, List.toByteArray_inj.mp h⟩
  · rintro ⟨cs, h⟩
    exact ⟨cs, congrArg List.toByteArray h⟩

theorem utf8_inj {ds : List Char} (h : utf8 cs = utf8 ds) : cs = ds := by
  have hdecode := utf8Decode_utf8 cs
  rw [h, utf8Decode_utf8] at hdecode
  exact (Option.some.inj hdecode).symm

end RoundTrip

section Terminated

variable {α β : Type} {f : α → List β} {p : β → Bool} {q : α → Bool}

/-- What stands before the first element that ends a list, where `f` writes the elements. -/
theorem takeWhile_flatMap (hgo : ∀ a, q a = true → ∀ b ∈ f a, p b = true)
    (hstop : ∀ a, q a = false → ∃ b bs, f a = b :: bs ∧ p b = false) (as : List α) :
    (as.flatMap f).takeWhile p = (as.takeWhile q).flatMap f := by
  induction as with
  | nil => rfl
  | cons a as ih =>
    rw [List.flatMap_cons]
    cases hq : q a with
    | true => rw [List.takeWhile_append_of_pos (hgo a hq), ih, List.takeWhile_cons_of_pos hq, List.flatMap_cons]
    | false =>
      obtain ⟨b, bs, hf, hp⟩ := hstop a hq
      have hnot : ¬ p b = true := by rw [hp]; exact Bool.noConfusion
      have hqnot : ¬ q a = true := by rw [hq]; exact Bool.noConfusion
      rw [hf, List.cons_append, List.takeWhile_cons_of_neg hnot, List.takeWhile_cons_of_neg hqnot]
      rfl

end Terminated

section Null

variable {c : Char}

theorem units_ne_zero (hc : c ≠ Char.ofNat 0) {u : UInt16} (hu : u ∈ units c) : u ≠ 0 := by
  have hvalid := valid_toNat c
  have hpos : c.val.toNat ≠ 0 := fun h => hc (ofNat_val c h.symm).symm
  have hne : ∀ n, n ≠ 0 → n < 2 ^ 16 → UInt16.ofNat n ≠ 0 := by
    intro n hn hlt h
    have hnat := congrArg UInt16.toNat h
    rw [uint16_toNat hlt] at hnat
    exact hn hnat
  unfold units at hu
  simp only at hu
  split_ifs at hu with h
  · rw [List.mem_singleton.mp hu]
    exact hne _ hpos h
  · rw [List.mem_pair] at hu
    obtain rfl | rfl := hu
    · exact hne _ (by omega) (by omega)
    · exact hne _ (by omega) (by omega)

theorem utf8EncodeChar_ne_zero (hc : c ≠ Char.ofNat 0) {b : UInt8}
    (hb : b ∈ String.utf8EncodeChar c) : b ≠ 0 := by
  have hpos : c.val.toNat ≠ 0 := fun h => hc (ofNat_val c h.symm).symm
  have hne : ∀ n, n ≠ 0 → n < 2 ^ 8 → UInt8.ofNat n ≠ 0 := by
    intro n hn hlt h
    have hnat := congrArg UInt8.toNat h
    rw [uint8_toNat hlt] at hnat
    exact hn hnat
  unfold String.utf8EncodeChar at hb
  simp only at hb
  split_ifs at hb with h1 h2 h3
  · rw [List.mem_singleton.mp hb]
    exact hne _ hpos (by omega)
  · simp only [List.mem_cons, List.not_mem_nil, or_false] at hb
    obtain rfl | rfl := hb
    · exact hne _ (by omega) (by omega)
    · exact hne _ (by omega) (by omega)
  · simp only [List.mem_cons, List.not_mem_nil, or_false] at hb
    obtain rfl | rfl | rfl := hb
    · exact hne _ (by omega) (by omega)
    · exact hne _ (by omega) (by omega)
    · exact hne _ (by omega) (by omega)
  · simp only [List.mem_cons, List.not_mem_nil, or_false] at hb
    obtain rfl | rfl | rfl | rfl := hb
    · exact hne _ (by omega) (by omega)
    · exact hne _ (by omega) (by omega)
    · exact hne _ (by omega) (by omega)
    · exact hne _ (by omega) (by omega)

theorem utf8_append_null {xs : List UInt8} : (∃ cs, xs ++ [0] = utf8 cs) ↔ ∃ cs, xs = utf8 cs := by
  have hnull : String.utf8EncodeChar (.ofNat 0) = [0] := rfl
  constructor
  · rintro ⟨cs, h⟩
    obtain rfl | ⟨ds, c, rfl⟩ := List.eq_nil_or_concat' cs
    · cases xs <;> cases h
    · rw [utf8, List.flatMap_append, List.flatMap_singleton] at h
      have hmem : (0 : UInt8) ∈ String.utf8EncodeChar c := by
        have hlast := congrArg List.getLast? h
        have hne : String.utf8EncodeChar c ≠ [] := String.utf8EncodeChar_ne_nil
        rw [List.getLast?_append_of_ne_nil _ (List.cons_ne_nil _ _),
          List.getLast?_append_of_ne_nil _ hne] at hlast
        exact List.mem_of_getLast? hlast.symm
      have hc : c = .ofNat 0 := by
        by_contra hc
        exact utf8EncodeChar_ne_zero hc hmem rfl
      rw [hc, hnull] at h
      exact ⟨ds, List.append_cancel_right h⟩
  · rintro ⟨cs, rfl⟩
    refine ⟨cs ++ [.ofNat 0], ?_⟩
    rw [utf8, utf8, List.flatMap_append, List.flatMap_singleton, hnull]

theorem utf8_append_nulls {xs : List UInt8} (n : ℕ) :
    (∃ cs, xs ++ List.replicate n 0 = utf8 cs) ↔ ∃ cs, xs = utf8 cs := by
  induction n with
  | zero => rw [List.replicate_zero, List.append_nil]
  | succ n ih => rw [List.replicate_succ', ← List.append_assoc, utf8_append_null, ih]

end Null

section Ascii

theorem utf8EncodeChar_ascii {b : UInt8} (h : b.toNat < 128) :
    String.utf8EncodeChar (.ofNat b.toNat) = [b] := by
  have hval : (Char.ofNat b.toNat).val.toNat = b.toNat := toNat_val_ofNat (by omega)
  rw [String.utf8EncodeChar]
  simp only [hval]
  rw [if_pos (by omega), UInt8.ofNat_toNat]

theorem utf8_of_ascii {bs : List UInt8} (h : ∀ b ∈ bs, b.toNat < 128) :
    utf8 (bs.map fun b => .ofNat b.toNat) = bs := by
  induction bs with
  | nil => rfl
  | cons b bs ih =>
    rw [utf8, List.map_cons, List.flatMap_cons, utf8EncodeChar_ascii (h b List.mem_cons_self), ← utf8,
      ih fun c hc => h c (List.mem_cons_of_mem b hc)]
    rfl

end Ascii

end EnvironmentCheck.Utf16
