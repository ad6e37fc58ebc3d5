import EnvironmentCheck.Base32
import Mathlib.Data.List.Infix

namespace EnvironmentCheck.Base32

open BitQueue
open Base64 (CharType bytes)

/-- The converter has these bits and room for the others. -/
structure Holding {fromLength toLength bufferLength : ℕ}
    (c : BitConverter fromLength toLength bufferLength) (bits : List Bool) : Prop where
  holds : Holds bufferLength c.buffer bits
  free : c.lowerFreeBits + bits.length = bufferLength

section Converter

variable {fromLength toLength bufferLength v : ℕ} {bits : List Bool}
  {c : BitConverter fromLength toLength bufferLength}

theorem Holding.empty : Holding (.empty fromLength toLength bufferLength) [] :=
  ⟨.nil bufferLength, rfl⟩

theorem Holding.canAppend_iff (h : Holding c bits) :
    c.CanAppend ↔ bits.length + fromLength ≤ bufferLength := by
  have hfree := h.free
  unfold BitConverter.CanAppend
  omega

theorem Holding.bitsAvailable (h : Holding c bits) : c.bitsAvailable = bits.length := by
  have hfree := h.free
  unfold BitConverter.bitsAvailable
  omega

theorem Holding.canExtract_iff (h : Holding c bits) : c.CanExtract ↔ toLength ≤ bits.length := by
  rw [BitConverter.CanExtract, h.bitsAvailable]

theorem Holding.append (h : Holding c bits) (hv : v < 2 ^ fromLength)
    (hroom : bits.length + fromLength ≤ bufferLength) :
    ∃ c', c.append v = .ok c' ∧ Holding c' (bits ++ word fromLength v) := by
  have hrange : (0 : ℤ) ≤ v ∧ (v : ℤ) < 2 ^ fromLength := ⟨Int.natCast_nonneg v, by exact_mod_cast hv⟩
  have hfree := h.free
  rw [BitConverter.append, dif_pos hrange, dif_pos (h.canAppend_iff.mpr hroom)]
  refine ⟨_, rfl, ?_, ?_⟩
  · have hshift : c.lowerFreeBits - fromLength = bufferLength - bits.length - fromLength := by omega
    simp only [Int.toNat_natCast, hshift]
    exact h.holds.append hv hroom
  · rw [List.length_append, length_word]
    change c.lowerFreeBits - fromLength + (bits.length + fromLength) = bufferLength
    omega

theorem Holding.peek (h : Holding c bits) (hlen : toLength ≤ bufferLength) :
    c.peek = value ((bits ++ zeros (toLength - bits.length)).take toLength) := h.holds.peek hlen

theorem Holding.extract (h : Holding c bits) (hlen : toLength ≤ bits.length) :
    ∃ c', c.extract = .ok (value (bits.take toLength), c') ∧ Holding c' (bits.drop toLength) := by
  have hfree := h.free
  have hzero : toLength - bits.length = 0 := by omega
  have hpeek := h.peek (by omega)
  rw [hzero, zeros, List.replicate_zero, List.append_nil] at hpeek
  rw [BitConverter.extract, dif_pos (h.canExtract_iff.mpr hlen), hpeek]
  refine ⟨_, rfl, h.holds.drop hlen, ?_⟩
  rw [List.length_drop]
  change c.lowerFreeBits + toLength + (bits.length - toLength) = bufferLength
  omega

end Converter

/-- The place of a character in `kEncoding`. -/
def digit (c : UInt8) : Option ℕ := kEncoding.idxOf? c

def letter (d : ℕ) : UInt8 := kEncoding.getD d 0

theorem length_kEncoding : kEncoding.length = 32 := by decide +kernel

theorem digit_letter {d : ℕ} (h : d < 32) : digit (letter d) = some d := by
  have htable : ∀ d < 32, digit (letter d) = some d := by decide +kernel
  exact htable d h

theorem letter_digit {c : UInt8} {d : ℕ} (h : digit c = some d) : d < 32 ∧ letter d = c := by
  obtain ⟨hlt, hc, -⟩ := List.findIdx?_eq_some_iff_getElem.mp h
  rw [beq_iff_eq] at hc
  rw [length_kEncoding] at hlt
  refine ⟨hlt, ?_⟩
  rw [letter, List.getD_eq_getElem _ _ (by rw [length_kEncoding]; exact hlt)]
  exact hc

theorem encodingAt_eq {d : ℕ} (h : d < 32) : encodingAt d = .ok (letter d) := by
  have hlt : d < kEncoding.length := by rwa [length_kEncoding]
  rw [encodingAt, List.getElem?_eq_getElem hlt, letter, List.getD_eq_getElem _ _ hlt]

theorem decodeCharacter_eq (char : CharType) (c : UInt8) :
    decodeCharacter char c = (digit c).map Nat.cast := by
  have htable : ∀ n < 256, ∀ char ∈ [CharType.unsigned, .signed],
      decodeCharacter char (.ofNat n) = (digit (.ofNat n)).map Nat.cast := by
    decide +kernel
  have h := htable c.toNat c.toNat_lt char (by cases char <;> decide)
  rwa [UInt8.ofNat_toNat] at h

/-- The bits of a byte string. -/
def bitsOf (xs : List UInt8) : List Bool := words 8 (xs.map UInt8.toNat)

theorem bitsOf_cons (x : UInt8) (xs : List UInt8) :
    bitsOf (x :: xs) = word 8 x.toNat ++ bitsOf xs := rfl

theorem length_bitsOf (xs : List UInt8) : (bitsOf xs).length = 8 * xs.length := by
  rw [bitsOf, length_words, List.length_map]

section Decode

variable {char : CharType} {converter : Base32DecodeConverter} {bits : List Bool}
  {s result : List UInt8}

theorem decodeLoop_none (result : List UInt8) (h : Holding converter bits) (hbits : bits.length < 8)
    (hs : ∃ c ∈ s, digit c = none) :
    ∃ ys, decodeLoop char converter result s = .ok (false, ys) := by
  induction s generalizing converter bits result with
  | nil =>
    obtain ⟨c, hc, -⟩ := hs
    cases hc
  | cons c cs ih =>
    rw [decodeLoop, decodeCharacter_eq]
    cases hd : digit c with
    | none => exact ⟨result, rfl⟩
    | some d =>
      have hrest : ∃ c ∈ cs, digit c = none := by
        obtain ⟨c', hc', hnone⟩ := hs
        cases hc' with
        | head => rw [hd] at hnone; cases hnone
        | tail _ hmem => exact ⟨c', hmem, hnone⟩
      obtain ⟨c1, h1, hold1⟩ := h.append (v := d) (letter_digit hd).1 (by omega)
      have hlen1 : (bits ++ word 5 d).length = bits.length + 5 := by
        rw [List.length_append, length_word]
      simp only [Option.map_some, h1, Except.bind, hold1.canExtract_iff]
      split_ifs with hextract
      · obtain ⟨c2, h2, hold2⟩ := hold1.extract hextract
        simp only [h2]
        exact ih _ hold2 (by rw [List.length_drop]; omega) hrest
      · exact ih _ hold1 (by omega) hrest

theorem decodeLoop_some {ds : List ℕ} (result : List UInt8) (h : Holding converter bits)
    (hbits : bits.length < 8) (hs : s.map digit = ds.map some) :
    ∃ ys rest, bits ++ words 5 ds = bitsOf ys ++ rest ∧ rest.length < 8 ∧
      decodeLoop char converter result s = .ok (value rest = 0, result ++ ys) := by
  induction s generalizing converter bits result ds with
  | nil =>
    obtain rfl := List.map_eq_nil_iff.mp hs.symm
    refine ⟨[], bits, by simp [words, bitsOf], hbits, ?_⟩
    have htake : (bits ++ zeros (8 - bits.length)).take 8 = bits ++ zeros (8 - bits.length) := by
      apply List.take_of_length_le
      rw [List.length_append, length_zeros]
      omega
    have hpeek : converter.peek = value bits * 2 ^ (8 - bits.length) := by
      rw [h.peek (by decide), htake, value_append, value_zeros, length_zeros, Nat.add_zero]
    have hzero : converter.peek = 0 ↔ value bits = 0 := by
      rw [hpeek, Nat.mul_eq_zero]
      exact or_iff_left (Nat.two_pow_pos _).ne'
    simp only [decodeLoop, hzero, List.append_nil]
  | cons c cs ih =>
    cases ds with
    | nil => cases hs
    | cons d ds =>
      obtain ⟨hd, hcs⟩ := List.cons.inj hs
      obtain ⟨c1, h1, hold1⟩ := h.append (v := d) (letter_digit hd).1 (by omega)
      have hlen1 : (bits ++ word 5 d).length = bits.length + 5 := by
        rw [List.length_append, length_word]
      have hwords : bits ++ words 5 (d :: ds) = (bits ++ word 5 d) ++ words 5 ds := by
        rw [words_cons, List.append_assoc]
      rw [decodeLoop, decodeCharacter_eq, hd]
      simp only [Option.map_some, h1, Except.bind, hold1.canExtract_iff]
      split_ifs with hextract
      · obtain ⟨c2, h2, hold2⟩ := hold1.extract hextract
        simp only [h2]
        obtain ⟨ys, rest, heq, hrest, hloop⟩ := ih (result ++
          [UInt8.ofNat (value ((bits ++ word 5 d).take 8))]) hold2 (by rw [List.length_drop]; omega) hcs
        refine ⟨_ :: ys, rest, ?_, hrest, by rw [hloop, List.append_assoc]; rfl⟩
        have hfirst := value_lt ((bits ++ word 5 d).take 8)
        rw [List.length_take_of_le hextract] at hfirst
        have hword := word_value ((bits ++ word 5 d).take 8)
        rw [List.length_take_of_le hextract] at hword
        rw [bitsOf_cons, UInt8.toNat_ofNat', Nat.mod_eq_of_lt hfirst, hword, List.append_assoc, ← heq,
          ← List.append_assoc, List.take_append_drop, hwords]
      · obtain ⟨ys, rest, heq, hrest, hloop⟩ := ih result hold1 (by omega) hcs
        exact ⟨ys, rest, by rw [hwords, heq], hrest, hloop⟩

end Decode

section Encode

variable {input output rest : List UInt8} {bits : List Bool} {converter : Base32EncodeConverter}
  {turns nextByteIndex : ℕ}

theorem encodeLoop_eq (output : List UInt8) (h : Holding converter bits)
    (hrest : input.drop nextByteIndex = rest)
    (hempty : bits.length < 5 → rest = []) (hturns : bits.length + 8 * rest.length < 5 * turns) :
    ∃ ds left converter', encodeLoop input turns converter nextByteIndex output =
        .ok (converter', output ++ ds.map letter) ∧
      Holding converter' left ∧ left.length < 5 ∧ (∀ d ∈ ds, d < 32) ∧
      bits ++ bitsOf rest = words 5 ds ++ left := by
  induction turns generalizing converter nextByteIndex output bits rest with
  | zero => omega
  | succ turns ih =>
    rw [encodeLoop]
    by_cases hextract : 5 ≤ bits.length
    · obtain ⟨c1, h1, hold1⟩ := h.extract hextract
      have hd : value (bits.take 5) < 32 := by
        have hlt := value_lt (bits.take 5)
        rwa [List.length_take_of_le hextract] at hlt
      have hword : word 5 (value (bits.take 5)) = bits.take 5 := by
        have hword := word_value (bits.take 5)
        rwa [List.length_take_of_le hextract] at hword
      have hlen1 : (bits.drop 5).length = bits.length - 5 := List.length_drop
      -- what the rest of the loop has to do, whether or not a byte was appended
      have hnext : ∀ {c2 : Base32EncodeConverter} {bits2 rest2 next2},
          Holding c2 bits2 → input.drop next2 = rest2 → (bits2.length < 5 → rest2 = []) →
          bits.drop 5 ++ bitsOf rest = bits2 ++ bitsOf rest2 →
          ∃ ds left converter', encodeLoop input turns c2 next2
              (output ++ [letter (value (bits.take 5))]) = .ok (converter', output ++ ds.map letter) ∧
            Holding converter' left ∧ left.length < 5 ∧ (∀ d ∈ ds, d < 32) ∧
            bits ++ bitsOf rest = words 5 ds ++ left := by
        intro c2 bits2 rest2 next2 hold2 hdrop2 hempty2 hbits2
        have hlen := congrArg List.length hbits2
        rw [List.length_append, List.length_append, length_bitsOf, length_bitsOf, hlen1] at hlen
        obtain ⟨ds, left, c3, hloop, hold3, hleft, hds, hwords⟩ :=
          ih (output ++ [letter (value (bits.take 5))]) hold2 hdrop2 hempty2 (by omega)
        refine ⟨value (bits.take 5) :: ds, left, c3, ?_, hold3, hleft, ?_, ?_⟩
        · rw [hloop, List.append_assoc]
          rfl
        · intro d hmem
          cases hmem with
          | head => exact hd
          | tail _ hmem => exact hds d hmem
        · rw [words_cons, hword, List.append_assoc, ← hwords, ← hbits2, ← List.append_assoc,
            List.take_append_drop]
      rw [if_pos (h.canExtract_iff.mpr hextract), h1]
      simp only [Except.bind, encodingAt_eq hd]
      by_cases hcan : c1.CanAppend
      · rw [if_pos hcan]
        have hroom := hold1.canAppend_iff.mp hcan
        cases rest with
        | nil =>
          rw [List.getElem?_eq_none (List.drop_eq_nil_iff.mp hrest)]
          exact hnext hold1 hrest (fun _ => rfl) rfl
        | cons byte rest =>
          have hbyte : input[nextByteIndex]? = some byte := by
            have hget := congrArg (·[0]?) hrest
            simpa only [List.getElem?_drop, Nat.add_zero, List.getElem?_cons_zero] using hget
          have htail : input.drop (nextByteIndex + 1) = rest := by
            rw [← List.drop_drop, hrest]
            rfl
          obtain ⟨c2, h2, hold2⟩ := hold1.append (v := byte.toNat) byte.toNat_lt hroom
          rw [hbyte]
          simp only [h2]
          apply hnext hold2 htail
          · intro hlt
            rw [List.length_append, length_word] at hlt
            omega
          · rw [bitsOf_cons, List.append_assoc]
      · rw [if_neg hcan]
        have hfull := mt hold1.canAppend_iff.mpr hcan
        exact hnext hold1 hrest (fun hlt => by omega) rfl
    · have hnil := hempty (Nat.lt_of_not_le hextract)
      refine ⟨[], bits, converter, ?_, h, Nat.lt_of_not_le hextract, by simp, ?_⟩
      · rw [if_neg (mt h.canExtract_iff.mp hextract), List.map_nil, List.append_nil]
      · simp [hnil, bitsOf, words]

end Encode

section Codec

variable {sizeMax p q : ℕ} {s x : List UInt8} {ds es : List ℕ}

/-- The characters of `s` write the bits of `x`, and `p` zeros. -/
structure Writes (s x : List UInt8) (p : ℕ) : Prop where
  letters : ∃ ds, s.map digit = ds.map some ∧ words 5 ds = bitsOf x ++ zeros p

theorem lt_of_digits (h : s.map digit = ds.map some) {d : ℕ} (hd : d ∈ ds) : d < 32 := by
  have hmem : some d ∈ s.map digit := by
    rw [h]
    exact List.mem_map_of_mem hd
  obtain ⟨c, -, hc⟩ := List.mem_map.mp hmem
  exact (letter_digit hc).1

theorem map_digit (h : ∀ d ∈ ds, d < 32) : (ds.map letter).map digit = ds.map some := by
  rw [List.map_map]
  exact List.map_congr_left fun d hd => digit_letter (h d hd)

theorem map_letter (h : s.map digit = ds.map some) : ds.map letter = s := by
  induction s generalizing ds with
  | nil =>
    obtain rfl := List.map_eq_nil_iff.mp h.symm
    rfl
  | cons c cs ih =>
    cases ds with
    | nil => cases h
    | cons d ds =>
      obtain ⟨hd, hcs⟩ := List.cons.inj h
      rw [List.map_cons, ih hcs, (letter_digit hd).2]

theorem Writes.length (h : Writes s x p) : 5 * s.length = 8 * x.length + p := by
  obtain ⟨ds, hds, hwords⟩ := h.letters
  have hlen := congrArg List.length hds
  have hbits := congrArg List.length hwords
  rw [List.length_map, List.length_map] at hlen
  rw [length_words, List.length_append, length_bitsOf, length_zeros] at hbits
  rw [hlen, hbits]

theorem Writes.div_mod (h : Writes s x p) (hp : p < 8) :
    5 * s.length / 8 = x.length ∧ 5 * s.length % 8 = p := by
  rw [h.length, Nat.mul_add_div (by decide), Nat.mul_add_mod, Nat.div_eq_of_lt hp,
    Nat.mod_eq_of_lt hp]
  exact ⟨rfl, rfl⟩

theorem map_toNat_lt {v : ℕ} (h : v ∈ x.map UInt8.toNat) : v < 2 ^ 8 := by
  obtain ⟨b, -, rfl⟩ := List.mem_map.mp h
  exact b.toNat_lt

theorem map_toNat_inj {y : List UInt8} (h : x.map UInt8.toNat = y.map UInt8.toNat) : x = y :=
  List.map_injective_iff.mpr (fun _ _ => UInt8.toNat_inj.mp) h

theorem base32Encode_writes (h : x.length ≤ sizeMax / 8) :
    ∃ s p, base32Encode sizeMax x = .ok (true, s) ∧ Writes s x p ∧ p < 5 := by
  cases x with
  | nil => exact ⟨[], 0, rfl, ⟨[], rfl, rfl⟩, by decide⟩
  | cons byte rest =>
    obtain ⟨c1, h1, hold1⟩ := (@Holding.empty 8 5 16).append (v := byte.toNat)
      byte.toNat_lt (by decide)
    rw [List.nil_append] at hold1
    have hlen1 := length_word 8 byte.toNat
    obtain ⟨ds, left, c2, hloop, hold2, hleft, hds, hwords⟩ := @encodeLoop_eq (byte :: rest) _ _ c1
      (8 * (byte :: rest).length) 1 [] hold1 rfl (by omega)
      (by rw [List.drop_one, List.tail_cons, List.length_cons]; omega)
    rw [List.drop_one, List.tail_cons, ← bitsOf_cons] at hwords
    rw [base32Encode, if_neg (Nat.not_lt.mpr h), h1]
    simp only [Except.bind, hloop, List.nil_append, hold2.bitsAvailable]
    by_cases hpos : left.length > 0
    · have htake : (left ++ zeros (5 - left.length)).take 5 = left ++ zeros (5 - left.length) := by
        apply List.take_of_length_le
        rw [List.length_append, length_zeros]
        omega
      have hlen : (left ++ zeros (5 - left.length)).length = 5 := by
        rw [List.length_append, length_zeros]
        omega
      have hlt := value_lt (left ++ zeros (5 - left.length))
      have hword := word_value (left ++ zeros (5 - left.length))
      rw [hlen] at hlt hword
      rw [if_pos hpos, hold2.peek (by decide), htake, encodingAt_eq hlt]
      refine ⟨_, 5 - left.length, rfl, ⟨ds ++ [value (left ++ zeros (5 - left.length))], ?_, ?_⟩,
        by omega⟩
      · rw [← List.map_singleton (f := letter), ← List.map_append]
        apply map_digit
        intro d hd
        cases List.mem_append.mp hd with
        | inl hd => exact hds d hd
        | inr hd => rw [List.mem_singleton.mp hd]; exact hlt
      · rw [hwords, words, List.flatMap_append, List.flatMap_singleton, hword, ← words,
          List.append_assoc]
    · have hnil : left = [] := List.eq_nil_of_length_eq_zero (by omega)
      rw [if_neg hpos]
      refine ⟨_, 0, rfl, ⟨ds, map_digit hds, ?_⟩, by decide⟩
      rw [hwords, hnil, List.append_nil]
      exact (List.append_nil _).symm

theorem Writes.unique {s' : List UInt8} (h : Writes s x p) (h' : Writes s' x q) (hp : p < 5)
    (hq : q < 5) : s = s' := by
  have hlen := h.length
  have hlen' := h'.length
  obtain rfl : p = q := by omega
  obtain ⟨ds, hds, hwords⟩ := h.letters
  obtain ⟨es, hes, hwords'⟩ := h'.letters
  have hcount : ds.length = es.length := by
    have hd := congrArg List.length hds
    have he := congrArg List.length hes
    rw [List.length_map, List.length_map] at hd he
    omega
  have heq := words_inj (fun d hd => lt_of_digits hds hd) (fun d hd => lt_of_digits hes hd) hcount
    (hwords.trans hwords'.symm)
  rw [← map_letter hds, heq, map_letter hes]

theorem base32Encode_iff :
    base32Encode sizeMax x = .ok (true, s) ↔ x.length ≤ sizeMax / 8 ∧ ∃ p < 5, Writes s x p := by
  constructor
  · intro h
    have hle : x.length ≤ sizeMax / 8 := by
      cases x with
      | nil => exact Nat.zero_le _
      | cons byte rest =>
        by_contra hgt
        rw [base32Encode, if_pos (Nat.lt_of_not_le hgt)] at h
        cases h
    obtain ⟨s', p, hs', hw, hp⟩ := base32Encode_writes hle
    obtain ⟨-, rfl⟩ := Prod.mk.inj (Except.ok.inj (hs'.symm.trans h))
    exact ⟨hle, p, hp, hw⟩
  · rintro ⟨hle, p, hp, hw⟩
    obtain ⟨s', q, hs', hw', hq⟩ := base32Encode_writes hle
    rw [hs', hw.unique hw' hp hq]

theorem base32Decode_writes (char : CharType) (hs : s.map digit = ds.map some) :
    ∃ y rest, words 5 ds = bitsOf y ++ rest ∧ rest.length < 8 ∧
      base32Decode char s = .ok (value rest = 0, y) := by
  have h := @decodeLoop_some char _ _ _ _ [] Holding.empty (by decide) hs
  rwa [List.nil_append] at h

theorem base32Decode_iff (char : CharType) :
    base32Decode char s = .ok (true, x) ↔ ∃ p < 8, Writes s x p := by
  constructor
  · intro h
    by_cases hnone : ∃ c ∈ s, digit c = none
    · obtain ⟨y, hy⟩ := @decodeLoop_none char _ _ _ [] Holding.empty (by decide) hnone
      cases hy.symm.trans h
    · obtain ⟨ds, hds⟩ : ∃ ds : List ℕ, s.map digit = ds.map some := by
        refine ⟨s.map fun c => (digit c).getD 0, ?_⟩
        rw [List.map_map]
        apply List.map_congr_left
        intro c hc
        have hsome : digit c ≠ none := fun hd => hnone ⟨c, hc, hd⟩
        obtain ⟨d, hd⟩ := Option.ne_none_iff_exists'.mp hsome
        rw [Function.comp_apply, hd]
        rfl
      obtain ⟨y, rest, hwords, hrest, hdecode⟩ := base32Decode_writes char hds
      obtain ⟨hzero, rfl⟩ := Prod.mk.inj (Except.ok.inj (hdecode.symm.trans h))
      refine ⟨rest.length, hrest, ds, hds, ?_⟩
      rw [hwords, ← eq_zeros_iff.mpr (of_decide_eq_true hzero)]
  · rintro ⟨p, hp, ds, hds, hwords⟩
    obtain ⟨y, rest, hwords', hrest, hdecode⟩ := base32Decode_writes char hds
    obtain ⟨hxy, rfl⟩ := words_append_inj (fun _ => map_toNat_lt) (fun _ => map_toNat_lt)
      (by rwa [length_zeros]) hrest (hwords.symm.trans hwords')
    rw [hdecode, map_toNat_inj hxy, value_zeros]
    rfl

theorem base32_round_trip (char : CharType) (h : x.length ≤ sizeMax / 8) :
    (∃ e, base32Encode sizeMax x = .ok (true, e) ∧ e.length = (8 * x.length + 4) / 5 ∧
      base32Decode char e = .ok (true, x)) ∧
    (∀ converter : Base32EncodeConverter, converter.buffer < 2 ^ 16) ∧
    (∀ converter : Base32DecodeConverter, converter.buffer < 2 ^ 16) := by
  refine ⟨?_, fun converter => converter.inBuffer, fun converter => converter.inBuffer⟩
  obtain ⟨e, p, he, hw, hp⟩ := base32Encode_writes h
  have hlen := hw.length
  exact ⟨e, he, by omega, (base32Decode_iff char).mpr ⟨p, by omega, hw⟩⟩

theorem base32_round_trip_high :
    ∃ e, base32Encode (2 ^ 64 - 1) [255, 0] = .ok (true, e) ∧ e.length = 4 ∧
      base32Decode .signed e = .ok (true, [255, 0]) :=
  (@base32_round_trip (2 ^ 64 - 1) [255, 0] .signed (by decide)).1

/-- Only letters, and zero for the bits that fill no byte. -/
def ZeroPadded (s : List UInt8) : Prop :=
  ∃ ds, s.map digit = ds.map some ∧
    (words 5 ds).drop (8 * (5 * s.length / 8)) = zeros (5 * s.length % 8)

theorem zeroPadded_iff : ZeroPadded s ↔ ∃ x, ∃ p < 8, Writes s x p := by
  constructor
  · rintro ⟨ds, hds, hdrop⟩
    obtain ⟨y, rest, hwords, hrest, -⟩ := base32Decode_writes .unsigned hds
    have hlen := congrArg List.length hwords
    have hcount := congrArg List.length hds
    rw [List.length_map, List.length_map] at hcount
    rw [length_words, List.length_append, length_bitsOf, ← hcount] at hlen
    have hstart : 8 * (5 * s.length / 8) = (bitsOf y).length := by
      rw [length_bitsOf]
      omega
    rw [hwords, hstart, List.drop_left] at hdrop
    exact ⟨y, _, Nat.mod_lt _ (by decide), ds, hds, by rw [hwords, hdrop]⟩
  · rintro ⟨x, p, hp, hw⟩
    obtain ⟨hdiv, hmod⟩ := hw.div_mod hp
    obtain ⟨ds, hds, hwords⟩ := hw.letters
    refine ⟨ds, hds, ?_⟩
    rw [hwords, hdiv, hmod, ← length_bitsOf, List.drop_left]

theorem base32Decode_image_iff (char : CharType) (sizeMax : ℕ) (s : List UInt8) :
    (∀ x, base32Decode char s = .ok (true, x) ↔ base32Encode sizeMax x = .ok (true, s)) ↔
      (ZeroPadded s → 5 * s.length % 8 < 5 ∧ 5 * s.length / 8 ≤ sizeMax / 8) := by
  constructor
  · intro h hpadded
    obtain ⟨x, p, hp, hw⟩ := zeroPadded_iff.mp hpadded
    obtain ⟨hle, q, hq, hw'⟩ := base32Encode_iff.mp ((h x).mp ((base32Decode_iff char).mpr ⟨p, hp, hw⟩))
    obtain ⟨hdiv, hmod⟩ := hw'.div_mod (by omega)
    rw [hdiv, hmod]
    exact ⟨hq, hle⟩
  · intro h x
    rw [base32Decode_iff, base32Encode_iff]
    constructor
    · rintro ⟨p, hp, hw⟩
      obtain ⟨hdiv, hmod⟩ := hw.div_mod hp
      obtain ⟨hshort, hle⟩ := h (zeroPadded_iff.mpr ⟨x, p, hp, hw⟩)
      rw [hdiv] at hle
      rw [hmod] at hshort
      exact ⟨hle, p, hshort, hw⟩
    · rintro ⟨-, p, hp, hw⟩
      exact ⟨p, by omega, hw⟩

theorem surplus_accepted :
    base32Decode .unsigned (bytes "A") = .ok (true, []) ∧
      base32Encode (2 ^ 64 - 1) [] = .ok (true, []) ∧
      ¬ (∀ x, base32Decode .unsigned (bytes "A") = .ok (true, x) ↔
        base32Encode (2 ^ 64 - 1) x = .ok (true, bytes "A")) := by
  have hdecode : base32Decode .unsigned (bytes "A") = .ok (true, []) := by decide +kernel
  refine ⟨hdecode, rfl, fun h => ?_⟩
  have hencode := (h []).mp hdecode
  cases hencode

end Codec

end EnvironmentCheck.Base32
