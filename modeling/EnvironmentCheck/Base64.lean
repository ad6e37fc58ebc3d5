import EnvironmentCheck.Library.Sextets

namespace EnvironmentCheck.Base64

open Sextets

/-- `char` is unsigned on ARM and signed on x86. -/
inductive CharType where
  | unsigned
  | signed
  deriving DecidableEq, Repr

inductive OutOfBounds where
  | reverseTable
  | input
  | output
  | table
  | int
  deriving DecidableEq, Repr

def CharType.index : CharType → UInt8 → Int
  | .unsigned, c => c.toNat
  | .signed, c => c.toInt8.toInt

def bytes (s : String) : List UInt8 := s.toList.map fun c => c.toNat.toUInt8

def kBase64Table : List UInt8 :=
  bytes "ABCDEFGHIJKLMNOPQRSTUVWXYZabcdefghijklmnopqrstuvwxyz0123456789+/"

def kBase64TableUrlSafe : List UInt8 :=
  bytes "ABCDEFGHIJKLMNOPQRSTUVWXYZabcdefghijklmnopqrstuvwxyz0123456789-_"

def kBase64TableReverse : List Int8 := [
  -1, -1, -1, -1, -1, -1, -1, -1, -1, -1, -1, -1, -1, -1, -1, -1,
  -1, -1, -1, -1, -1, -1, -1, -1, -1, -1, -1, -1, -1, -1, -1, -1,
  -1, -1, -1, -1, -1, -1, -1, -1, -1, -1, -1, 62, -1, 62, -1, 63,
  52, 53, 54, 55, 56, 57, 58, 59, 60, 61, -1, -1, -1,  0, -1, -1,
  -1,  0,  1,  2,  3,  4,  5,  6,  7,  8,  9, 10, 11, 12, 13, 14,
  15, 16, 17, 18, 19, 20, 21, 22, 23, 24, 25, -1, -1, -1, -1, 63,
  -1, 26, 27, 28, 29, 30, 31, 32, 33, 34, 35, 36, 37, 38, 39, 40,
  41, 42, 43, 44, 45, 46, 47, 48, 49, 50, 51, -1, -1, -1, -1, -1,
  -1, -1, -1, -1, -1, -1, -1, -1, -1, -1, -1, -1, -1, -1, -1, -1,
  -1, -1, -1, -1, -1, -1, -1, -1, -1, -1, -1, -1, -1, -1, -1, -1,
  -1, -1, -1, -1, -1, -1, -1, -1, -1, -1, -1, -1, -1, -1, -1, -1,
  -1, -1, -1, -1, -1, -1, -1, -1, -1, -1, -1, -1, -1, -1, -1, -1,
  -1, -1, -1, -1, -1, -1, -1, -1, -1, -1, -1, -1, -1, -1, -1, -1,
  -1, -1, -1, -1, -1, -1, -1, -1, -1, -1, -1, -1, -1, -1, -1, -1,
  -1, -1, -1, -1, -1, -1, -1, -1, -1, -1, -1, -1, -1, -1, -1, -1,
  -1, -1, -1, -1, -1, -1, -1, -1, -1, -1, -1, -1, -1, -1, -1, -1]

/-- The character `=`. -/
def kBase64NullEnding : UInt8 := 61

def read (input : List UInt8) (i : ℕ) : Except OutOfBounds UInt8 :=
  match input[i]? with
  | some c => .ok c
  | none => .error .input

def store (output : List UInt8) (i : ℕ) (b : UInt8) : Except OutOfBounds (List UInt8) :=
  if i < output.length then .ok (output.set i b) else .error .output

/-- `kBase64TableReverse[c]` -/
def reverse (char : CharType) (c : UInt8) : Except OutOfBounds Int8 :=
  match char.index c with
  | .ofNat i =>
    match kBase64TableReverse[i]? with
    | some d => .ok d
    | none => .error .reverseTable
  | .negSucc _ => .error .reverseTable

def getBase64DecodedSize (input : List UInt8) : ℕ :=
  let mod := input.length % 4
  if input = [] ∨ mod = 1 then 0
  else
    let paddedSize := (input.length + 3) / 4 * 3
    if 2 ≤ mod ∨ (mod = 0 ∧ input[input.length - 1]? = some kBase64NullEnding) then
      if mod = 2 ∨ (mod = 0 ∧ input[input.length - 2]? = some kBase64NullEnding) then
        paddedSize - 2
      else paddedSize - 1
    else paddedSize

/-- The test of a block for unknown characters, which stops at the first. -/
def unknown (char : CharType) : List UInt8 → Except OutOfBounds Bool
  | [] => .ok false
  | c :: cs => (reverse char c).bind fun d => if d < 0 then .ok true else unknown char cs

def misplaced (input0 input1 input2 input3 : UInt8) (atEnd : Bool) : Bool :=
  input0 = kBase64NullEnding || input1 = kBase64NullEnding ||
    (input2 = kBase64NullEnding && !atEnd) ||
    (input2 = kBase64NullEnding && input3 != kBase64NullEnding) ||
    (input3 = kBase64NullEnding && !atEnd)

def sixBits (char : CharType) (c : UInt8) : Except OutOfBounds UInt32 :=
  (reverse char c).map fun d => d.toInt32.toUInt32 &&& 0x3f

/-- The second or third byte of a block: where `=` stands for it, no bits may be left. -/
def storeUnlessNull (output : List UInt8) (i : ℕ) (c : UInt8) (bits : UInt32) :
    Except OutOfBounds (Option (List UInt8)) :=
  if c ≠ kBase64NullEnding then (store output i bits.toUInt8).map some
  else if bits ≠ 0 then .ok none
  else .ok (some output)

def decodeBlock (char : CharType) (input0 input1 input2 input3 : UInt8) (atEnd : Bool) (o : ℕ)
    (output : List UInt8) : Except OutOfBounds (Option (List UInt8)) :=
  (unknown char [input0, input1, input2, input3]).bind fun u =>
  if u then .ok none
  else if misplaced input0 input1 input2 input3 atEnd then .ok none
  else
    (sixBits char input0).bind fun b0 =>
    (sixBits char input1).bind fun b1 =>
    (sixBits char input2).bind fun b2 =>
    (sixBits char input3).bind fun b3 =>
    let stream := (b0 <<< 18) ||| (b1 <<< 12) ||| (b2 <<< 6) ||| b3
    (store output (o + 0) ((stream >>> 16) &&& 0xFF).toUInt8).bind fun output =>
    (storeUnlessNull output (o + 1) input2 ((stream >>> 8) &&& 0xFF)).bind fun
      | none => .ok none
      | some output => storeUnlessNull output (o + 2) input3 ((stream >>> 0) &&& 0xFF)

/-- The loop, with an upper bound for its turns. -/
def decodeFrom (char : CharType) (input : List UInt8) :
    ℕ → ℕ → ℕ → List UInt8 → Except OutOfBounds (Option (List UInt8))
  | 0, _, _, output => .ok (some output)
  | turns + 1, i, o, output =>
    if i < input.length then
      (read input (i + 0)).bind fun input0 =>
      (read input (i + 1)).bind fun input1 =>
      let input2 := input.getD (i + 2) kBase64NullEnding
      let input3 := input.getD (i + 3) kBase64NullEnding
      (decodeBlock char input0 input1 input2 input3 (i + 4 ≥ input.length) o output).bind fun
        | none => .ok none
        | some output => decodeFrom char input turns (i + 4) (o + 3) output
    else .ok (some output)

def resize (output : List UInt8) (size : ℕ) : List UInt8 :=
  output.take size ++ List.replicate (size - output.length) 0

/-- The string that `output` points to: the input itself, or one with its prior content. -/
inductive Output where
  | inplace
  | other (content : List UInt8)

def Output.buffer : Output → List UInt8
  | .inplace => []
  | .other content => content

/-- The content of the output string on success. The `int` indices are below `2 ^ 31`, as the
input has fewer than `2 ^ 31 - 4` bytes. -/
def base64Decode (char : CharType) (input : List UInt8) :
    Option Output → Except OutOfBounds (Option (List UInt8))
  | none => .ok none
  | some output =>
    if input.length % 4 = 1 then .ok none
    else decodeFrom char input input.length 0 0
      (resize output.buffer (getBase64DecodedSize input))

/-- What a character stands for in the tables of the encoders. -/
def letter (c : UInt8) : Option (Fin 64) :=
  (List.finRange 64).find? fun d =>
    kBase64Table[d.val]? = some c || kBase64TableUrlSafe[d.val]? = some c

def entry (c : UInt8) : Int8 :=
  match letter c with
  | some d => .ofNat d.val
  | none => if c = kBase64NullEnding then 0 else -1

def known (c : UInt8) : Bool := (letter c).isSome || c = kBase64NullEnding

theorem ofNat_toInt (d : Fin 64) : (Int8.ofNat d.val).toInt = d.val := by
  revert d
  decide

theorem reverse_of_table {c : UInt8} {d : Fin 64}
    (h : kBase64Table[d.val]? = some c ∨ kBase64TableUrlSafe[d.val]? = some c) :
    kBase64TableReverse[c.toNat]? = some (.ofNat d.val) := by
  have htables : ∀ p ∈ kBase64Table.zipIdx ++ kBase64TableUrlSafe.zipIdx,
      kBase64TableReverse[p.1.toNat]? = some (.ofNat p.2) := by
    decide +kernel
  apply htables (c, d.val)
  rw [List.mem_append, List.mem_zipIdx_iff_getElem?, List.mem_zipIdx_iff_getElem?]
  exact h

theorem table_of_reverse (c : UInt8) :
    ∃ d, kBase64TableReverse[c.toNat]? = some d ∧
      ((d = -1 ∧ c ≠ kBase64NullEnding) ∨ (d = 0 ∧ c = kBase64NullEnding) ∨
        (d.toInt.toNat < 64 ∧ (kBase64Table[d.toInt.toNat]? = some c ∨
          kBase64TableUrlSafe[d.toInt.toNat]? = some c))) := by
  have htable : ∀ p ∈ kBase64TableReverse.zipIdx,
      (p.1 = -1 ∧ UInt8.ofNat p.2 ≠ kBase64NullEnding) ∨
        (p.1 = 0 ∧ .ofNat p.2 = kBase64NullEnding) ∨
        (p.1.toInt.toNat < 64 ∧ (kBase64Table[p.1.toInt.toNat]? = some (.ofNat p.2) ∨
          kBase64TableUrlSafe[p.1.toInt.toNat]? = some (.ofNat p.2))) := by
    decide +kernel
  have hlen : kBase64TableReverse.length = 256 := by decide +kernel
  have hlt : c.toNat < kBase64TableReverse.length := hlen ▸ c.toNat_lt
  have hd := List.getElem?_eq_getElem hlt
  have h := htable (_, c.toNat) (List.mem_zipIdx_iff_getElem?.mpr hd)
  rw [UInt8.ofNat_toNat] at h
  exact ⟨_, hd, h⟩

theorem letter_eq_some {c : UInt8} {d : Fin 64} :
    letter c = some d ↔ kBase64Table[d.val]? = some c ∨ kBase64TableUrlSafe[d.val]? = some c := by
  have hsound : ∀ {d}, letter c = some d →
      kBase64Table[d.val]? = some c ∨ kBase64TableUrlSafe[d.val]? = some c := by
    intro d h
    have hd := List.find?_some h
    rwa [Bool.or_eq_true, decide_eq_true_eq, decide_eq_true_eq] at hd
  constructor
  · exact hsound
  · intro h
    cases hl : letter c with
    | none =>
      have hnone := List.find?_eq_none.mp hl d (List.mem_finRange d)
      rw [Bool.or_eq_true, decide_eq_true_eq, decide_eq_true_eq] at hnone
      exact absurd h hnone
    | some e =>
      have heq := (reverse_of_table (hsound hl)).symm.trans (reverse_of_table h)
      have hint := congrArg Int8.toInt (Option.some.inj heq)
      rw [ofNat_toInt, ofNat_toInt] at hint
      exact congrArg some (Fin.ext (by omega))

theorem reverse_entry (c : UInt8) : kBase64TableReverse[c.toNat]? = some (entry c) := by
  obtain ⟨d, hd, hcases⟩ := table_of_reverse c
  rw [hd]
  unfold entry
  cases hl : letter c with
  | some e =>
    rw [reverse_of_table (letter_eq_some.mp hl)] at hd
    exact hd.symm
  | none =>
    obtain ⟨rfl, hc⟩ | ⟨rfl, hc⟩ | ⟨hlt, hc⟩ := hcases
    · simp only [if_neg hc]
    · simp only [if_pos hc]
    · rw [(letter_eq_some (d := ⟨d.toInt.toNat, hlt⟩)).mpr hc] at hl
      cases hl

theorem reverse_unsigned (c : UInt8) : reverse .unsigned c = .ok (entry c) := by
  simp only [reverse, CharType.index, reverse_entry]

theorem entry_neg (c : UInt8) : entry c < 0 ↔ known c = false := by
  have hdigit : ∀ d : Fin 64, ¬ Int8.ofNat d.val < 0 := by decide
  unfold entry known
  cases letter c with
  | some d => simp [hdigit d]
  | none =>
    by_cases hc : c = kBase64NullEnding
    · simp [hc]
    · simp [hc]

theorem unknown_unsigned (cs : List UInt8) : unknown .unsigned cs = .ok (!cs.all known) := by
  induction cs with
  | nil => rfl
  | cons c cs ih =>
    rw [unknown, reverse_unsigned]
    simp only [Except.bind, entry_neg, ih, List.all_cons]
    split_ifs with hc
    · simp [hc]
    · simp [Bool.of_not_eq_false hc]

def digit (c : UInt8) : Fin 64 := valueOf letter c

theorem ascii_of_letter {c : UInt8} {d : Fin 64} (h : letter c = some d) :
    c.toNat < 128 ∧ c ≠ kBase64NullEnding := by
  have htables : (kBase64Table ++ kBase64TableUrlSafe).all
      (fun c => c.toNat < 128 ∧ c ≠ kBase64NullEnding) = true := by
    decide +kernel
  have hmem : c ∈ kBase64Table ++ kBase64TableUrlSafe := by
    rw [List.mem_append]
    cases letter_eq_some.mp h with
    | inl hd => exact .inl (List.mem_of_getElem? hd)
    | inr hd => exact .inr (List.mem_of_getElem? hd)
  exact of_decide_eq_true (List.all_eq_true.mp htables c hmem)

theorem letter_nullEnding : letter kBase64NullEnding = none :=
  Option.eq_none_iff_forall_ne_some.mpr fun _ h => (ascii_of_letter h).2 rfl

theorem sixBits_unsigned {c : UInt8} (h : known c = true) :
    sixBits .unsigned c = .ok (.ofNat (digit c).val) := by
  have hdigit : ∀ d : Fin 64, (Int8.ofNat d.val).toInt32.toUInt32 &&& 0x3f = .ofNat d.val := by decide
  unfold known at h
  rw [sixBits, reverse_unsigned, entry, digit, valueOf]
  cases hl : letter c with
  | some d => exact congrArg Except.ok (hdigit d)
  | none =>
    rw [hl] at h
    rw [of_decide_eq_true h]
    rfl

theorem letter_of_known {c : UInt8} (h : known c = true) (hc : c ≠ kBase64NullEnding) :
    letter c = some (digit c) := by
  unfold known at h
  unfold digit valueOf
  cases hl : letter c with
  | some d => rfl
  | none =>
    rw [hl] at h
    exact absurd (of_decide_eq_true h) hc

/-- The bytes of a block: those that its characters before any `=` spell. -/
def blockBytes (c0 c1 c2 c3 : UInt8) (atEnd : Bool) : Option (List UInt8) :=
  if misplaced c0 c1 c2 c3 atEnd then none
  else if c2 = kBase64NullEnding then spelled letter [c0, c1]
  else if c3 = kBase64NullEnding then spelled letter [c0, c1, c2]
  else spelled letter [c0, c1, c2, c3]

def blockSize (c2 c3 : UInt8) : ℕ :=
  if c2 = kBase64NullEnding then 1 else if c3 = kBase64NullEnding then 2 else 3

theorem spelled_two {c0 c1 : UInt8} {d0 d1 : Fin 64} (h0 : letter c0 = some d0)
    (h1 : letter c1 = some d1) : spelled letter [c0, c1] = octets [d0, d1] := by
  simp [spelled, h0, h1]

theorem spelled_three {c0 c1 c2 : UInt8} {d0 d1 d2 : Fin 64} (h0 : letter c0 = some d0)
    (h1 : letter c1 = some d1) (h2 : letter c2 = some d2) :
    spelled letter [c0, c1, c2] = octets [d0, d1, d2] := by
  simp [spelled, h0, h1, h2]

theorem spelled_letters {c0 c1 c2 c3 : UInt8} {d0 d1 d2 d3 : Fin 64} (h0 : letter c0 = some d0)
    (h1 : letter c1 = some d1) (h2 : letter c2 = some d2) (h3 : letter c3 = some d3) :
    spelled letter [c0, c1, c2, c3] = octets [d0, d1, d2, d3] := by
  simp [spelled, h0, h1, h2, h3]

theorem misplaced_eq_false {c0 c1 c2 c3 : UInt8} {atEnd : Bool} :
    misplaced c0 c1 c2 c3 atEnd = false ↔
      c0 ≠ kBase64NullEnding ∧ c1 ≠ kBase64NullEnding ∧
        (c2 = kBase64NullEnding → c3 = kBase64NullEnding) ∧
        (c3 = kBase64NullEnding → atEnd = true) := by
  simp only [misplaced, Bool.or_eq_false_iff, decide_eq_false_iff_not, Bool.and_eq_false_iff,
    Bool.not_eq_false', bne_eq_false_iff_eq]
  constructor
  · rintro ⟨⟨⟨⟨h0, h1⟩, -⟩, h23⟩, h3⟩
    exact ⟨h0, h1, fun h2 => h23.resolve_left (absurd h2), fun h => h3.resolve_left (absurd h)⟩
  · rintro ⟨h0, h1, h23, h3⟩
    refine ⟨⟨⟨⟨h0, h1⟩, ?_⟩, ?_⟩, ?_⟩
    · by_cases h2 : c2 = kBase64NullEnding
      · exact .inr (h3 (h23 h2))
      · exact .inl h2
    · by_cases h2 : c2 = kBase64NullEnding
      · exact .inr (h23 h2)
      · exact .inl h2
    · by_cases h : c3 = kBase64NullEnding
      · exact .inr (h3 h)
      · exact .inl h

theorem blockBytes_eq_none {c0 c1 c2 c3 : UInt8} (h : [c0, c1, c2, c3].all known = false)
    (atEnd : Bool) : blockBytes c0 c1 c2 c3 atEnd = none := by
  obtain ⟨c, hc, hk⟩ := List.all_eq_false.mp h
  unfold known at hk
  simp only [Bool.or_eq_true, decide_eq_true_eq, not_or, Bool.not_eq_true,
    Option.isSome_eq_false_iff, Option.isNone_iff_eq_none] at hk
  simp only [List.mem_cons, List.not_mem_nil, or_false] at hc
  unfold blockBytes
  split_ifs with hm h2 h3
  · rfl
  · have h3 := (misplaced_eq_false.mp (Bool.of_not_eq_true hm)).2.2.1 h2
    apply spelled_eq_none _ hk.1
    obtain rfl | rfl | rfl | rfl := hc
    · simp
    · simp
    · exact absurd h2 hk.2
    · exact absurd h3 hk.2
  · apply spelled_eq_none _ hk.1
    obtain rfl | rfl | rfl | rfl := hc
    · simp
    · simp
    · simp
    · exact absurd h3 hk.2
  · apply spelled_eq_none _ hk.1
    simpa using hc

theorem store_append (before hole : List UInt8) (h b : UInt8) :
    store (before ++ h :: hole) before.length b = .ok (before ++ b :: hole) := by
  simp [store]

theorem toUInt8_eq {w : UInt32} {n : ℕ} (h : w.toNat = n) : w.toUInt8 = .ofNat n := by
  rw [← h]
  rfl

theorem ne_zero_iff {w : UInt32} {n : ℕ} (h : w.toNat = n) : w ≠ 0 ↔ n ≠ 0 := by
  rw [← h, Ne, ← UInt32.toNat_inj]
  rfl

theorem storeUnlessNull_ne {c : UInt8} (hc : c ≠ kBase64NullEnding) (before hole : List UInt8)
    (h : UInt8) (bits : UInt32) {n : ℕ} (hn : before.length = n) :
    storeUnlessNull (before ++ h :: hole) n c bits = .ok (some (before ++ bits.toUInt8 :: hole)) := by
  subst hn
  rw [storeUnlessNull, if_pos hc, store_append]
  rfl

theorem storeUnlessNull_eq (output : List UInt8) (i : ℕ) (bits : UInt32) :
    storeUnlessNull output i kBase64NullEnding bits =
      if bits = 0 then .ok (some output) else .ok none := by
  rw [storeUnlessNull, if_neg (fun h => h rfl)]
  by_cases hbits : bits = 0
  · rw [if_pos hbits, if_neg (fun h => h hbits)]
  · rw [if_neg hbits, if_pos hbits]

def storeBlock (c2 c3 : UInt8) (d0 d1 d2 d3 : Fin 64) (o : ℕ) (output : List UInt8) :
    Except OutOfBounds (Option (List UInt8)) :=
  let stream := pack (.ofNat d0.val) (.ofNat d1.val) (.ofNat d2.val) (.ofNat d3.val)
  (store output (o + 0) (byteAt stream 16).toUInt8).bind fun output =>
  (storeUnlessNull output (o + 1) c2 (byteAt stream 8)).bind fun
    | none => .ok none
    | some output => storeUnlessNull output (o + 2) c3 (byteAt stream 0)

theorem decodeBlock_eq {c0 c1 c2 c3 : UInt8} {atEnd : Bool} {o : ℕ} {output : List UInt8}
    (hk : [c0, c1, c2, c3].all known = true) (hm : misplaced c0 c1 c2 c3 atEnd = false) :
    decodeBlock .unsigned c0 c1 c2 c3 atEnd o output =
      storeBlock c2 c3 (digit c0) (digit c1) (digit c2) (digit c3) o output := by
  rw [decodeBlock, unknown_unsigned, hk]
  simp only [Except.bind, Bool.not_true, Bool.false_eq_true, ↓reduceIte, hm]
  simp only [List.all_cons, List.all_nil, Bool.and_true, Bool.and_eq_true] at hk
  rw [sixBits_unsigned hk.1, sixBits_unsigned hk.2.1, sixBits_unsigned hk.2.2.1,
    sixBits_unsigned hk.2.2.2]
  rfl

section Stores

variable {c2 c3 : UInt8} (d0 d1 d2 d3 : Fin 64) {before hole : List UInt8}

theorem storeBlock_four (h2 : c2 ≠ kBase64NullEnding) (h3 : c3 ≠ kBase64NullEnding)
    (hroom : 3 ≤ hole.length) :
    storeBlock c2 c3 d0 d1 d2 d3 before.length (before ++ hole) =
      .ok ((octets [d0, d1, d2, d3]).map fun xs => before ++ xs ++ hole.drop xs.length) := by
  match hole, hroom with
  | x :: y :: z :: hole, _ =>
    simp only [storeBlock, Nat.add_zero, store_append, Except.bind]
    rw [toUInt8_eq (pack_first d0 d1 d2 d3), List.append_cons,
      storeUnlessNull_ne h2 _ _ _ _ (by simp), toUInt8_eq (pack_second d0 d1 d2 d3)]
    simp only
    rw [List.append_cons, storeUnlessNull_ne h3 _ _ _ _ (by simp),
      toUInt8_eq (pack_third d0 d1 d2 d3)]
    simp [octets]

theorem storeBlock_three (h2 : c2 ≠ kBase64NullEnding) (hroom : 2 ≤ hole.length) :
    storeBlock c2 kBase64NullEnding d0 d1 d2 0 before.length (before ++ hole) =
      .ok ((octets [d0, d1, d2]).map fun xs => before ++ xs ++ hole.drop xs.length) := by
  match hole, hroom with
  | x :: y :: hole, _ =>
    simp only [storeBlock, Nat.add_zero, store_append, Except.bind]
    rw [toUInt8_eq (pack_first d0 d1 d2 0), List.append_cons,
      storeUnlessNull_ne h2 _ _ _ _ (by simp), toUInt8_eq (pack_second d0 d1 d2 0)]
    simp only [storeUnlessNull_eq]
    have hstale := ne_zero_iff (pack_third d0 d1 d2 0)
    rw [Fin.val_zero, Nat.add_zero] at hstale
    by_cases hbits : d2.val % 4 = 0
    · have hzero := not_not.mp (mt hstale.mp (by omega))
      rw [octets, if_pos hbits, Fin.val_zero, if_pos hzero]
      simp
    · have hne := hstale.mpr (by omega)
      rw [octets, if_neg hbits, Fin.val_zero, if_neg hne]
      rfl

theorem storeBlock_two (hroom : 1 ≤ hole.length) :
    storeBlock kBase64NullEnding kBase64NullEnding d0 d1 0 0 before.length (before ++ hole) =
      .ok ((octets [d0, d1]).map fun xs => before ++ xs ++ hole.drop xs.length) := by
  match hole, hroom with
  | x :: hole, _ =>
    simp only [storeBlock, Nat.add_zero, store_append, Except.bind, storeUnlessNull_eq]
    rw [toUInt8_eq (pack_first d0 d1 0 0)]
    have hstale := ne_zero_iff (pack_second d0 d1 0 0)
    have hthird := not_not.mp (mt (ne_zero_iff (pack_third d0 d1 0 0)).mp (by decide))
    rw [Fin.val_zero] at hstale hthird
    by_cases hbits : d1.val % 16 = 0
    · have hzero := not_not.mp (mt hstale.mp (by omega))
      rw [octets, if_pos hbits, Fin.val_zero, if_pos hzero]
      simp only
      rw [if_pos hthird]
      simp
    · have hne := hstale.mpr (by omega)
      rw [octets, if_neg hbits, Fin.val_zero, if_neg hne]
      rfl

end Stores

theorem digit_nullEnding : digit kBase64NullEnding = 0 := by
  rw [digit, valueOf, letter_nullEnding]
  rfl

theorem decodeBlock_unsigned {c0 c1 c2 c3 : UInt8} {atEnd : Bool} {before hole : List UInt8}
    (hroom : blockSize c2 c3 ≤ hole.length) :
    decodeBlock .unsigned c0 c1 c2 c3 atEnd before.length (before ++ hole) =
      .ok ((blockBytes c0 c1 c2 c3 atEnd).map fun xs => before ++ xs ++ hole.drop xs.length) := by
  cases hk : [c0, c1, c2, c3].all known with
  | false =>
    rw [blockBytes_eq_none hk, decodeBlock, unknown_unsigned, hk]
    rfl
  | true =>
    cases hm : misplaced c0 c1 c2 c3 atEnd with
    | true =>
      rw [blockBytes, hm, decodeBlock, unknown_unsigned, hk]
      simp only [Except.bind, hm]
      rfl
    | false =>
      rw [decodeBlock_eq hk hm, blockBytes, hm]
      simp only [List.all_cons, List.all_nil, Bool.and_true, Bool.and_eq_true] at hk
      obtain ⟨hk0, hk1, hk2, hk3⟩ := hk
      obtain ⟨h0, h1, h23, -⟩ := misplaced_eq_false.mp hm
      have hl0 := letter_of_known hk0 h0
      have hl1 := letter_of_known hk1 h1
      unfold blockSize at hroom
      simp only [Bool.false_eq_true, ↓reduceIte]
      by_cases h2 : c2 = kBase64NullEnding
      · have h3 := h23 h2
        subst h2 h3
        rw [if_pos rfl] at hroom ⊢
        rw [digit_nullEnding, storeBlock_two _ _ hroom, spelled_two hl0 hl1]
      · have hl2 := letter_of_known hk2 h2
        rw [if_neg h2] at hroom ⊢
        by_cases h3 : c3 = kBase64NullEnding
        · subst h3
          rw [if_pos rfl] at hroom ⊢
          rw [digit_nullEnding, storeBlock_three _ _ _ h2 hroom, spelled_three hl0 hl1 hl2]
        · have hl3 := letter_of_known hk3 h3
          rw [if_neg h3] at hroom ⊢
          rw [storeBlock_four _ _ _ _ h2 h3 hroom, spelled_letters hl0 hl1 hl2 hl3]

theorem ne_of_spelled {cs xs : List UInt8} {c : UInt8} (h : spelled letter cs = some xs)
    (hc : c ∈ cs) : c ≠ kBase64NullEnding := by
  rintro rfl
  rw [spelled_eq_none hc letter_nullEnding] at h
  cases h

theorem blockBytes_eq_some {c0 c1 c2 c3 : UInt8} {atEnd : Bool} {xs : List UInt8} :
    blockBytes c0 c1 c2 c3 atEnd = some xs ↔
      spelled letter [c0, c1, c2, c3] = some xs ∨
      (atEnd = true ∧ c3 = kBase64NullEnding ∧
        (spelled letter [c0, c1, c2] = some xs ∨
          (c2 = kBase64NullEnding ∧ spelled letter [c0, c1] = some xs))) := by
  unfold blockBytes
  constructor
  · intro h
    split_ifs at h with hm h2 h3
    · obtain ⟨-, -, h23, hend⟩ := misplaced_eq_false.mp (Bool.of_not_eq_true hm)
      exact .inr ⟨hend (h23 h2), h23 h2, .inr ⟨h2, h⟩⟩
    · obtain ⟨-, -, -, hend⟩ := misplaced_eq_false.mp (Bool.of_not_eq_true hm)
      exact .inr ⟨hend h3, h3, .inl h⟩
    · exact .inl h
  · intro h
    obtain h | ⟨hend, h3, h | ⟨h2, h⟩⟩ := h
    · have h0 := ne_of_spelled (c := c0) h (by simp)
      have h1 := ne_of_spelled (c := c1) h (by simp)
      have h2 := ne_of_spelled (c := c2) h (by simp)
      have h3 := ne_of_spelled (c := c3) h (by simp)
      rw [misplaced_eq_false.mpr ⟨h0, h1, fun he => absurd he h2, fun he => absurd he h3⟩]
      rw [if_neg Bool.false_ne_true, if_neg h2, if_neg h3, h]
    · have h0 := ne_of_spelled (c := c0) h (by simp)
      have h1 := ne_of_spelled (c := c1) h (by simp)
      have h2 := ne_of_spelled (c := c2) h (by simp)
      rw [misplaced_eq_false.mpr ⟨h0, h1, fun _ => h3, fun _ => hend⟩]
      rw [if_neg Bool.false_ne_true, if_neg h2, if_pos h3, h]
    · have h0 := ne_of_spelled (c := c0) h (by simp)
      have h1 := ne_of_spelled (c := c1) h (by simp)
      rw [misplaced_eq_false.mpr ⟨h0, h1, fun _ => h3, fun _ => hend⟩]
      rw [if_neg Bool.false_ne_true, if_pos h2, h]

theorem blockBytes_inner (c0 c1 c2 c3 : UInt8) :
    blockBytes c0 c1 c2 c3 false = spelled letter [c0, c1, c2, c3] := by
  ext xs
  rw [blockBytes_eq_some]
  simp

end EnvironmentCheck.Base64
