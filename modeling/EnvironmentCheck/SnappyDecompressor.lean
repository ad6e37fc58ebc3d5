import EnvironmentCheck.SnappySource

namespace EnvironmentCheck.SnappyCodec

open BackReference Buffer LittleEndian

def kMaximumTagLength : ℕ := 5

def kSlopBytes : ℕ := 64

/-- The offset is taken away from the length, which stays in the low byte. -/
def makeEntry (len offset : ℤ) : ℤ := len - offset * 2 ^ 8

def lengthMinusOffset (data type : ℕ) : ℤ :=
  if type = COPY_4_BYTE_OFFSET then 0xFF
  else if type = COPY_2_BYTE_OFFSET then makeEntry (data + 1) 0
  else if type = COPY_1_BYTE_OFFSET then makeEntry ((data &&& 7) + 4 : ℕ) (data >>> 3 : ℕ)
  else if data < 60 then makeEntry (data + 1) 1
  else 0xFF

def kLengthMinusOffset (tag : UInt8) : ℤ := lengthMinusOffset (tag.toNat >>> 2) (tag.toNat &&& 3)

def calculateNeeded (tag : UInt8) : ℕ :=
  if tag.toNat &&& 3 = 0 ∧ tag.toNat ≥ 60 * 4 then tag.toNat >>> 2 - 58
  else 0x05030201 >>> (tag.toNat * 8 &&& 31) &&& 0xFF

/-- The mask is wider than the value, so that it may be shifted by all of its bits. -/
def extractLowBytes (v n : ℕ) : ℕ :=
  let mask := 0xffffffff
  v &&& (2 ^ 64 - 1 ^^^ mask <<< (8 * n))

def leftShiftOverflows (value : UInt8) (shift : ℕ) : Bool :=
  let masks : List UInt8 := List.replicate 25 0x00 ++ [0x80, 0xc0, 0xe0, 0xf0, 0xf8, 0xfc, 0xfe]
  value &&& masks.getD shift 0 ≠ 0

/-- Group by group; `none` is the return of `false`. -/
def readUncompressedLengthFrom (reader : Source) (result : UInt32) (shift : ℕ) :
    Option (UInt32 × Source) :=
  if _h : shift ≥ 32 then none
  else
    match reader.peek with
    | [] => none
    | c :: _ =>
      let reader := reader.skip 1
      let val := c &&& 0x7f
      if leftShiftOverflows val shift then none
      else
        let result := result ||| val.toUInt32 <<< shift.toUInt32
        if c < 128 then some (result, reader)
        else readUncompressedLengthFrom reader result (shift + 7)
termination_by 32 - shift

def readUncompressedLength (reader : Source) : Option (UInt32 × Source) :=
  readUncompressedLengthFrom reader 0 0

/-- `ip` are the buffered bytes, and `beyond` what can be read after them; from `minMaxTagLen` bytes down
the buffer has to be filled again. -/
structure SnappyDecompressor where
  reader : Source
  ip : List UInt8
  beyond : List UInt8
  minMaxTagLen : ℕ
  peeked : ℕ
  eof : Bool
  scratch : List UInt8

namespace SnappyDecompressor

def resetLimit (d : SnappyDecompressor) : SnappyDecompressor :=
  { d with minMaxTagLen := min d.ip.length (kMaximumTagLength - 1) }

/-- All peeked bytes are used up, and others are peeked. -/
def nextFragment (d : SnappyDecompressor) : SnappyDecompressor :=
  let reader := d.reader.skip d.peeked
  { d with reader, ip := reader.peek, beyond := [], peeked := reader.peek.length % 2 ^ 32 }

def fetchFragment (d : SnappyDecompressor) : SnappyDecompressor :=
  if d.ip.isEmpty then { d.nextFragment with eof := d.nextFragment.ip.isEmpty } else d

/-- The first `nbuf` bytes of the scratch space go on in the reader, from which they are filled up. -/
def stitch : ℕ → Source → List UInt8 → ℕ → ℕ → Option (Bool × Source × List UInt8)
  | fuel, reader, scratch, nbuf, needed =>
    if nbuf < needed then
      match fuel with
      | 0 => none
      | fuel + 1 =>
        let src := reader.peek
        if src.length = 0 then some (false, reader, scratch)
        else do
          let toAdd := min (needed - nbuf) (src.length % 2 ^ 32)
          let scratch ← store scratch nbuf (src.take toAdd)
          stitch fuel (reader.skip toAdd) scratch (nbuf + toAdd) needed
    else some (true, reader, scratch)

/-- From here on the buffer is the first `n` bytes of the scratch space. -/
def useScratch (d : SnappyDecompressor) (reader : Source) (scratch : List UInt8) (n : ℕ) :
    SnappyDecompressor :=
  { d with reader, peeked := 0, scratch, ip := scratch.take n, beyond := scratch.drop n }

def stitchTag (d : SnappyDecompressor) (nbuf needed : ℕ) : Option (Bool × SnappyDecompressor) := do
  let scratch ← store d.scratch 0 (d.ip.take nbuf)
  let (ok, reader, scratch) ← stitch needed (d.reader.skip d.peeked) scratch nbuf needed
  return (ok, if ok then d.useScratch reader scratch needed else { d with reader, peeked := 0, scratch })

/-- So that what is read past the end of the input lies in the scratch space. -/
def moveTag (d : SnappyDecompressor) (nbuf : ℕ) : Option (Bool × SnappyDecompressor) := do
  let scratch ← store d.scratch 0 (d.ip.take nbuf)
  return (true, d.useScratch (d.reader.skip d.peeked) scratch nbuf)

def refillTag (d : SnappyDecompressor) : Option (Bool × SnappyDecompressor) :=
  let d := d.fetchFragment
  match d.ip with
  | [] => some (false, d)
  | c :: _ =>
    let needed := calculateNeeded c
    let nbuf := d.ip.length % 2 ^ 32
    if nbuf < needed then d.stitchTag nbuf needed
    else if nbuf < kMaximumTagLength then d.moveTag nbuf
    else some (true, d)

/-- `MAYBE_REFILL`, but for the byte that is preloaded after it. -/
def maybeRefill (d : SnappyDecompressor) : Option (Bool × SnappyDecompressor) :=
  if d.ip.length ≤ d.minMaxTagLen then d.refillTag.map fun r => (r.1, if r.1 then r.2.resetLimit else r.2)
  else some (true, d)

/-- The buffered bytes and those still to come. -/
def rest (d : SnappyDecompressor) : List UInt8 := d.ip ++ d.reader.left.drop d.peeked

end SnappyDecompressor

/-- How many bytes after its tag an element needs, before those of a literal. -/
def trailerLength (tag : UInt8) : ℕ :=
  match tag.toNat % 4 with
  | 0 => tag.toNat / 4 - 59
  | 1 => 1
  | 2 => 2
  | _ => 4

/-- The length of a copy, or of a literal that has no trailer. -/
def elementLength (tag : UInt8) : ℕ :=
  if tag.toNat % 4 = 1 then tag.toNat / 4 % 8 + 4 else tag.toNat / 4 + 1

/-- The part of an offset that lies in the tag. -/
def tagOffset (tag : UInt8) : ℕ := if tag.toNat % 4 = 1 then tag.toNat / 4 / 8 else 0

def copyOffset (tag : UInt8) (bytes : List UInt8) : ℕ :=
  256 * tagOffset tag + value (bytes.take (trailerLength tag))

section Tags

variable {reader : Source} {bytes : List UInt8} {tag : UInt8}

theorem tag_types (tag : UInt8) :
    tag.toNat % 4 = 0 ∨ tag.toNat % 4 = 1 ∨ tag.toNat % 4 = 2 ∨ tag.toNat % 4 = 3 := by omega

theorem calculateNeeded_eq (tag : UInt8) : calculateNeeded tag = trailerLength tag + 1 := by
  have hlt := tag.toNat_lt
  have hlow : tag.toNat &&& 3 = tag.toNat % 4 := Nat.and_two_pow_sub_one_eq_mod _ 2
  have hshift : tag.toNat * 8 &&& 31 = 8 * (tag.toNat % 4) := by
    rw [show (31 : ℕ) = 2 ^ 5 - 1 from rfl, Nat.and_two_pow_sub_one_eq_mod]
    omega
  have hhigh : tag.toNat >>> 2 = tag.toNat / 4 := Nat.shiftRight_eq_div_pow _ 2
  rw [calculateNeeded, trailerLength, hlow, hshift, hhigh]
  obtain h | h | h | h := tag_types tag
  · simp only [h, true_and]
    split_ifs with hlong
    · omega
    · have hshort : tag.toNat / 4 - 59 = 0 := by omega
      rw [hshort]
      rfl
  all_goals
    simp only [h]
    rfl

theorem trailerLength_le (tag : UInt8) : trailerLength tag ≤ 4 := by
  have hlt := tag.toNat_lt
  obtain htype | htype | htype | htype := tag_types tag
  all_goals
    simp only [trailerLength, htype]
    omega

theorem elementLength_pos (tag : UInt8) : 0 < elementLength tag := by
  rw [elementLength]
  split_ifs <;> omega

theorem elementLength_le (tag : UInt8) : elementLength tag ≤ 64 := by
  have hlt := tag.toNat_lt
  rw [elementLength]
  split_ifs <;> omega

theorem copyOffset_lt (tag : UInt8) (bytes : List UInt8) : copyOffset tag bytes < 2 ^ 32 := by
  have hlt := tag.toNat_lt
  have hvalue := value_lt (bytes.take (trailerLength tag))
  have hlength : (bytes.take (trailerLength tag)).length ≤ trailerLength tag := by
    rw [List.length_take]
    exact Nat.min_le_left _ _
  have hpow := hvalue.trans_le (Nat.pow_le_pow_right (show 0 < 256 by decide) hlength)
  rw [copyOffset, tagOffset]
  split_ifs with hone
  · simp only [trailerLength, hone] at hpow ⊢
    omega
  · have hwide : 256 ^ trailerLength tag ≤ 256 ^ 4 := Nat.pow_le_pow_right (by decide) (trailerLength_le tag)
    omega

theorem lengthMinusOffset_copy (h : tag.toNat % 4 = 1 ∨ tag.toNat % 4 = 2) :
    kLengthMinusOffset tag = elementLength tag - 256 * tagOffset tag := by
  have hlow : tag.toNat &&& 3 = tag.toNat % 4 := Nat.and_two_pow_sub_one_eq_mod _ 2
  have hhigh : tag.toNat >>> 2 = tag.toNat / 4 := Nat.shiftRight_eq_div_pow _ 2
  have hseven : tag.toNat / 4 &&& 7 = tag.toNat / 4 % 8 := Nat.and_two_pow_sub_one_eq_mod _ 3
  have height : (tag.toNat / 4) >>> 3 = tag.toNat / 4 / 8 := Nat.shiftRight_eq_div_pow _ 3
  rw [kLengthMinusOffset, hlow, hhigh, lengthMinusOffset, elementLength, tagOffset, hseven, height]
  obtain h | h := h
  · simp only [h, makeEntry, COPY_4_BYTE_OFFSET, COPY_2_BYTE_OFFSET, COPY_1_BYTE_OFFSET]
    norm_num
    ring
  · simp only [h, makeEntry, COPY_4_BYTE_OFFSET, COPY_2_BYTE_OFFSET]
    norm_num

theorem lengthMinusOffset_literal (h : tag.toNat % 4 = 0) (hshort : tag.toNat / 4 < 60) :
    kLengthMinusOffset tag = elementLength tag - 256 := by
  have hlow : tag.toNat &&& 3 = tag.toNat % 4 := Nat.and_two_pow_sub_one_eq_mod _ 2
  have hhigh : tag.toNat >>> 2 = tag.toNat / 4 := Nat.shiftRight_eq_div_pow _ 2
  rw [kLengthMinusOffset, hlow, hhigh, lengthMinusOffset, elementLength]
  simp only [h, hshort, makeEntry, COPY_4_BYTE_OFFSET, COPY_2_BYTE_OFFSET, COPY_1_BYTE_OFFSET]
  norm_num

/-- What is left to the slower loop: a long literal, or an offset of four bytes. -/
theorem lengthMinusOffset_exceptional (h : tag.toNat % 4 = 3 ∨ tag.toNat % 4 = 0 ∧ ¬ tag.toNat / 4 < 60) :
    kLengthMinusOffset tag = 255 := by
  have hlow : tag.toNat &&& 3 = tag.toNat % 4 := Nat.and_two_pow_sub_one_eq_mod _ 2
  have hhigh : tag.toNat >>> 2 = tag.toNat / 4 := Nat.shiftRight_eq_div_pow _ 2
  rw [kLengthMinusOffset, hlow, hhigh, lengthMinusOffset]
  obtain h | ⟨h, hlong⟩ := h
  · simp only [h, COPY_4_BYTE_OFFSET]
    norm_num
  · simp only [h, hlong, COPY_4_BYTE_OFFSET, COPY_2_BYTE_OFFSET, COPY_1_BYTE_OFFSET]
    norm_num

theorem readElement_copy (h : tag.toNat % 4 ≠ 0) (htrailer : trailerLength tag ≤ bytes.length) :
    readElement (tag :: bytes) =
      some (.copy (copyOffset tag bytes) (elementLength tag), bytes.drop (trailerLength tag)) := by
  have hread : readTrailer (trailerLength tag) bytes = some (value (bytes.take (trailerLength tag)),
    bytes.drop (trailerLength tag)) := if_pos htrailer
  obtain htype | htype | htype | htype := tag_types tag
  · exact absurd htype h
  all_goals
    simp only [trailerLength, htype] at hread
    simp only [readElement, copyOffset, tagOffset, elementLength, trailerLength, htype, hread]
    norm_num

theorem readElement_literal (h : tag.toNat % 4 = 0) (hshort : tag.toNat / 4 < 60) :
    readElement (tag :: bytes) = readLiteral (elementLength tag) bytes := by
  simp only [readElement, elementLength, h, hshort]
  norm_num

theorem readElement_longLiteral (h : tag.toNat % 4 = 0) (hlong : ¬ tag.toNat / 4 < 60)
    (htrailer : trailerLength tag ≤ bytes.length) :
    readElement (tag :: bytes) = readLiteral ((value (bytes.take (trailerLength tag)) + 1) % 2 ^ 32)
      (bytes.drop (trailerLength tag)) := by
  have hread : readTrailer (trailerLength tag) bytes = some (value (bytes.take (trailerLength tag)),
    bytes.drop (trailerLength tag)) := if_pos htrailer
  simp only [trailerLength, h] at hread
  simp only [readElement, trailerLength, h, if_neg hlong, hread, Option.bind_some]

/-- An element whose trailer is cut off cannot be read. -/
theorem readElement_truncated (h : bytes.length < trailerLength tag) : readElement (tag :: bytes) = none := by
  have hnone : readTrailer (trailerLength tag) bytes = none := if_neg (not_le.mpr h)
  obtain htype | htype | htype | htype := tag_types tag
  all_goals
    simp only [trailerLength, htype] at h hnone
    simp only [readElement, htype]
  · rw [if_neg (show ¬ tag.toNat / 4 < 60 by omega), hnone]
    rfl
  all_goals
    rw [hnone]
    rfl

theorem peek_eq_take (reader : Source) : reader.peek = reader.left.take reader.peek.length := by
  rw [Source.peek, List.length_take]
  exact (List.take_eq_take_min ..)

theorem peek_take {k : ℕ} (h : k ≤ reader.peek.length) : reader.peek.take k = reader.left.take k := by
  rw [peek_eq_take reader, List.take_take, Nat.min_eq_left h]

theorem peek_length_le (reader : Source) : reader.peek.length ≤ reader.left.length := by
  rw [Source.peek, List.length_take]
  omega

theorem peek_eq_nil_iff : reader.peek = [] ↔ reader.left = [] := by
  rw [Source.peek, List.take_eq_nil_iff, or_iff_right_iff_imp]
  intro hflat
  by_contra hleft
  have hpos := reader.flat_pos reader.left.length (List.length_pos_iff.mpr hleft)
  omega

end Tags

namespace SnappyDecompressor

structure Sound (d : SnappyDecompressor) : Prop where
  scratch : d.scratch.length = kMaximumTagLength
  left : d.reader.left.length < 2 ^ 32
  buffered : d.ip.length < 2 ^ 32
  running : d.eof = false

structure Valid (d : SnappyDecompressor) : Prop extends Sound d where
  limit : d.minMaxTagLen = 4 ∨ d.ip.length ≤ d.minMaxTagLen

/-- The next tag is buffered with all it needs, and four bytes after it can be read. -/
structure Ready (d : SnappyDecompressor) (tag : UInt8) (bytes : List UInt8) : Prop extends Valid d where
  ip_eq : d.ip = tag :: bytes
  trailer : trailerLength tag ≤ bytes.length
  readable : 4 ≤ (bytes ++ d.beyond).length

variable {d : SnappyDecompressor} {reader : Source} {scratch bytes : List UInt8} {tag : UInt8}
  {fuel nbuf needed : ℕ}

theorem stitch_spec (hneeded : needed ≤ scratch.length) (hnbuf : nbuf ≤ needed)
    (hleft : reader.left.length < 2 ^ 32) (hfuel : needed - nbuf ≤ fuel) :
    ∃ ok reader' scratch', stitch fuel reader scratch nbuf needed = some (ok, reader', scratch') ∧
      (ok = true ↔ needed - nbuf ≤ reader.left.length) ∧ (ok = true →
        reader' = reader.skip (needed - nbuf) ∧ scratch'.length = scratch.length ∧
          scratch'.take needed = scratch.take nbuf ++ reader.left.take (needed - nbuf)) := by
  induction fuel generalizing reader scratch nbuf with
  | zero =>
    obtain rfl : nbuf = needed := by omega
    rw [stitch, if_neg (lt_irrefl _), Nat.sub_self]
    refine ⟨true, reader, scratch, rfl, by simp, fun _ => ⟨rfl, rfl, ?_⟩⟩
    rw [List.take_zero, List.append_nil]
  | succ fuel ih =>
    rw [stitch]
    obtain hmore | rfl := Nat.lt_or_eq_of_le hnbuf
    · by_cases hempty : reader.peek.length = 0
      · have hnil : reader.left = [] := peek_eq_nil_iff.mp (List.length_eq_zero_iff.mp hempty)
        simp only [if_pos hmore, if_pos hempty]
        refine ⟨false, reader, scratch, rfl, ?_, nofun⟩
        rw [hnil]
        simp only [Bool.false_eq_true, List.length_nil, false_iff]
        omega
      simp only [if_pos hmore, if_neg hempty]
      have hpeek := peek_length_le reader
      have hregion := peek_take (Nat.min_le_right (needed - nbuf) reader.peek.length)
      have hpos : 0 < reader.peek.length := Nat.pos_of_ne_zero hempty
      rw [Nat.mod_eq_of_lt (hpeek.trans_lt hleft), hregion]
      have hle : min (needed - nbuf) reader.peek.length ≤ needed - nbuf := Nat.min_le_left _ _
      have hle' : min (needed - nbuf) reader.peek.length ≤ reader.left.length :=
        (Nat.min_le_right _ _).trans hpeek
      have hstep : 0 < min (needed - nbuf) reader.peek.length := by omega
      generalize min (needed - nbuf) reader.peek.length = k at hle hle' hstep ⊢
      have hk : (reader.left.take k).length = k := by
        rw [List.length_take]
        omega
      obtain ⟨scratch1, hstore⟩ : ∃ mem, store scratch nbuf (reader.left.take k) = some mem :=
        exists_store (by omega)
      have hsize := length_store hstore
      have hfront := take_store hstore hk.ge
      have hskip : (reader.skip k).left.length = reader.left.length - k := List.length_drop
      have hrest : needed - nbuf = k + (needed - (nbuf + k)) := by omega
      obtain ⟨ok, reader', scratch', hstitch, hok, hdone⟩ :=
        ih (show needed ≤ scratch1.length by omega) (show nbuf + k ≤ needed by omega)
          (show (reader.skip k).left.length < 2 ^ 32 by omega) (by omega)
      simp only [hstore, Option.bind_eq_bind, Option.bind_some]
      refine ⟨ok, reader', scratch', hstitch, ?_, ?_⟩
      · rw [hok]
        omega
      · intro htrue
        obtain ⟨hreader, hlength, htake⟩ := hdone htrue
        refine ⟨?_, hlength.trans hsize, ?_⟩
        · rw [hreader, hrest]
          simp only [Source.skip, List.drop_drop]
        · rw [htake, hfront, List.take_take, Nat.min_self, List.append_assoc, Source.skip,
            ← List.take_add, ← hrest]
    · rw [if_neg (lt_irrefl _), Nat.sub_self]
      refine ⟨true, reader, scratch, rfl, by simp, fun _ => ⟨rfl, rfl, ?_⟩⟩
      rw [List.take_zero, List.append_nil]

theorem length_skip_lt (h : reader.left.length < 2 ^ 32) (n : ℕ) :
    (reader.skip n).left.length < 2 ^ 32 := by
  rw [Source.skip, List.length_drop]
  omega

theorem nextFragment_rest (h : d.reader.left.length < 2 ^ 32) :
    d.nextFragment.rest = d.reader.left.drop d.peeked := by
  have hpeek := peek_length_le (d.reader.skip d.peeked)
  have hlt := length_skip_lt h d.peeked
  have hnarrow : (d.reader.skip d.peeked).peek.length % 2 ^ 32 = (d.reader.skip d.peeked).peek.length :=
    Nat.mod_eq_of_lt (by omega)
  simp only [rest, nextFragment, hnarrow]
  conv => lhs; lhs; rw [peek_eq_take]
  exact List.take_append_drop ..

theorem resetLimit_valid (h : d.Sound) : d.resetLimit.Valid := by
  refine ⟨⟨h.scratch, h.left, h.buffered, h.running⟩, ?_⟩
  simp only [resetLimit, kMaximumTagLength]
  omega

theorem nextFragment_sound (h : d.Sound) : d.nextFragment.Sound := by
  have hlt := length_skip_lt h.left d.peeked
  have hpeek := peek_length_le (d.reader.skip d.peeked)
  exact ⟨h.scratch, hlt, hpeek.trans_lt hlt, h.running⟩

/-- After a refill the tag is ready, or the input has ended, or it ends within the tag's trailer. -/
inductive Refilled (d : SnappyDecompressor) : Option (Bool × SnappyDecompressor) → Prop
  | ready {d' : SnappyDecompressor} {tag : UInt8} {bytes : List UInt8} :
    d'.Ready tag bytes → d'.rest = d.rest → Refilled d (some (true, d'))
  | ended {d' : SnappyDecompressor} : d'.eof = true → d.rest = [] → Refilled d (some (false, d'))
  | truncated {d' : SnappyDecompressor} : d'.eof = false → d.rest ≠ [] → readElement d.rest = none →
    Refilled d (some (false, d'))

theorem Refilled.of_rest_eq {d' : SnappyDecompressor} {r : Option (Bool × SnappyDecompressor)}
    (h : Refilled d r) (hrest : d.rest = d'.rest) : Refilled d' r := by
  cases h with
  | ready hready heq => exact .ready hready (heq.trans hrest)
  | ended heof hnil => exact .ended heof (hrest ▸ hnil)
  | truncated heof hne hread => exact .truncated heof (hrest ▸ hne) (hrest ▸ hread)

theorem scratch_ready {front : List UInt8} {n : ℕ} (h : d.Sound) (hlt : reader.left.length < 2 ^ 32)
    (hscratch : scratch.length = kMaximumTagLength) (hn : n ≤ kMaximumTagLength)
    (hfront : scratch.take n = tag :: front) (htrailer : trailerLength tag ≤ front.length)
    (hrest : scratch.take n ++ reader.left = d.rest) :
    Refilled d (some (true, (d.useScratch reader scratch n).resetLimit)) := by
  rw [kMaximumTagLength] at hscratch hn
  have hlength : (scratch.take n).length = n := by
    rw [List.length_take]
    omega
  have hsound : (d.useScratch reader scratch n).Sound := by
    refine ⟨hscratch, hlt, ?_, h.running⟩
    rw [useScratch, hlength]
    omega
  apply Refilled.ready ⟨resetLimit_valid hsound, hfront, htrailer, ?_⟩ hrest
  · have hwhole : (scratch.take n ++ scratch.drop n).length = 5 := by rw [List.take_append_drop, hscratch]
    rw [hfront, List.cons_append, List.length_cons] at hwhole
    exact (Nat.succ.inj hwhole).ge

/-- From a buffer that is not empty. -/
theorem refill_spec (h : d.Sound) (hip : d.ip = tag :: bytes) :
    Refilled d (d.refillTag.map fun r => (r.1, if r.1 then r.2.resetLimit else r.2)) := by
  have hfetch : d.fetchFragment = d := by
    rw [fetchFragment, hip]
    rfl
  have hlength : d.ip.length = bytes.length + 1 := by rw [hip, List.length_cons]
  have hnbuf : d.ip.length % 2 ^ 32 = d.ip.length := Nat.mod_eq_of_lt h.buffered
  have hscratch := h.scratch
  have hmax : kMaximumTagLength = 5 := rfl
  have htrailer := trailerLength_le tag
  rw [refillTag, hfetch]
  simp only [hip]
  rw [← hip, hnbuf, calculateNeeded_eq]
  by_cases hshort : d.ip.length < trailerLength tag + 1
  · rw [if_pos hshort, stitchTag, List.take_length]
    obtain ⟨scratch1, hstore⟩ : ∃ mem, store d.scratch 0 d.ip = some mem := exists_store (by omega)
    have hsize := length_store hstore
    have hfront := take_store hstore le_rfl
    rw [List.take_length, Nat.zero_add, List.take_zero, List.nil_append] at hfront
    obtain ⟨ok, reader', scratch2, hstitch, hok, hdone⟩ :=
      stitch_spec (show trailerLength tag + 1 ≤ scratch1.length by omega) hshort.le
        (length_skip_lt h.left d.peeked) (show trailerLength tag + 1 - d.ip.length ≤ trailerLength tag + 1 by omega)
    simp only [hstore, hstitch, Option.bind_eq_bind, Option.bind_some]
    cases ok with
    | false =>
      have hleft : ¬ trailerLength tag + 1 - d.ip.length ≤ (d.reader.skip d.peeked).left.length := by
        intro hle
        cases hok.mpr hle
      have hrest : d.rest = tag :: (bytes ++ d.reader.left.drop d.peeked) := by
        rw [rest, hip, List.cons_append]
      refine .truncated h.running ?_ ?_
      · rw [hrest]
        exact List.cons_ne_nil _ _
      · rw [hrest]
        apply readElement_truncated
        have hskip : (d.reader.skip d.peeked).left = d.reader.left.drop d.peeked := rfl
        rw [hskip] at hleft
        rw [List.length_append]
        omega
    | true =>
      have hle := hok.mp rfl
      obtain ⟨rfl, hsize2, htake⟩ := hdone rfl
      rw [hfront] at htake
      have hcons := htake
      rw [hip, List.cons_append, ← hip] at hcons
      refine scratch_ready h (length_skip_lt (length_skip_lt h.left _) _) (by omega) (by omega) hcons ?_ ?_
      · rw [List.length_append, List.length_take]
        omega
      · rw [htake, List.append_assoc]
        exact congrArg (d.ip ++ ·) (List.take_append_drop ..)
  · rw [if_neg hshort]
    split_ifs with hsmall
    · rw [moveTag, List.take_length]
      obtain ⟨scratch1, hstore⟩ : ∃ mem, store d.scratch 0 d.ip = some mem := exists_store (by omega)
      have hsize := length_store hstore
      have hfront := take_store hstore le_rfl
      rw [List.take_length, Nat.zero_add, List.take_zero, List.nil_append] at hfront
      simp only [hstore, Option.bind_eq_bind, Option.bind_some]
      refine scratch_ready h (length_skip_lt h.left _) (by omega) (by omega) (hfront.trans hip)
        (by omega) ?_
      rw [hfront, rest, Source.skip]
    · have hready : d.resetLimit.Ready tag bytes := by
        refine ⟨resetLimit_valid h, hip, by omega, ?_⟩
        rw [List.length_append]
        omega
      exact .ready hready rfl

theorem maybeRefill_spec (h : d.Valid) : Refilled d d.maybeRefill := by
  rw [maybeRefill]
  split_ifs with hlow
  · cases hip : d.ip with
    | cons tag bytes => exact refill_spec h.toSound hip
    | nil =>
      have hnext := nextFragment_sound h.toSound
      have hrest : d.nextFragment.rest = d.rest := by
        rw [nextFragment_rest h.left, rest, hip, List.nil_append]
      have hfetch : d.fetchFragment = { d.nextFragment with eof := d.nextFragment.ip.isEmpty } := by
        rw [fetchFragment, hip]
        rfl
      cases hfragment : d.nextFragment.ip with
      | nil =>
        have hleft : d.reader.left.drop d.peeked = [] := peek_eq_nil_iff.mp hfragment
        rw [refillTag, hfetch]
        simp only [hfragment, Option.map_some]
        apply Refilled.ended rfl
        rw [rest, hip, List.nil_append, hleft]
      | cons tag bytes =>
        have hsame : d.refillTag = d.nextFragment.refillTag := by
          have hfetch' : d.nextFragment.fetchFragment = d.nextFragment := by
            rw [fetchFragment, hfragment]
            rfl
          have hrunning : d.nextFragment.eof = false := hnext.running
          rw [refillTag, refillTag, hfetch, hfetch', hfragment]
          rw [List.isEmpty_cons, ← hrunning]
        rw [hsame]
        exact (refill_spec hnext hfragment).of_rest_eq hrest
  · have hlimit := h.limit
    have hlong : 5 ≤ d.ip.length := by omega
    cases hip : d.ip with
    | nil =>
      rw [hip, List.length_nil] at hlong
      omega
    | cons tag bytes =>
      rw [hip, List.length_cons] at hlong
      have htrailer := trailerLength_le tag
      apply Refilled.ready ⟨h, hip, by omega, ?_⟩ rfl
      rw [List.length_append]
      omega

end SnappyDecompressor

section ReadUncompressedLength

variable {reader : Source} {i : ℕ} {result : UInt32}

theorem leftShiftOverflows_eq_false (val : UInt8) (hi : i < 4) :
    leftShiftOverflows val (7 * i) = false := by
  interval_cases i <;> simp [leftShiftOverflows]

theorem leftShiftOverflows_last (c : UInt8) :
    leftShiftOverflows (c &&& 0x7f) 28 = true ↔ ¬ c.toNat % 128 < 16 := by
  have hval : (c &&& 0x7f).toNat = c.toNat % 128 := Nat.and_two_pow_sub_one_eq_mod c.toNat 7
  have hmask : ∀ b : Fin 128, (UInt8.ofNat b &&& 0xf0 ≠ 0) ↔ ¬ b.val < 16 := by decide
  have hsame : UInt8.ofNat (c.toNat % 128) = c &&& 0x7f := by
    rw [← hval, UInt8.ofNat_toNat]
  rw [← hmask ⟨c.toNat % 128, Nat.mod_lt _ (by decide)⟩, hsame, leftShiftOverflows, decide_eq_true_iff]
  rfl

theorem peek_cons {b : UInt8} {ptr : List UInt8} (h : reader.left = b :: ptr) :
    ∃ more, reader.peek = b :: more := by
  have hpos := reader.flat_pos reader.left.length (by rw [h]; exact Nat.succ_pos _)
  obtain ⟨n, hn⟩ := Nat.exists_eq_succ_of_ne_zero hpos.ne'
  rw [Source.peek, hn, h]
  exact ⟨_, rfl⟩

/-- Both parsers of the length go group by group, and refuse the same last group. -/
theorem readUncompressedLengthFrom_eq (reader : Source) (result : UInt32) (hi : i ≤ 4) :
    (readUncompressedLengthFrom reader result (7 * i)).map (fun r => (r.1, r.2.left)) =
      parseGroups i result reader.left := by
  induction hleft : reader.left generalizing i reader result with
  | nil =>
    have hpeek : reader.peek = [] := peek_eq_nil_iff.mpr hleft
    rw [readUncompressedLengthFrom, dif_neg (by omega), hpeek]
    rfl
  | cons b ptr ih =>
    obtain ⟨more, hpeek⟩ := peek_cons hleft
    have hskip : (reader.skip 1).left = ptr := by rw [Source.skip, hleft, List.drop_one, List.tail_cons]
    have hval : (b &&& 0x7f).toUInt32 = b.toUInt32 &&& 127 := UInt8.toUInt32_and b 0x7f
    have hlast : (b < 128) = (b.toNat < 128) := rfl
    rw [readUncompressedLengthFrom, dif_neg (by omega), hpeek, parseGroups]
    simp only [hval, hlast]
    obtain hless | rfl := Nat.lt_or_eq_of_le hi
    · rw [leftShiftOverflows_eq_false _ hless]
      simp only [Bool.false_eq_true, if_false, if_neg hless.ne]
      split_ifs
      · rw [Option.map_some, hskip]
      · exact ih (reader.skip 1) _ hless hskip
    · have hfour : 7 * 4 = 28 := rfl
      simp only [hfour, leftShiftOverflows_last, if_true]
      by_cases hfits : b.toNat % 128 < 16
      · rw [if_neg (not_not.mpr hfits)]
        by_cases hbyte : b.toNat < 128
        · rw [if_pos hbyte, if_pos (by omega), Option.map_some, hskip]
        · rw [if_neg hbyte, if_neg (by omega), readUncompressedLengthFrom, dif_pos (by decide)]
          rfl
      · rw [if_pos hfits, if_neg (by omega)]
        rfl

theorem readUncompressedLength_eq (reader : Source) :
    (readUncompressedLength reader).map (fun r => (r.1, r.2.left)) = parse32WithLimit reader.left :=
  readUncompressedLengthFrom_eq reader 0 (Nat.zero_le 4)

end ReadUncompressedLength
end EnvironmentCheck.SnappyCodec
