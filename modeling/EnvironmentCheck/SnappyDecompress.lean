import EnvironmentCheck.SnappyBranchless

namespace EnvironmentCheck.SnappyCodec

open BackReference Buffer LittleEndian

/-- The local variables of `DecompressAllTags`, where `ip` is the buffer of the decompressor. -/
structure Decompression (σ : Type) where
  decompressor : SnappyDecompressor
  writer : σ
  op : ℕ
  preload : ℕ

variable {σ : Type}

/-- `ip += n`, up to the limit. -/
def SnappyDecompressor.advance (d : SnappyDecompressor) (n : ℕ) : Option SnappyDecompressor :=
  if n ≤ d.ip.length then some { d with ip := d.ip.drop n } else none

def SnappyDecompressor.loadIp (d : SnappyDecompressor) : Option ℕ := load32 (d.ip ++ d.beyond) 0

/-- The whole of `MAYBE_REFILL`, and whether the loop goes on. -/
def Decompression.maybeRefill (x : Decompression σ) : Option (Bool × Decompression σ) := do
  let (ok, decompressor) ← x.decompressor.maybeRefill
  if ok then return (true, { x with decompressor, preload := (← decompressor.ip[0]?).toNat })
  else return (false, { x with decompressor })

def runBranchless (abi : Abi) (w : Writer σ) (x : Decompression σ) : Option (Bool × Decompression σ) :=
  match w.getBase x.writer with
  | none => some (true, x)
  | some (base, limit) => do
    let (writer, ip, op) ←
      decompressBranchless abi w x.writer x.decompressor.ip (x.op - base) base limit
    Decompression.maybeRefill
      { x with decompressor := { x.decompressor with ip }, writer, op := address base op }

/-- The length of a literal, which is in the trailer where the tag has no room for it. -/
def readLiteralLength (d : SnappyDecompressor) (literalLength : ℕ) : Option (ℕ × SnappyDecompressor) :=
  if literalLength ≥ 61 then do
    let literalLengthLength := literalLength - 60
    let v ← d.loadIp
    return ((extractLowBytes v literalLengthLength + 1) % 2 ^ 32, ← d.advance literalLengthLength)
  else some (literalLength, d)

/-- A literal goes on in the next fragment where it is longer than this one. -/
def appendFragments (w : Writer σ) : ℕ → Decompression σ → ℕ → Option (Bool × Decompression σ)
  | fuel, x, literalLength =>
    let avail := x.decompressor.ip.length
    if avail < literalLength then
      match fuel with
      | 0 => none
      | fuel + 1 => do
        let (ok, writer, op) ← w.append x.writer x.op x.decompressor.ip
        if ok then
          let decompressor := x.decompressor.nextFragment
          if decompressor.ip.length = 0 then return (false, { x with decompressor, writer, op })
          else
            let decompressor := decompressor.resetLimit
            appendFragments w fuel { x with decompressor, writer, op } (literalLength - avail)
        else return (false, { x with writer, op })
    else do
      let (ok, writer, op) ← w.append x.writer x.op (x.decompressor.ip.take literalLength)
      if ok then return (true, { x with decompressor := ← x.decompressor.advance literalLength, writer, op })
      else return (false, { x with writer, op })

def decompressLiteral (w : Writer σ) (c : UInt8) (x : Decompression σ) :
    Option (Bool × Decompression σ) := do
  let literalLength := c.toNat >>> 2 + 1
  let (fast, writer, op) ← w.tryFastAppend x.writer x.op x.decompressor.ip literalLength
  if fast then
    let decompressor ← x.decompressor.advance literalLength
    return (true, ⟨decompressor, writer, op, (← decompressor.ip[0]?).toNat⟩)
  else
    let (literalLength, decompressor) ← readLiteralLength x.decompressor literalLength
    let (more, x) ← appendFragments w (decompressor.reader.available + 1)
      { x with decompressor, writer, op } literalLength
    if more then x.maybeRefill else return (false, x)

/-- A copy whose offset has four bytes. -/
def decompressFarCopy (w : Writer σ) (c : UInt8) (x : Decompression σ) :
    Option (Bool × Decompression σ) := do
  let copyOffset ← x.decompressor.loadIp
  let length := c.toNat >>> 2 + 1
  let decompressor ← x.decompressor.advance 4
  let (ok, writer, op) ← w.appendFromSelf x.writer x.op copyOffset length
  let x := { x with decompressor, writer, op }
  if ok then x.maybeRefill else return (false, x)

def decompressCopy (w : Writer σ) (c : UInt8) (x : Decompression σ) :
    Option (Bool × Decompression σ) := do
  let entry := kLengthMinusOffset c
  let preload ← x.decompressor.loadIp
  let trailer := extractLowBytes preload (c.toNat &&& 3)
  let length : ℕ := (entry % 2 ^ 8).toNat
  let copyOffset := ((trailer - entry + length) % 2 ^ 32).toNat
  let (ok, writer, op) ← w.appendFromSelf x.writer x.op copyOffset length
  if ok then
    let decompressor ← x.decompressor.advance (c.toNat &&& 3)
    let x : Decompression σ := ⟨decompressor, writer, op, preload >>> ((c.toNat &&& 3) * 8)⟩
    if decompressor.minMaxTagLen < decompressor.ip.length then return (true, x) else x.maybeRefill
  else return (false, { x with writer, op, preload })

def decompressTag (w : Writer σ) (x : Decompression σ) : Option (Bool × Decompression σ) := do
  let c := UInt8.ofNat x.preload
  let x := { x with decompressor := ← x.decompressor.advance 1 }
  if c.toNat &&& 3 = LITERAL then decompressLiteral w c x
  else if c.toNat &&& 3 = COPY_4_BYTE_OFFSET then decompressFarCopy w c x
  else decompressCopy w c x

/-- The loop over the tags; a turn takes one byte of the input at least. -/
def decompressLoop (abi : Abi) (w : Writer σ) : ℕ → Decompression σ → Option (Decompression σ)
  | 0, _ => none
  | fuel + 1, x => do
    let (more, x) ← runBranchless abi w x
    if more then
      let (more, x) ← decompressTag w x
      if more then decompressLoop abi w fuel x else return x
    else return x

def decompressAllTags (abi : Abi) (w : Writer σ) (d : SnappyDecompressor) (s : σ) :
    Option (SnappyDecompressor × σ) := do
  let (more, x) ← Decompression.maybeRefill ⟨d.resetLimit, s, w.getOutputPtr s, 0⟩
  if more then
    let x ← decompressLoop abi w (d.reader.available + 1) x
    return (x.decompressor, w.setOutputPtr x.writer x.op)
  else return (x.decompressor, w.setOutputPtr x.writer x.op)

def internalUncompressAllTags (abi : Abi) (w : Writer σ) (d : SnappyDecompressor) (s : σ)
    (uncompressedLen : ℕ) : Option (Bool × σ) := do
  let (d, s) ← decompressAllTags abi w d (w.setExpectedLength s uncompressedLen)
  let s := w.flush s
  return (d.eof && w.checkLength s, s)

/-- A new decompressor, with what happens to be in its scratch space. -/
def snappyDecompressor (reader : Source) (scratch : Vector UInt8 kMaximumTagLength) : SnappyDecompressor :=
  ⟨reader, [], [], 0, 0, false, scratch.toList⟩

def internalUncompress (abi : Abi) (scratch : Vector UInt8 kMaximumTagLength) (w : Writer σ)
    (reader : Source) (s : σ) : Option (Bool × σ) :=
  match readUncompressedLength reader with
  | none => some (false, s)
  | some (uncompressedLen, reader) =>
    internalUncompressAllTags abi w (snappyDecompressor reader scratch) s uncompressedLen.toNat

variable {abi : Abi} {w : Writer σ} {n bound len : ℕ} {c : Contract w n} {x : Decompression σ}
  {d : SnappyDecompressor} {stream stream' out out' bytes later : List UInt8} {tag : UInt8}

theorem extractLowBytes_eq {v k : ℕ} (hv : v < 2 ^ 32) (hk : k ≤ 4) : extractLowBytes v k = v % 256 ^ k := by
  have hpow : 256 ^ k = 2 ^ (8 * k) := (pow_mul 2 8 k).symm
  have hmask : (0xffffffff : ℕ) = 2 ^ 32 - 1 := rfl
  rw [hpow, extractLowBytes, hmask]
  apply Nat.eq_of_testBit_eq
  intro j
  simp only [Nat.testBit_and, Nat.testBit_xor, Nat.testBit_shiftLeft, Nat.testBit_two_pow_sub_one,
    Nat.testBit_mod_two_pow]
  by_cases hj : j < 32
  · by_cases hlow : j < 8 * k
    · simp [hlow, show j < 64 by omega]
    · simp [hlow, show j < 64 by omega, show 8 * k ≤ j by omega, show j - 8 * k < 32 by omega]
  · have hbit : v.testBit j = false :=
      Nat.testBit_lt_two_pow (hv.trans_le (Nat.pow_le_pow_right (by decide) (by omega)))
    rw [hbit, Bool.false_and, Bool.and_false]

/-- What becomes of a stream: the loop goes on with a tag that is ready, or the stream has ended, or it
does not decode to what the writer expects. -/
inductive Outcome (c : Contract w n) (bound : ℕ) (stream out : List UInt8) :
    Option (Bool × Decompression σ) → Prop
  | goesOn {x : Decompression σ} {tag : UInt8} {bytes out' : List UInt8} :
    c.Holds x.writer x.op out' → x.decompressor.Ready tag bytes → UInt8.ofNat x.preload = tag →
    (∀ final, Decodes stream out final ↔ Decodes x.decompressor.rest out' final) →
    x.decompressor.rest.length < bound → Outcome c bound stream out (some (true, x))
  | ended {x : Decompression σ} {out' : List UInt8} : x.decompressor.eof = true →
    c.Holds x.writer x.op out' → (∀ final, Decodes stream out final ↔ final = out') →
    Outcome c bound stream out (some (false, x))
  | failed {x : Decompression σ} : x.decompressor.eof = false → c.Kept x.writer x.op →
    (∀ final, Decodes stream out final → final.length ≠ n) → Outcome c bound stream out (some (false, x))

theorem Outcome.of_iff {r : Option (Bool × Decompression σ)} (h : Outcome c bound stream' out' r)
    (hiff : ∀ final, Decodes stream out final ↔ Decodes stream' out' final) :
    Outcome c bound stream out r := by
  cases h with
  | goesOn hholds hready hpreload hrest hlt =>
    exact .goesOn hholds hready hpreload (fun final => (hiff final).trans (hrest final)) hlt
  | ended heof hholds hfinal => exact .ended heof hholds fun final => (hiff final).trans (hfinal final)
  | failed heof hkept hnone => exact .failed heof hkept fun final hdecodes => hnone final ((hiff final).mp hdecodes)

theorem maybeRefill_outcome (hholds : c.Holds x.writer x.op out) (h : x.decompressor.Valid)
    (hlt : x.decompressor.rest.length < bound) :
    Outcome c bound x.decompressor.rest out x.maybeRefill := by
  have hrefill := SnappyDecompressor.maybeRefill_spec h
  rw [Decompression.maybeRefill]
  generalize x.decompressor.maybeRefill = r at hrefill ⊢
  cases hrefill with
  | @ready d' tag bytes hready hrest =>
    simp only [Option.bind_eq_bind, Option.bind_some, if_true, hready.ip_eq, List.getElem?_cons_zero]
    refine .goesOn hholds hready (UInt8.ofNat_toNat ..) ?_ ?_
    · intro final
      rw [hrest]
    · rwa [hrest]
  | @ended d' heof hnil =>
    refine .ended heof hholds ?_
    intro final
    rw [hnil]
    exact decodes_nil_iff
  | @truncated d' heof hne hread =>
    refine .failed heof (c.kept hholds) ?_
    intro final hdecodes
    exact absurd hdecodes (not_decodes_of_unread hne hread)

theorem SnappyDecompressor.Valid.shrink (h : d.Valid) {ip : List UInt8} (hip : ip.length ≤ d.ip.length) :
    SnappyDecompressor.Valid { d with ip } := by
  refine ⟨⟨h.scratch, h.left, hip.trans_lt h.buffered, h.running⟩, ?_⟩
  have hlimit := h.limit
  dsimp only
  omega

theorem runBranchless_outcome (abi : Abi) (hholds : c.Holds x.writer x.op out)
    (h : x.decompressor.Ready tag bytes) (hpreload : UInt8.ofNat x.preload = tag)
    (hlt : x.decompressor.rest.length < bound) :
    Outcome c bound x.decompressor.rest out (runBranchless abi w x) := by
  rw [runBranchless]
  cases hbase : w.getBase x.writer with
  | none => exact .goesOn hholds h hpreload (fun final => Iff.rfl) hlt
  | some r =>
    obtain ⟨base, limit⟩ := r
    have haddress : address base (x.op - base : ℤ) = x.op := by
      rw [address]
      omega
    obtain ⟨s', ip', op', out', hrun, hholds', hsuffix, hfollows⟩ :=
      decompressBranchless_spec abi x.decompressor.ip c hbase
        (show 0 ≤ (base : ℤ) + (x.op - base) by omega) (by rwa [haddress])
    simp only [hrun, Option.bind_eq_bind, Option.bind_some]
    have hshorter := hsuffix.length_le
    have hvalid := h.toValid.shrink hshorter
    apply (maybeRefill_outcome hholds' hvalid ?_).of_iff
    · intro final
      exact hfollows _ final
    · rw [SnappyDecompressor.rest, List.length_append] at hlt ⊢
      dsimp only
      omega

/-- The rest of a literal, in this fragment and in those after it. -/
inductive Appended (c : Contract w n) (rest out : List UInt8) (len : ℕ) :
    Option (Bool × Decompression σ) → Prop
  | done {x : Decompression σ} : len ≤ rest.length → c.Holds x.writer x.op (out ++ rest.take len) →
    x.decompressor.Valid → x.decompressor.rest = rest.drop len → Appended c rest out len (some (true, x))
  | failed {x : Decompression σ} : x.decompressor.eof = false → c.Kept x.writer x.op →
    (len ≤ rest.length → n < out.length + len) → Appended c rest out len (some (false, x))

theorem Appended.across {ip later : List UInt8} {r : Option (Bool × Decompression σ)}
    (h : Appended c later (out ++ ip) (len - ip.length) r) (hle : ip.length ≤ len) :
    Appended c (ip ++ later) out len r := by
  have hsum : ip.length + (len - ip.length) = len := Nat.add_sub_cancel' hle
  cases h with
  | done hlen hholds hvalid hrest =>
    refine .done ?_ ?_ hvalid ?_
    · rw [List.length_append]
      omega
    · rwa [List.take_append, List.take_of_length_le hle, ← List.append_assoc]
    · rw [hrest, List.drop_append, List.drop_eq_nil_of_le hle, List.nil_append]
  | failed heof hkept hlong =>
    refine .failed heof hkept ?_
    intro hlen
    rw [List.length_append] at hlen hlong
    have hlong' := hlong (by omega)
    omega

theorem appendFragments_spec {fuel : ℕ} (hholds : c.Holds x.writer x.op out) (h : x.decompressor.Valid)
    (hlen : len < 2 ^ 32)
    (hfuel : (x.decompressor.reader.left.drop x.decompressor.peeked).length < fuel) :
    Appended c x.decompressor.rest out len (appendFragments w fuel x len) := by
  induction fuel generalizing x out len with
  | zero => omega
  | succ fuel ih =>
    rw [appendFragments]
    by_cases hmore : x.decompressor.ip.length < len
    · obtain ⟨ok, s', op', happend, htrue, hfalse⟩ := c.append x.decompressor.ip hholds h.buffered
      have hrest : x.decompressor.nextFragment.rest =
          x.decompressor.reader.left.drop x.decompressor.peeked :=
        SnappyDecompressor.nextFragment_rest h.left
      simp only [if_pos hmore, happend, Option.bind_eq_bind, Option.bind_some]
      cases ok with
      | false =>
        obtain ⟨hkept, hlong⟩ := hfalse rfl
        refine .failed h.running hkept ?_
        omega
      | true =>
        simp only [if_true]
        have hholds' := htrue rfl
        by_cases hempty : x.decompressor.nextFragment.ip.length = 0
        · rw [if_pos hempty]
          refine .failed h.running (c.kept hholds') ?_
          intro hle
          have hnil : x.decompressor.reader.left.drop x.decompressor.peeked = [] :=
            peek_eq_nil_iff.mp (List.length_eq_zero_iff.mp hempty)
          rw [SnappyDecompressor.rest, hnil, List.append_nil] at hle
          omega
        · rw [if_neg hempty]
          have hnext := SnappyDecompressor.nextFragment_sound h.toSound
          have hlength := congrArg List.length hrest
          rw [SnappyDecompressor.rest, List.length_append] at hlength
          have happended := ih (x := { x with
            decompressor := x.decompressor.nextFragment.resetLimit, writer := s', op := op' })
            hholds' (SnappyDecompressor.resetLimit_valid hnext)
            (show len - x.decompressor.ip.length < 2 ^ 32 by omega)
            (by simp only [SnappyDecompressor.resetLimit]; omega)
          have hsame : x.decompressor.nextFragment.resetLimit.rest =
              x.decompressor.reader.left.drop x.decompressor.peeked := hrest
          rw [hsame] at happended
          exact happended.across hmore.le
    · have hle : len ≤ x.decompressor.ip.length := Nat.le_of_not_lt hmore
      have htake : (x.decompressor.ip.take len).length = len := by
        rw [List.length_take]
        omega
      have hfront : x.decompressor.rest.take len = x.decompressor.ip.take len :=
        List.take_append_of_le_length hle
      obtain ⟨ok, s', op', happend, htrue, hfalse⟩ :=
        c.append (x.decompressor.ip.take len) hholds (by omega)
      simp only [if_neg hmore, happend, Option.bind_eq_bind, Option.bind_some]
      cases ok with
      | false =>
        obtain ⟨hkept, hlong⟩ := hfalse rfl
        refine .failed h.running hkept ?_
        omega
      | true =>
        simp only [if_true, SnappyDecompressor.advance, if_pos hle, Option.bind_some]
        refine .done ?_ ?_ (h.shrink ?_) ?_
        · rw [SnappyDecompressor.rest, List.length_append]
          omega
        · rw [hfront]
          exact htrue rfl
        · rw [List.length_drop]
          omega
        · exact (List.drop_append_of_le_length hle).symm

/-- What is true after the tag has been taken from a buffer that was ready. -/
structure Tagged (d : SnappyDecompressor) (tag : UInt8) : Prop extends d.Valid where
  trailer : trailerLength tag ≤ d.ip.length
  readable : 4 ≤ (d.ip ++ d.beyond).length

theorem appended_outcome {r : Option (Bool × Decompression σ)} (happended : Appended c later out len r)
    (hread : readElement stream = readLiteral len later) (hstream : stream ≠ [])
    (hbound : later.length < bound) :
    Outcome c bound stream out
      (r.bind fun y => if y.1 = true then y.2.maybeRefill else some (false, y.2)) := by
  cases happended with
  | done hlen hholds hvalid hrest =>
    have hliteral : readElement stream = some (.literal (later.take len), later.drop len) :=
      hread.trans (if_pos hlen)
    simp only [Option.bind_some, if_true]
    apply (maybeRefill_outcome hholds hvalid ?_).of_iff
    · intro final
      rw [hrest]
      exact decodes_iff hliteral rfl
    · rw [hrest, List.length_drop]
      omega
  | failed heof hkept hlong =>
    refine .failed heof hkept ?_
    intro final hdecodes
    by_cases hlen : len ≤ later.length
    · have hliteral : readElement stream = some (.literal (later.take len), later.drop len) :=
        hread.trans (if_pos hlen)
      have hlonger := ((decodes_iff hliteral rfl).mp hdecodes).length_le
      rw [List.length_append, List.length_take, Nat.min_eq_left hlen] at hlonger
      have hexcess := hlong hlen
      omega
    · have hnone : readElement stream = none := hread.trans (if_neg hlen)
      exact absurd hdecodes (not_decodes_of_unread hstream hnone)

theorem loadIp_eq (h : 4 ≤ (d.ip ++ d.beyond).length) :
    d.loadIp = some (value ((d.ip ++ d.beyond).take 4)) := load_next h

theorem value_word_lt (xs : List UInt8) : value (xs.take 4) < 2 ^ 32 := by
  have hvalue := value_lt (xs.take 4)
  have hlength : (xs.take 4).length ≤ 4 := by
    rw [List.length_take]
    exact Nat.min_le_left _ _
  exact hvalue.trans_le (Nat.pow_le_pow_right (show 0 < 256 by decide) hlength)

/-- The trailer, where more than its bytes have been loaded. -/
theorem extractLowBytes_trailer (h : Tagged d tag) :
    extractLowBytes (value ((d.ip ++ d.beyond).take 4)) (trailerLength tag) =
      value (d.ip.take (trailerLength tag)) := by
  have hlarge := trailerLength_le tag
  rw [extractLowBytes_eq (value_word_lt _) hlarge, ← value_take, List.take_take,
    Nat.min_eq_left hlarge, List.take_append_of_le_length h.trailer]

theorem advance_eq {k : ℕ} (h : k ≤ d.ip.length) : d.advance k = some { d with ip := d.ip.drop k } :=
  if_pos h

theorem rest_drop {k : ℕ} (h : k ≤ d.ip.length) :
    SnappyDecompressor.rest { d with ip := d.ip.drop k } = d.rest.drop k :=
  (List.drop_append_of_le_length h).symm

/-- Five bytes are enough for any tag. -/
theorem exists_ready (h : d.Valid) (hlong : 5 ≤ d.ip.length) : ∃ tag bytes, d.Ready tag bytes := by
  cases hip : d.ip with
  | nil =>
    rw [hip, List.length_nil] at hlong
    omega
  | cons tag bytes =>
    rw [hip, List.length_cons] at hlong
    have htrailer := trailerLength_le tag
    refine ⟨tag, bytes, h, hip, by omega, ?_⟩
    rw [List.length_append]
    omega

theorem decompressLiteral_outcome (hholds : c.Holds x.writer x.op out)
    (h : Tagged x.decompressor tag) (htype : tag.toNat % 4 = 0)
    (hbound : x.decompressor.rest.length < bound) :
    Outcome c bound (tag :: x.decompressor.rest) out (decompressLiteral w tag x) := by
  have hlt := tag.toNat_lt
  have hhigh : tag.toNat >>> 2 = tag.toNat / 4 := Nat.shiftRight_eq_div_pow _ 2
  have hlength : elementLength tag = tag.toNat / 4 + 1 := by rw [elementLength, if_neg (by omega)]
  obtain ⟨fast, s', op', hfast, htrue, hfalse⟩ :=
    c.tryFastAppend x.decompressor.ip (tag.toNat / 4 + 1) hholds
  rw [decompressLiteral, hhigh]
  simp only [hfast, Option.bind_eq_bind, Option.bind_some]
  cases fast with
  | true =>
    obtain ⟨hshort, hroom, hholds'⟩ := htrue rfl
    have hle : tag.toNat / 4 + 1 ≤ x.decompressor.ip.length := by omega
    have hvalid : SnappyDecompressor.Valid
        { x.decompressor with ip := x.decompressor.ip.drop (tag.toNat / 4 + 1) } := by
      apply h.toValid.shrink
      rw [List.length_drop]
      omega
    obtain ⟨tag', bytes', hready⟩ := exists_ready hvalid (by rw [List.length_drop]; omega)
    have hip' : x.decompressor.ip.drop (tag.toNat / 4 + 1) = tag' :: bytes' := hready.ip_eq
    have hread : readElement (tag :: x.decompressor.rest) = some (.literal
        (x.decompressor.rest.take (tag.toNat / 4 + 1)), x.decompressor.rest.drop (tag.toNat / 4 + 1)) := by
      rw [readElement_literal htype (by omega), hlength]
      apply if_pos
      rw [SnappyDecompressor.rest, List.length_append]
      omega
    have hfront : x.decompressor.rest.take (tag.toNat / 4 + 1) =
        x.decompressor.ip.take (tag.toNat / 4 + 1) := List.take_append_of_le_length hle
    simp only [if_true, advance_eq hle, Option.bind_some, hip', List.getElem?_cons_zero]
    rw [hip'] at hready
    refine .goesOn hholds' hready (UInt8.ofNat_toNat ..) ?_ ?_
    · intro final
      rw [← hip', rest_drop hle, ← hfront]
      exact decodes_iff hread rfl
    · rw [← hip', rest_drop hle, List.length_drop]
      omega
  | false =>
    obtain ⟨rfl, rfl⟩ := hfalse rfl
    by_cases hshort : tag.toNat / 4 < 60
    · have hread : readElement (tag :: x.decompressor.rest) =
          readLiteral (tag.toNat / 4 + 1) x.decompressor.rest := by
        rw [readElement_literal htype hshort, hlength]
      simp only [Bool.false_eq_true, if_false, readLiteralLength]
      rw [if_neg (by omega)]
      apply appended_outcome (appendFragments_spec hholds h.toValid (by omega) ?_) hread
        (List.cons_ne_nil _ _) hbound
      rw [List.length_drop, Source.available]
      dsimp only
      omega
    · have htrailer : tag.toNat / 4 + 1 - 60 = trailerLength tag := by
        simp only [trailerLength, htype]
        omega
      have htake : x.decompressor.rest.take (trailerLength tag) =
          x.decompressor.ip.take (trailerLength tag) := List.take_append_of_le_length h.trailer
      have hread : readElement (tag :: x.decompressor.rest) =
          readLiteral ((value (x.decompressor.ip.take (trailerLength tag)) + 1) % 2 ^ 32)
            (x.decompressor.rest.drop (trailerLength tag)) := by
        rw [readElement_longLiteral htype hshort, htake]
        rw [SnappyDecompressor.rest, List.length_append]
        exact h.trailer.trans (Nat.le_add_right _ _)
      have hvalid : SnappyDecompressor.Valid
          { x.decompressor with ip := x.decompressor.ip.drop (trailerLength tag) } := by
        apply h.toValid.shrink
        rw [List.length_drop]
        omega
      have hread' : readLiteralLength x.decompressor (tag.toNat / 4 + 1) =
          some ((value (x.decompressor.ip.take (trailerLength tag)) + 1) % 2 ^ 32,
            { x.decompressor with ip := x.decompressor.ip.drop (trailerLength tag) }) := by
        simp only [readLiteralLength, if_pos (show tag.toNat / 4 + 1 ≥ 61 by omega), htrailer,
          loadIp_eq h.readable, advance_eq h.trailer, extractLowBytes_trailer h, Option.bind_eq_bind,
          Option.bind_some]
        rfl
      simp only [Bool.false_eq_true, if_false, hread', Option.bind_some]
      rw [← rest_drop h.trailer] at hread
      refine appended_outcome (appendFragments_spec hholds hvalid (Nat.mod_lt _ (by decide)) ?_) hread
        (List.cons_ne_nil _ _) ?_
      · rw [List.length_drop, Source.available]
        dsimp only
        omega
      · dsimp only
        rw [rest_drop h.trailer, List.length_drop]
        omega

/-- A copy that the writer has made or refused. -/
theorem copied_outcome {y : Decompression σ} {offset : ℕ} {ok : Bool} {r : Option (Bool × Decompression σ)}
    (hread : readElement stream = some (.copy offset len, later)) (heof : y.decompressor.eof = false)
    (hfalse : ok = false → c.Kept y.writer y.op ∧ (0 < offset → offset ≤ out.length → n < out.length + len))
    (htrue : ok = true → 0 < offset ∧ offset ≤ out.length ∧ Outcome c bound later (extend offset len out) r) :
    Outcome c bound stream out (if ok = true then r else some (false, y)) := by
  cases ok with
  | true =>
    obtain ⟨hpos, hback, houtcome⟩ := htrue rfl
    apply houtcome.of_iff
    intro final
    exact decodes_iff hread (if_pos ⟨hpos, hback⟩)
  | false =>
    obtain ⟨hkept, hlong⟩ := hfalse rfl
    refine .failed heof hkept ?_
    intro final hdecodes
    by_cases hback : 0 < offset ∧ offset ≤ out.length
    · have hlonger := ((decodes_iff hread (if_pos hback)).mp hdecodes).length_le
      rw [length_extend hback.1 hback.2] at hlonger
      have hexcess := hlong hback.1 hback.2
      omega
    · exact absurd hdecodes (not_decodes_of_refused hread (if_neg hback))

theorem decompressFarCopy_outcome (hholds : c.Holds x.writer x.op out) (h : Tagged x.decompressor tag)
    (htype : tag.toNat % 4 = 3) (hbound : x.decompressor.rest.length < bound) :
    Outcome c bound (tag :: x.decompressor.rest) out (decompressFarCopy w tag x) := by
  have hhigh : tag.toNat >>> 2 = tag.toNat / 4 := Nat.shiftRight_eq_div_pow _ 2
  have hlength : elementLength tag = tag.toNat / 4 + 1 := by rw [elementLength, if_neg (by omega)]
  have htrailer : trailerLength tag = 4 := by simp only [trailerLength, htype]
  have hfour : 4 ≤ x.decompressor.ip.length := htrailer ▸ h.trailer
  have hword : (x.decompressor.ip ++ x.decompressor.beyond).take 4 = x.decompressor.ip.take 4 :=
    List.take_append_of_le_length hfour
  have hfront : x.decompressor.rest.take 4 = x.decompressor.ip.take 4 := List.take_append_of_le_length hfour
  have hread : readElement (tag :: x.decompressor.rest) = some (.copy (value (x.decompressor.ip.take 4))
      (tag.toNat / 4 + 1), x.decompressor.rest.drop 4) := by
    rw [readElement_copy (by omega), copyOffset, tagOffset, if_neg (by omega), htrailer, hfront, hlength,
      Nat.mul_zero, Nat.zero_add]
    rw [htrailer, SnappyDecompressor.rest, List.length_append]
    omega
  have hoffset := value_word_lt x.decompressor.ip
  have hlt := tag.toNat_lt
  obtain ⟨ok, s', op', hcopy, htrue, hfalse⟩ := c.appendFromSelf (value (x.decompressor.ip.take 4))
    (tag.toNat / 4 + 1) hholds (Nat.succ_pos _) (by omega) hoffset
  have hvalid : SnappyDecompressor.Valid { x.decompressor with ip := x.decompressor.ip.drop 4 } := by
    apply h.toValid.shrink
    rw [List.length_drop]
    omega
  simp only [decompressFarCopy, loadIp_eq h.readable, hword, hhigh, advance_eq hfour, hcopy,
    Option.bind_eq_bind, Option.bind_some]
  refine copied_outcome hread ?_ hfalse ?_
  · exact h.running
  intro hok
  obtain ⟨hpos, hback, hholds'⟩ := htrue hok
  refine ⟨hpos, hback, ?_⟩
  have hrest : SnappyDecompressor.rest { x.decompressor with ip := x.decompressor.ip.drop 4 } =
      x.decompressor.rest.drop 4 := rest_drop hfour
  rw [← hrest]
  refine maybeRefill_outcome (x := ⟨_, s', op', x.preload⟩) hholds' hvalid ?_
  dsimp only
  rw [hrest, List.length_drop]
  omega

/-- What has been loaded for the trailer holds the next tag, too. -/
theorem preloaded_eq {ip beyond : List UInt8} {k : ℕ} (h : ip.drop k = tag :: bytes) (hk : k < 4) :
    UInt8.ofNat (value ((ip ++ beyond).take 4) >>> (k * 8)) = tag := by
  have hle : k ≤ ip.length := by
    by_contra hlt
    rw [List.drop_eq_nil_of_le (by omega)] at h
    cases h
  have hdrop : ((ip ++ beyond).take 4).drop k = tag :: (bytes ++ beyond).take (3 - k) := by
    rw [List.drop_take, List.drop_append_of_le_length hle, h, List.cons_append,
      show 4 - k = 3 - k + 1 by omega, List.take_succ_cons]
  have hpow : 2 ^ (k * 8) = 256 ^ k := by rw [mul_comm, pow_mul]; rfl
  rw [Nat.shiftRight_eq_div_pow, hpow, ← value_drop, hdrop, value_cons]
  apply UInt8.toNat_inj.mp
  have hlt := tag.toNat_lt
  rw [UInt8.toNat_ofNat']
  omega

theorem decompressCopy_outcome (hholds : c.Holds x.writer x.op out) (h : Tagged x.decompressor tag)
    (htype : tag.toNat % 4 = 1 ∨ tag.toNat % 4 = 2) (hbound : x.decompressor.rest.length < bound) :
    Outcome c bound (tag :: x.decompressor.rest) out (decompressCopy w tag x) := by
  have hlow : tag.toNat &&& 3 = trailerLength tag := by
    have hmod : tag.toNat &&& 3 = tag.toNat % 4 := Nat.and_two_pow_sub_one_eq_mod _ 2
    rw [hmod]
    obtain htype | htype := htype <;> simp only [trailerLength, htype]
  have hlength := elementLength_pos tag
  have hmax := elementLength_le tag
  have hentry := lengthMinusOffset_copy htype
  have hlen : ((elementLength tag - 256 * tagOffset tag : ℤ) % 2 ^ 8).toNat = elementLength tag := by
    omega
  have hsmall := copyOffset_lt tag x.decompressor.ip
  have hoffset : ((value (x.decompressor.ip.take (trailerLength tag)) -
      (elementLength tag - 256 * tagOffset tag : ℤ) + elementLength tag) % 2 ^ 32).toNat =
      copyOffset tag x.decompressor.ip := by
    rw [copyOffset] at hsmall ⊢
    omega
  have hfront : x.decompressor.rest.take (trailerLength tag) = x.decompressor.ip.take (trailerLength tag) :=
    List.take_append_of_le_length h.trailer
  have hread : readElement (tag :: x.decompressor.rest) = some (.copy (copyOffset tag x.decompressor.ip)
      (elementLength tag), x.decompressor.rest.drop (trailerLength tag)) := by
    rw [readElement_copy (by omega), copyOffset, copyOffset, hfront]
    rw [SnappyDecompressor.rest, List.length_append]
    exact h.trailer.trans (Nat.le_add_right _ _)
  obtain ⟨ok, s', op', hcopy, htrue, hfalse⟩ := c.appendFromSelf (copyOffset tag x.decompressor.ip)
    (elementLength tag) hholds hlength hmax hsmall
  have hvalid : SnappyDecompressor.Valid
      { x.decompressor with ip := x.decompressor.ip.drop (trailerLength tag) } := by
    apply h.toValid.shrink
    rw [List.length_drop]
    omega
  simp only [decompressCopy, loadIp_eq h.readable, hlow, hentry, hlen, extractLowBytes_trailer h, hoffset,
    hcopy, Option.bind_eq_bind, Option.bind_some]
  refine copied_outcome hread ?_ hfalse ?_
  · exact h.running
  intro hok
  obtain ⟨hpos, hback, hholds'⟩ := htrue hok
  refine ⟨hpos, hback, ?_⟩
  rw [advance_eq h.trailer, ← rest_drop h.trailer]
  simp only [Option.bind_some]
  have hrest : SnappyDecompressor.rest
      { x.decompressor with ip := x.decompressor.ip.drop (trailerLength tag) } =
      x.decompressor.rest.drop (trailerLength tag) := rest_drop h.trailer
  split_ifs with hmore
  · have hlimit := hvalid.limit
    dsimp only at hlimit hmore
    obtain ⟨tag', bytes', hready⟩ := exists_ready hvalid (by dsimp only; omega)
    have hip' : x.decompressor.ip.drop (trailerLength tag) = tag' :: bytes' := hready.ip_eq
    refine .goesOn hholds' hready (preloaded_eq hip' ?_) (fun final => Iff.rfl) ?_
    · obtain htype | htype := htype <;> simp only [trailerLength, htype] <;> omega
    · dsimp only
      rw [hrest, List.length_drop]
      omega
  · refine maybeRefill_outcome (x := ⟨_, s', op', _⟩) hholds' hvalid ?_
    dsimp only
    rw [hrest, List.length_drop]
    omega

theorem decompressTag_outcome (hholds : c.Holds x.writer x.op out) (h : x.decompressor.Ready tag bytes)
    (hpreload : UInt8.ofNat x.preload = tag) :
    Outcome c x.decompressor.rest.length x.decompressor.rest out (decompressTag w x) := by
  have hlow : tag.toNat &&& 3 = tag.toNat % 4 := Nat.and_two_pow_sub_one_eq_mod _ 2
  have hone : 1 ≤ x.decompressor.ip.length := by
    rw [h.ip_eq, List.length_cons]
    omega
  have hdrop : x.decompressor.ip.drop 1 = bytes := by rw [h.ip_eq, List.drop_one, List.tail_cons]
  have htagged : Tagged { x.decompressor with ip := bytes } tag := by
    refine ⟨h.toValid.shrink ?_, h.trailer, h.readable⟩
    rw [h.ip_eq, List.length_cons]
    omega
  have hrest : x.decompressor.rest = tag :: SnappyDecompressor.rest { x.decompressor with ip := bytes } := by
    rw [SnappyDecompressor.rest, h.ip_eq]
    rfl
  have hlt : (SnappyDecompressor.rest { x.decompressor with ip := bytes }).length <
      x.decompressor.rest.length := by
    rw [hrest, List.length_cons]
    omega
  generalize x.decompressor.rest.length = bound at hlt ⊢
  rw [hrest]
  simp only [decompressTag, hpreload, advance_eq hone, hdrop, hlow, Option.bind_eq_bind, Option.bind_some,
    LITERAL, COPY_4_BYTE_OFFSET]
  obtain htype | htype | htype | htype := tag_types tag
  · rw [if_pos htype]
    exact decompressLiteral_outcome (x := { x with decompressor := _ }) hholds htagged htype hlt
  · rw [if_neg (by omega), if_neg (by omega)]
    exact decompressCopy_outcome (x := { x with decompressor := _ }) hholds htagged (.inl htype) hlt
  · rw [if_neg (by omega), if_neg (by omega)]
    exact decompressCopy_outcome (x := { x with decompressor := _ }) hholds htagged (.inr htype) hlt
  · rw [if_neg (by omega), if_pos htype]
    exact decompressFarCopy_outcome (x := { x with decompressor := _ }) hholds htagged htype hlt

/-- How the whole loop ends: with the one thing that the stream decodes to, or with a failure where it
does not decode to what the writer expects. -/
inductive Finished (c : Contract w n) (stream out : List UInt8) (x : Decompression σ) : Prop
  | ended {final : List UInt8} : x.decompressor.eof = true → c.Holds x.writer x.op final →
    (∀ f, Decodes stream out f ↔ f = final) → Finished c stream out x
  | failed : x.decompressor.eof = false → c.Kept x.writer x.op →
    (∀ f, Decodes stream out f → f.length ≠ n) → Finished c stream out x

theorem Finished.of_iff (h : Finished c stream' out' x)
    (hiff : ∀ final, Decodes stream out final ↔ Decodes stream' out' final) : Finished c stream out x := by
  cases h with
  | ended heof hholds hfinal => exact .ended heof hholds fun f => (hiff f).trans (hfinal f)
  | failed heof hkept hnone => exact .failed heof hkept fun f hf => hnone f ((hiff f).mp hf)

theorem decompressLoop_spec {fuel : ℕ} (abi : Abi) (hholds : c.Holds x.writer x.op out)
    (h : x.decompressor.Ready tag bytes) (hpreload : UInt8.ofNat x.preload = tag)
    (hfuel : x.decompressor.rest.length < fuel) :
    ∃ x', decompressLoop abi w fuel x = some x' ∧ Finished c x.decompressor.rest out x' := by
  induction fuel generalizing x out tag bytes with
  | zero => omega
  | succ fuel ih =>
    have hfast := runBranchless_outcome abi hholds h hpreload hfuel
    rw [decompressLoop]
    generalize runBranchless abi w x = r at hfast ⊢
    cases hfast with
    | @ended y final heof hend hfinal => exact ⟨y, rfl, .ended heof hend hfinal⟩
    | @failed y heof hkept hnone => exact ⟨y, rfl, .failed heof hkept hnone⟩
    | @goesOn y tag1 bytes1 out1 hholds1 hready1 hpreload1 hiff1 hlt1 =>
      have hturn := decompressTag_outcome hholds1 hready1 hpreload1
      simp only [Option.bind_eq_bind, Option.bind_some, if_true]
      generalize decompressTag w y = r at hturn ⊢
      cases hturn with
      | @ended z final heof hend hfinal =>
        exact ⟨z, rfl, (Finished.ended heof hend hfinal).of_iff hiff1⟩
      | @failed z heof hkept hnone =>
        exact ⟨z, rfl, (Finished.failed heof hkept hnone).of_iff hiff1⟩
      | @goesOn z tag2 bytes2 out2 hholds2 hready2 hpreload2 hiff2 hlt2 =>
        simp only [Option.bind_some, if_true]
        obtain ⟨x', hloop, hfinished⟩ := ih hholds2 hready2 hpreload2 (by omega)
        exact ⟨x', hloop, (hfinished.of_iff hiff2).of_iff hiff1⟩

theorem decompressAllTags_spec {reader : Source} {s : σ} (abi : Abi) (scratch : Vector UInt8 kMaximumTagLength)
    (hholds : c.Holds s (w.getOutputPtr s) []) (hleft : reader.left.length < 2 ^ 32) :
    ∃ x : Decompression σ, decompressAllTags abi w (snappyDecompressor reader scratch) s =
      some (x.decompressor, w.setOutputPtr x.writer x.op) ∧ Finished c reader.left [] x := by
  have hsound : (snappyDecompressor reader scratch).Sound :=
    ⟨Vector.length_toList, hleft, by simp [snappyDecompressor], rfl⟩
  have hvalid := SnappyDecompressor.resetLimit_valid hsound
  have hfirst : Outcome c reader.left.length.succ reader.left [] (Decompression.maybeRefill
      ⟨(snappyDecompressor reader scratch).resetLimit, s, w.getOutputPtr s, 0⟩) :=
    maybeRefill_outcome (x := ⟨_, s, w.getOutputPtr s, 0⟩) hholds hvalid (Nat.lt_succ_self _)
  rw [decompressAllTags]
  generalize Decompression.maybeRefill _ = r at hfirst ⊢
  cases hfirst with
  | @ended y final heof hend hfinal => exact ⟨y, rfl, .ended heof hend hfinal⟩
  | @failed y heof hkept hnone => exact ⟨y, rfl, .failed heof hkept hnone⟩
  | @goesOn y tag1 bytes1 out1 hholds1 hready1 hpreload1 hiff1 hlt1 =>
    obtain ⟨x', hloop, hfinished⟩ := decompressLoop_spec abi hholds1 hready1 hpreload1 hlt1
    have hfuel : (snappyDecompressor reader scratch).reader.available + 1 = reader.left.length.succ := rfl
    simp only [Option.bind_eq_bind, Option.bind_some, if_true, hfuel, hloop]
    exact ⟨x', rfl, hfinished.of_iff hiff1⟩

/-- What a stream stands for: as many bytes as it declares, from its elements. -/
def Uncompresses (stream out : List UInt8) : Prop :=
  ∃ body, Leb128.decode stream = some (out.length, body) ∧ stream.length ≤ body.length + 5 ∧
    out.length < 2 ^ 32 ∧ Decodes body [] out

theorem uncompresses_iff {body : List UInt8} (h : Leb128.decode stream = some (n, body))
    (hgroups : stream.length ≤ body.length + 5) (hlt : n < 2 ^ 32) :
    Uncompresses stream out ↔ out.length = n ∧ Decodes body [] out := by
  constructor
  · rintro ⟨body', hdecode, -, -, hdecodes⟩
    rw [h] at hdecode
    cases hdecode
    exact ⟨rfl, hdecodes⟩
  · rintro ⟨rfl, hdecodes⟩
    exact ⟨body, h, hgroups, hlt, hdecodes⟩

theorem Uncompresses.unique (h : Uncompresses stream out) (h' : Uncompresses stream out') : out' = out := by
  obtain ⟨body, hdecode, hgroups, hlt, hdecodes⟩ := h
  exact hdecodes.unique ((uncompresses_iff hdecode hgroups hlt).mp h').2

theorem Uncompresses.declares (h : Uncompresses stream out) : Declares stream out.length := by
  obtain ⟨body, hdecode, hgroups, hlt, -⟩ := h
  exact ⟨body, hdecode, hgroups, hlt⟩

theorem declares_unique {m : ℕ} (h : Declares stream n) (h' : Declares stream m) : m = n := by
  obtain ⟨rest, hdecode, -, -⟩ := h
  obtain ⟨rest', hdecode', -, -⟩ := h'
  rw [hdecode] at hdecode'
  cases hdecode'
  rfl

theorem readUncompressedLength_eq_some {reader reader' : Source} {v : UInt32}
    (h : readUncompressedLength reader = some (v, reader')) :
    Leb128.decode reader.left = some (v.toNat, reader'.left) ∧
      reader.left.length ≤ reader'.left.length + 5 := by
  apply parse32WithLimit_eq_some.mp
  rw [← readUncompressedLength_eq, h, Option.map_some]

/-- What comes after the length is uncompressed, or it does not stand for as many bytes as expected. -/
inductive AllUncompressed (c : Contract w n) (body : List UInt8) : Option (Bool × σ) → Prop
  | succeeded {s : σ} {op : ℕ} {final : List UInt8} : c.Holds s op final → final.length = n →
    Decodes body [] final → AllUncompressed c body (some (true, w.flush (w.setOutputPtr s op)))
  | failed {s : σ} {op : ℕ} : c.Kept s op → (∀ final, Decodes body [] final → final.length ≠ n) →
    AllUncompressed c body (some (false, w.flush (w.setOutputPtr s op)))

theorem internalUncompressAllTags_spec {s : σ} (abi : Abi) (scratch : Vector UInt8 kMaximumTagLength)
    (reader : Source) (c : Contract w n)
    (hholds : c.Holds (w.setExpectedLength s n) (w.getOutputPtr (w.setExpectedLength s n)) [])
    (hleft : reader.left.length < 2 ^ 32) :
    AllUncompressed c reader.left
      (internalUncompressAllTags abi w (snappyDecompressor reader scratch) s n) := by
  obtain ⟨x, hrun, hfinished⟩ := decompressAllTags_spec abi scratch hholds hleft
  simp only [internalUncompressAllTags, hrun, Option.bind_eq_bind, Option.bind_some]
  cases hfinished with
  | @ended final heof hend hfinal =>
    by_cases hcheck : final.length = n
    · rw [heof, (c.checkLength hend).mpr hcheck]
      exact .succeeded hend hcheck ((hfinal final).mpr rfl)
    · rw [heof, Bool.eq_false_of_not_eq_true (mt (c.checkLength hend).mp hcheck)]
      refine .failed (c.kept hend) ?_
      intro f hdecodes
      obtain rfl := (hfinal f).mp hdecodes
      exact hcheck
  | failed heof hkept hnone =>
    rw [heof]
    exact .failed hkept hnone

theorem readUncompressedLength_of_declares {reader : Source} (h : Declares reader.left n) :
    ∃ v reader', readUncompressedLength reader = some (v, reader') ∧ v.toNat = n ∧
      reader'.left.length < reader.left.length ∧
      ∀ final, Uncompresses reader.left final ↔ final.length = n ∧ Decodes reader'.left [] final := by
  have hlength := getUncompressedLength_eq_some.mpr h
  rw [getUncompressedLength, ← readUncompressedLength_eq, Option.map_map, Option.map_eq_some_iff] at hlength
  obtain ⟨⟨v, reader'⟩, hread, rfl⟩ := hlength
  obtain ⟨hdecode, hgroups⟩ := readUncompressedLength_eq_some hread
  exact ⟨v, reader', hread, rfl, Leb128.length_decode hdecode,
    fun final => uncompresses_iff hdecode hgroups v.toNat_lt⟩

theorem internalUncompress_spec {reader : Source} {s : σ} (abi : Abi) (scratch : Vector UInt8 kMaximumTagLength)
    (hdeclares : Declares reader.left n) (c : Contract w n)
    (hholds : c.Holds (w.setExpectedLength s n) (w.getOutputPtr (w.setExpectedLength s n)) [])
    (hleft : reader.left.length < 2 ^ 32) :
    (∃ s' op final, internalUncompress abi scratch w reader s =
        some (true, w.flush (w.setOutputPtr s' op)) ∧ c.Holds s' op final ∧ Uncompresses reader.left final) ∨
      ∃ s' op, internalUncompress abi scratch w reader s = some (false, w.flush (w.setOutputPtr s' op)) ∧
        c.Kept s' op ∧ ∀ final, ¬ Uncompresses reader.left final := by
  obtain ⟨v, reader', hread, rfl, hshorter, hiff⟩ := readUncompressedLength_of_declares hdeclares
  have hspec := internalUncompressAllTags_spec abi scratch reader' c hholds (by omega)
  simp only [internalUncompress, hread]
  generalize internalUncompressAllTags abi w (snappyDecompressor reader' scratch) s v.toNat = r at hspec ⊢
  cases hspec with
  | @succeeded s' op final hend hlength hdecodes =>
    exact .inl ⟨s', op, final, rfl, hend, (hiff final).mpr ⟨hlength, hdecodes⟩⟩
  | @failed s' op hkept hnone =>
    refine .inr ⟨s', op, rfl, hkept, fun final hfinal => ?_⟩
    obtain ⟨hlength, hdecodes⟩ := (hiff final).mp hfinal
    exact hnone final hdecodes hlength

theorem readUncompressedLength_of_undeclared {reader : Source} (h : ∀ n, ¬ Declares reader.left n) :
    readUncompressedLength reader = none ∧ ∀ final, ¬ Uncompresses reader.left final := by
  constructor
  · cases hread : readUncompressedLength reader with
    | none => rfl
    | some r =>
      obtain ⟨hdecode, hgroups⟩ := readUncompressedLength_eq_some hread
      exact absurd ⟨_, hdecode, hgroups, r.1.toNat_lt⟩ (h r.1.toNat)
  · exact fun final hfinal => h _ hfinal.declares

theorem internalUncompress_undeclared {reader : Source} {s : σ} (abi : Abi)
    (scratch : Vector UInt8 kMaximumTagLength) (h : ∀ n, ¬ Declares reader.left n) :
    internalUncompress abi scratch w reader s = some (false, s) ∧
      ∀ final, ¬ Uncompresses reader.left final := by
  obtain ⟨hread, hnone⟩ := readUncompressedLength_of_undeclared h
  exact ⟨by rw [internalUncompress, hread], hnone⟩

end EnvironmentCheck.SnappyCodec
