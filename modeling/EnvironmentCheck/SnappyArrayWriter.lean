import EnvironmentCheck.SnappyDecompress
import EnvironmentCheck.SnappyIncrementalCopy

namespace EnvironmentCheck.SnappyCodec

open BackReference Buffer

/-- The buffer at `base_`, and indices into it. -/
structure SnappyArrayWriter where
  mem : List UInt8
  op : ℕ
  opLimit : ℕ
  opLimitMinSlop : ℕ

namespace SnappyArrayWriter

def setExpectedLength (s : SnappyArrayWriter) (len : ℕ) : SnappyArrayWriter :=
  let opLimit := s.op + len
  { s with opLimit, opLimitMinSlop := opLimit - min (kSlopBytes - 1) len }

def append (s : SnappyArrayWriter) (op : ℕ) (ip : List UInt8) : Option (Bool × SnappyArrayWriter × ℕ) := do
  let spaceLeft := s.opLimit - op
  if spaceLeft < ip.length then return (false, s, op)
  else return (true, { s with mem := ← store s.mem op ip }, op + ip.length)

def tryFastAppend (s : SnappyArrayWriter) (op : ℕ) (ip : List UInt8) (len : ℕ) :
    Option (Bool × SnappyArrayWriter × ℕ) := do
  let spaceLeft := s.opLimit - op
  if len ≤ 16 ∧ ip.length ≥ 16 + kMaximumTagLength ∧ spaceLeft ≥ 16 then
    return (true, { s with mem := ← store s.mem op (ip.take 16) }, op + len)
  else return (false, s, op)

def appendFromSelf (s : SnappyArrayWriter) (op offset len : ℕ) : Option (Bool × SnappyArrayWriter × ℕ) := do
  let opEnd := op + len
  if op < offset then return (false, s, op)
  else if op ≥ s.opLimitMinSlop ∨ offset < len then
    if opEnd > s.opLimit ∨ offset = 0 then return (false, s, op)
    else return (true, { s with mem := ← incrementalCopy s.mem (op - offset) op opEnd s.opLimit }, opEnd)
  else return (true, { s with mem := ← move s.mem (op - offset) op kSlopBytes }, opEnd)

end SnappyArrayWriter

open SnappyArrayWriter in
def snappyArrayWriter : Writer SnappyArrayWriter where
  setExpectedLength := setExpectedLength
  checkLength s := s.op = s.opLimit
  getOutputPtr s := s.op
  setOutputPtr s op := { s with op }
  getBase s := some (0, s.opLimitMinSlop)
  append := append
  tryFastAppend := tryFastAppend
  appendFromSelf := appendFromSelf
  memCopy s dst src := do return { s with mem := ← store s.mem dst src }
  memMove s dst src size := do return { s with mem := ← move s.mem src dst size }
  copy64BytesWithPatternExtension s dst offset := do
    let (ok, mem) ← copy64BytesWithPatternExtension s.mem dst offset
    return (ok, { s with mem })
  flush s := s

/-- `RawUncompress`, with the buffer it leaves behind. -/
def rawUncompress (abi : Abi) (scratch : Vector UInt8 kMaximumTagLength) (compressed : Source)
    (uncompressed : List UInt8) : Option (Bool × List UInt8) := do
  let (ok, s) ← internalUncompress abi scratch snappyArrayWriter compressed ⟨uncompressed, 0, 0, 0⟩
  return (ok, s.mem)

/-- A buffer as it was, but for its first `n` bytes. -/
structure Within (mem : List UInt8) (n : ℕ) (mem' : List UInt8) : Prop where
  size : mem'.length = mem.length
  beyond : mem'.drop n = mem.drop n

namespace SnappyArrayWriter

/-- The output is at the beginning of the buffer, of which `n` bytes are to be filled. -/
structure Holds (mem : List UInt8) (n : ℕ) (s : SnappyArrayWriter) (op : ℕ) (out : List UInt8) : Prop where
  within : Within mem n s.mem
  limit : s.opLimit = n
  minSlop : s.opLimitMinSlop = n - min (kSlopBytes - 1) n
  op_eq : op = out.length
  room : op ≤ n
  written : s.mem.take op = out

structure Kept (mem : List UInt8) (n : ℕ) (s : SnappyArrayWriter) (op : ℕ) : Prop where
  within : Within mem n s.mem
  room : op ≤ n

variable {mem mem' xs out : List UInt8} {n op offset len : ℕ} {s : SnappyArrayWriter}

theorem Holds.kept (h : Holds mem n s op out) : Kept mem n s op := ⟨h.within, h.room⟩

theorem Holds.store (h : Holds mem n s op out) (hstore : Buffer.store s.mem op xs = some mem')
    (hxs : op + xs.length ≤ n) (hlen : len ≤ xs.length) :
    Holds mem n { s with mem := mem' } (op + len) (out ++ xs.take len) := by
  refine ⟨⟨(length_store hstore).trans h.within.size, ?_⟩, h.limit, h.minSlop, ?_, by omega, ?_⟩
  · rw [drop_store hstore hxs, h.within.beyond]
  · rw [List.length_append, List.length_take, Nat.min_eq_left hlen, h.op_eq]
  · rw [take_store hstore hlen, h.written]

theorem Holds.filled (h : Holds mem n s op out) (hmem : n ≤ mem.length) (hpos : 0 < offset)
    (hoffset : offset ≤ op) (hlen : op + len ≤ n) (hfilled : Filled offset op n s.mem (op + len) mem') :
    Holds mem n { s with mem := mem' } (op + len) (extend offset len out) := by
  have hsize := h.within.size
  have hout := h.op_eq
  refine ⟨⟨hfilled.size.trans hsize, hfilled.after.trans h.within.beyond⟩, h.limit, h.minSlop, ?_, hlen, ?_⟩
  · rw [length_extend hpos (by omega), hout]
  · dsimp only
    rw [hfilled.take_eq hpos hoffset (by omega), h.written]

theorem Holds.exists_store (h : Holds mem n s op out) (hmem : n ≤ mem.length) (hxs : op + xs.length ≤ n) :
    ∃ mem', Buffer.store s.mem op xs = some mem' := by
  have hsize := h.within.size
  exact Buffer.exists_store (by omega)

theorem Holds.slop (h : Holds mem n s op out) (hlt : op < s.opLimitMinSlop) : op + kSlopBytes ≤ n := by
  have hminSlop := h.minSlop
  have hslop : kSlopBytes = 64 := rfl
  omega

theorem Holds.append (h : Holds mem n s op out) (hmem : n ≤ mem.length) (xs : List UInt8) :
    ∃ ok s' op', s.append op xs = some (ok, s', op') ∧ (ok = true → Holds mem n s' op' (out ++ xs)) ∧
      (ok = false → Kept mem n s' op' ∧ n < out.length + xs.length) := by
  have hout := h.op_eq
  have hroom := h.room
  have hlimit := h.limit
  rw [SnappyArrayWriter.append]
  split_ifs with hfull
  · exact ⟨false, s, op, rfl, nofun, fun _ => ⟨h.kept, by omega⟩⟩
  · obtain ⟨mem', hstore⟩ := h.exists_store hmem (show op + xs.length ≤ n by omega)
    have hholds := h.store hstore (by omega) le_rfl
    rw [List.take_length] at hholds
    rw [hstore]
    exact ⟨true, _, _, rfl, fun _ => hholds, nofun⟩

theorem Holds.tryFastAppend (h : Holds mem n s op out) (hmem : n ≤ mem.length) (ip : List UInt8) (len : ℕ) :
    ∃ ok s' op', s.tryFastAppend op ip len = some (ok, s', op') ∧
      (ok = true → len < 61 ∧ len + 5 ≤ ip.length ∧ Holds mem n s' op' (out ++ ip.take len)) ∧
      (ok = false → s' = s ∧ op' = op) := by
  have hlimit := h.limit
  have hroom := h.room
  have hmax : kMaximumTagLength = 5 := rfl
  rw [SnappyArrayWriter.tryFastAppend]
  split_ifs with hfast
  · have hchunk : (ip.take 16).length = 16 := by
      rw [List.length_take]
      omega
    obtain ⟨mem', hstore⟩ := h.exists_store hmem (show op + (ip.take 16).length ≤ n by omega)
    have hholds := h.store hstore (by omega) (show len ≤ (ip.take 16).length by omega)
    rw [List.take_take, Nat.min_eq_left hfast.1] at hholds
    rw [hstore]
    exact ⟨true, _, _, rfl, fun _ => ⟨by omega, by omega, hholds⟩, nofun⟩
  · exact ⟨false, s, op, rfl, nofun, fun _ => ⟨rfl, rfl⟩⟩

/-- Sixty-four bytes at once, of which those count that are not farther than the offset. -/
theorem Holds.move (h : Holds mem n s op out) (hmem : n ≤ mem.length) (hpos : 0 < offset)
    (hoffset : offset ≤ op) (hslop : op + kSlopBytes ≤ n) :
    ∃ mem', Buffer.move s.mem (op - offset) op kSlopBytes = some mem' ∧
      ∀ len ≤ kSlopBytes, len ≤ offset →
        Holds mem n { s with mem := mem' } (op + len) (extend offset len out) := by
  have hsize := h.within.size
  have hback : op - (op - offset) = offset := Nat.sub_sub_self hoffset
  obtain ⟨mem', hmove, hfilled⟩ := (filled_start offset op n s.mem).move le_rfl hoffset
    (hback.symm ▸ dvd_rfl) (Nat.sub_lt_self hpos hoffset) (Nat.sub_add_cancel hoffset).ge hslop (by omega)
  rw [hback] at hfilled
  refine ⟨mem', hmove, ?_⟩
  intro len hlen hle
  exact h.filled hmem hpos hoffset (by omega) (hfilled.mono (by omega))

theorem Holds.appendFromSelf (h : Holds mem n s op out) (hmem : n ≤ mem.length) (hlen : 0 < len)
    (hlen' : len ≤ 64) : ∃ ok s' op', s.appendFromSelf op offset len = some (ok, s', op') ∧
      (ok = true → 0 < offset ∧ offset ≤ out.length ∧ Holds mem n s' op' (extend offset len out)) ∧
      (ok = false → Kept mem n s' op' ∧ (0 < offset → offset ≤ out.length → n < out.length + len)) := by
  have hsize := h.within.size
  have hout := h.op_eq
  have hlimit := h.limit
  rw [SnappyArrayWriter.appendFromSelf]
  by_cases hbefore : op < offset
  · simp only [if_pos hbefore]
    exact ⟨false, s, op, rfl, nofun, fun _ => ⟨h.kept, by omega⟩⟩
  simp only [if_neg hbefore]
  by_cases hslow : op ≥ s.opLimitMinSlop ∨ offset < len
  · simp only [if_pos hslow]
    by_cases hrefused : op + len > s.opLimit ∨ offset = 0
    · simp only [if_pos hrefused]
      exact ⟨false, s, op, rfl, nofun, fun _ => ⟨h.kept, by omega⟩⟩
    · obtain ⟨mem', hcopy, hfilled⟩ := incrementalCopy_filled (show 0 < offset by omega)
        (show offset ≤ op by omega) (show op < op + len by omega) (by omega) (show op + len ≤ n by omega)
        (show n ≤ s.mem.length by omega)
      rw [← hlimit] at hcopy
      simp only [if_neg hrefused, hcopy, Option.bind_eq_bind, Option.bind_some]
      exact ⟨true, _, _, rfl, fun _ => ⟨by omega, by omega,
        h.filled hmem (by omega) (by omega) (by omega) hfilled⟩, nofun⟩
  · simp only [if_neg hslow]
    obtain ⟨mem', hmove, hholds⟩ := h.move hmem (show 0 < offset by omega) (by omega) (h.slop (by omega))
    rw [hmove]
    exact ⟨true, _, _, rfl, fun _ => ⟨by omega, by omega, hholds len hlen' (by omega)⟩, nofun⟩

/-- Of a buffer that has room for what the stream declares. -/
def contract (mem : List UInt8) (n : ℕ) (hmem : n ≤ mem.length) : Contract snappyArrayWriter n where
  Holds := Holds mem n
  Kept := Kept mem n
  kept := Holds.kept
  checkLength := by
    intro s op out h
    have hlimit := h.limit
    have hout := h.op_eq
    change decide (op = s.opLimit) = true ↔ _
    rw [decide_eq_true_iff]
    omega
  append xs h _ := h.append hmem xs
  tryFastAppend ip len h := h.tryFastAppend hmem ip len
  appendFromSelf offset len h hlen hlen' _ := h.appendFromSelf hmem hlen hlen'
  base_le := by
    rintro s op out base limit h hbase
    have hout := h.op_eq
    omega
  memCopy := by
    rintro s op out base limit xs h hbase hlt hxs
    obtain ⟨rfl, rfl⟩ := Prod.mk.inj (Option.some.inj hbase)
    have hslop := h.slop (by omega)
    obtain ⟨mem', hstore⟩ := h.exists_store hmem (show op + xs.length ≤ n by rw [hxs]; exact hslop)
    refine ⟨{ s with mem := mem' }, ?_, rfl, fun len hlen => h.store hstore ?_ (by omega)⟩
    · simp only [snappyArrayWriter, hstore, Option.bind_eq_bind, Option.bind_some]
      rfl
    · rw [hxs]
      exact hslop
  memMove := by
    rintro s op out base limit offset h hbase hlt hpos hoffset
    obtain ⟨rfl, rfl⟩ := Prod.mk.inj (Option.some.inj hbase)
    obtain ⟨mem', hmove, hholds⟩ := h.move hmem hpos (show offset ≤ op by omega) (h.slop (by omega))
    refine ⟨{ s with mem := mem' }, ?_, rfl, hholds⟩
    have hmove' : Buffer.move s.mem (op - offset) op 64 = some mem' := hmove
    simp only [snappyArrayWriter, hmove', Option.bind_eq_bind, Option.bind_some]
    rfl
  copy64_zero _ := rfl
  copy64 := by
    rintro s op out base limit offset h hbase hlt hpos hoffset
    obtain ⟨rfl, rfl⟩ := Prod.mk.inj (Option.some.inj hbase)
    have hsize := h.within.size
    have hslop : op + 64 ≤ n := h.slop (by omega)
    obtain ⟨mem', hcopy, hfilled⟩ := copy64_filled hpos (show offset ≤ op by omega) hslop
      (show n ≤ s.mem.length by omega)
    refine ⟨{ s with mem := mem' }, ?_, rfl, ?_⟩
    · simp only [snappyArrayWriter, hcopy, Option.bind_eq_bind, Option.bind_some]
      rfl
    · intro len hlen
      exact h.filled hmem hpos (by omega) (by omega) (hfilled.mono (by omega))

theorem holds_start (mem : List UInt8) (n : ℕ) :
    Holds mem n (snappyArrayWriter.setExpectedLength ⟨mem, 0, 0, 0⟩ n) 0 [] := by
  refine ⟨⟨rfl, rfl⟩, Nat.zero_add n, ?_, rfl, Nat.zero_le n, List.take_zero⟩
  simp only [snappyArrayWriter, setExpectedLength, Nat.zero_add]

end SnappyArrayWriter

open SnappyArrayWriter

section RawUncompress

variable {stream mem : List UInt8} {n : ℕ}

/-- The buffer keeps its size, and what lies past the length that the stream declares. -/
structure Contained (stream mem mem' : List UInt8) : Prop where
  size : mem'.length = mem.length
  beyond : ∀ k, (∀ n, Declares stream n → n ≤ k) → mem'.drop k = mem.drop k

/-- A call succeeds where the stream stands for something, and fails where it stands for nothing. -/
inductive Uncompressed (stream mem : List UInt8) : Option (Bool × List UInt8) → Prop
  | succeeded {out mem' : List UInt8} : Uncompresses stream out → mem'.take out.length = out →
    Contained stream mem mem' → Uncompressed stream mem (some (true, mem'))
  | failed {mem' : List UInt8} : (∀ out, ¬ Uncompresses stream out) → Contained stream mem mem' →
    Uncompressed stream mem (some (false, mem'))

theorem Within.contained {mem' : List UInt8} (h : Within mem n mem') (hdeclares : Declares stream n) :
    Contained stream mem mem' := by
  refine ⟨h.size, ?_⟩
  intro k hk
  obtain ⟨m, rfl⟩ := Nat.exists_eq_add_of_le (hk n hdeclares)
  rw [← List.drop_drop, h.beyond, List.drop_drop]

theorem rawUncompress_spec (abi : Abi) (scratch : Vector UInt8 kMaximumTagLength) (reader : Source)
    (mem : List UInt8) (hleft : reader.left.length < 2 ^ 32)
    (hroom : ∀ n, Declares reader.left n → n ≤ mem.length) :
    Uncompressed reader.left mem (rawUncompress abi scratch reader mem) := by
  by_cases hdeclared : ∃ n, Declares reader.left n
  · obtain ⟨n, hdeclares⟩ := hdeclared
    obtain ⟨s, op, out, hrun, hholds, hout⟩ | ⟨s, op, hrun, hkept, hnone⟩ := internalUncompress_spec abi
      scratch hdeclares (SnappyArrayWriter.contract mem n (hroom n hdeclares)) (holds_start mem n) hleft
    · rw [rawUncompress, hrun]
      refine .succeeded hout ?_ (hholds.within.contained hdeclares)
      rw [← hholds.op_eq]
      exact hholds.written
    · rw [rawUncompress, hrun]
      exact .failed hnone (hkept.within.contained hdeclares)
  · obtain ⟨hrun, hnone⟩ := internalUncompress_undeclared (w := snappyArrayWriter) (s := ⟨mem, 0, 0, 0⟩)
      abi scratch fun n hn => hdeclared ⟨n, hn⟩
    rw [rawUncompress, hrun]
    exact .failed hnone ⟨rfl, fun k _ => rfl⟩

/-- On every input, however it comes in fragments, `RawUncompress` stays in its buffer, leaves alone
what lies past the declared length, and succeeds on the streams that stand for something, to which it
sets the buffer. -/
theorem rawUncompress_safe (abi : Abi) (scratch : Vector UInt8 kMaximumTagLength) (reader : Source)
    (mem : List UInt8) (hleft : reader.left.length < 2 ^ 32)
    (hroom : ∀ n, Declares reader.left n → n ≤ mem.length) :
    ∃ ok mem', rawUncompress abi scratch reader mem = some (ok, mem') ∧ mem'.length = mem.length ∧
      (∀ k, (∀ n, Declares reader.left n → n ≤ k) → mem'.drop k = mem.drop k) ∧
      (ok = true ↔ ∃ out, Uncompresses reader.left out) ∧
      ∀ out, Uncompresses reader.left out → mem'.take out.length = out := by
  have hspec := rawUncompress_spec abi scratch reader mem hleft hroom
  generalize rawUncompress abi scratch reader mem = r at hspec ⊢
  cases hspec with
  | @succeeded out mem' hout htake hcontained =>
    refine ⟨true, mem', rfl, hcontained.size, hcontained.beyond, iff_of_true rfl ⟨out, hout⟩, ?_⟩
    intro out' hout'
    obtain rfl := hout.unique hout'
    exact htake
  | @failed mem' hnone hcontained =>
    refine ⟨false, mem', rfl, hcontained.size, hcontained.beyond, ?_, ?_⟩
    · apply iff_of_false Bool.false_ne_true
      rintro ⟨out, hout⟩
      exact hnone out hout
    · intro out hout
      exact absurd hout (hnone out)

/-- A literal of one byte and a copy that overlaps itself, byte by byte. -/
def overlapping : Source := ⟨[5, 0, 97, 1, 1], fun _ => 1, fun _ _ => Nat.one_pos⟩

theorem overlapping_declares (h : Declares overlapping.left n) : n = 5 := by
  have hdecode : Leb128.decode overlapping.left = some (5, [0, 97, 1, 1]) := rfl
  obtain ⟨rest, h, -, -⟩ := h
  rw [hdecode] at h
  cases h
  rfl

theorem rawUncompress_safe_overlapping :
    ∃ ok mem', rawUncompress .arm64V8a (.replicate 5 0) overlapping (List.replicate 8 0) = some (ok, mem') ∧
      mem'.length = 8 ∧ (∀ k, (∀ n, Declares overlapping.left n → n ≤ k) →
        mem'.drop k = (List.replicate 8 (0 : UInt8)).drop k) ∧
      (ok = true ↔ ∃ out, Uncompresses overlapping.left out) ∧
      ∀ out, Uncompresses overlapping.left out → mem'.take out.length = out :=
  rawUncompress_safe .arm64V8a (.replicate 5 0) overlapping (List.replicate 8 0) (by decide) fun n hn => by
    rw [overlapping_declares hn]
    decide

end RawUncompress

end EnvironmentCheck.SnappyCodec
