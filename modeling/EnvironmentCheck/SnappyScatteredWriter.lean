import EnvironmentCheck.SnappyArrayWriter
import EnvironmentCheck.SnappyFragment

namespace EnvironmentCheck.SnappyCodec

open BackReference Buffer

def kBlockLog : ℕ := 16

/-- `blocks_` are those that are full and the one at `op_base_`, which is null at first. Pointers are indices
into that one, `fresh` is what a new block happens to have in it, and `dest` are the calls on the sink. -/
structure SnappyScatteredWriter where
  fresh : ℕ → ℕ → UInt8
  full : List (List UInt8)
  block : Option (List UInt8)
  expected : ℕ
  fullSize : ℕ
  opPtr : ℕ
  opLimit : ℕ
  opLimitMinSlop : ℕ
  dest : List (List UInt8)

/-- `Flush`, where `size` bytes are not yet written. -/
def SnappySinkAllocator.flush : List (List UInt8) → ℕ → List (List UInt8)
  | [], _ => []
  | block :: blocks, size =>
    let blockSize := min block.length size
    block.take blockSize :: flush blocks (size - blockSize)

namespace SnappyScatteredWriter

def blocks (s : SnappyScatteredWriter) : List (List UInt8) := s.full ++ s.block.toList

def mem (s : SnappyScatteredWriter) : List UInt8 := s.block.getD []

def withMem (s : SnappyScatteredWriter) (mem : List UInt8) : SnappyScatteredWriter :=
  { s with block := s.block.map fun _ => mem }

def size (s : SnappyScatteredWriter) : ℕ := s.fullSize + s.opPtr

/-- What is written at `op_ptr_`. -/
def fill (s : SnappyScatteredWriter) (ip : List UInt8) : Option SnappyScatteredWriter := do
  return { s.withMem (← store s.mem s.opPtr ip) with opPtr := s.opPtr + ip.length }

def newBlock (s : SnappyScatteredWriter) : SnappyScatteredWriter :=
  let bsize := min kBlockSize (s.expected - s.fullSize)
  { s with
    full := s.blocks
    block := some ((List.range bsize).map (s.fresh s.blocks.length))
    opPtr := 0
    opLimit := bsize
    opLimitMinSlop := bsize - min (kSlopBytes - 1) bsize }

def slowAppend : ℕ → SnappyScatteredWriter → List UInt8 → Option (Bool × SnappyScatteredWriter)
  | fuel, s, ip =>
    let avail := s.opLimit - s.opPtr
    if avail < ip.length then
      match fuel with
      | 0 => none
      | fuel + 1 => do
        let s ← s.fill (ip.take avail)
        let s := { s with fullSize := s.fullSize + s.opPtr }
        let ip := ip.drop avail
        if s.fullSize + ip.length > s.expected then return (false, s)
        else slowAppend fuel s.newBlock ip
    else do return (true, ← s.fill ip)

def append (s : SnappyScatteredWriter) (op : ℕ) (ip : List UInt8) :
    Option (Bool × SnappyScatteredWriter × ℕ) := do
  let avail := s.opLimit - op
  if ip.length ≤ avail then return (true, s.withMem (← store s.mem op ip), op + ip.length)
  else
    let (res, s) ← slowAppend (ip.length + 1) { s with opPtr := op } ip
    return (res, s, s.opPtr)

def tryFastAppend (s : SnappyScatteredWriter) (op : ℕ) (ip : List UInt8) (length : ℕ) :
    Option (Bool × SnappyScatteredWriter × ℕ) := do
  let spaceLeft := s.opLimit - op
  if length ≤ 16 ∧ ip.length ≥ 16 + kMaximumTagLength ∧ spaceLeft ≥ 16 then
    return (true, s.withMem (← store s.mem op (ip.take 16)), op + length)
  else return (false, s, op)

/-- The loop of `SlowAppendFromSelf`. -/
def appendBytes : ℕ → SnappyScatteredWriter → ℕ → ℕ → Option (Bool × SnappyScatteredWriter × ℕ)
  | 0, s, op, _ => some (true, s, op)
  | len + 1, s, op, src => do
    let c ← s.blocks[src >>> kBlockLog]?.bind fun block => block[src &&& (kBlockSize - 1)]?
    let (ok, s, op) ← s.append op [c]
    if ok then appendBytes len s op (src + 1) else return (false, s, op)

/-- The first test is `offset - 1u >= cur`, which wraps at zero. -/
def slowAppendFromSelf (s : SnappyScatteredWriter) (offset len : ℕ) : Option (Bool × SnappyScatteredWriter) := do
  let cur := s.size
  if offset = 0 ∨ offset > cur then return (false, s)
  else if s.expected - cur < len then return (false, s)
  else
    let (ok, s, op) ← appendBytes len s s.opPtr (cur - offset)
    return (ok, { s with opPtr := op })

def appendFromSelf (s : SnappyScatteredWriter) (op offset len : ℕ) :
    Option (Bool × SnappyScatteredWriter × ℕ) := do
  if op < offset ∨ op ≥ s.opLimitMinSlop ∨ offset < len then
    if offset = 0 then return (false, s, op)
    else if op < offset ∨ op + len > s.opLimit then
      let (res, s) ← slowAppendFromSelf { s with opPtr := op } offset len
      return (res, s, s.opPtr)
    else return (true, s.withMem (← incrementalCopy s.mem (op - offset) op (op + len) s.opLimit), op + len)
  else return (true, s.withMem (← move s.mem (op - offset) op kSlopBytes), op + len)

end SnappyScatteredWriter

open SnappyScatteredWriter in
def snappyScatteredWriter : Writer SnappyScatteredWriter where
  setExpectedLength s len := { s with expected := len }
  checkLength s := s.size = s.expected
  getOutputPtr s := s.opPtr
  setOutputPtr s op := { s with opPtr := op }
  getBase s := s.block.map fun _ => (0, s.opLimitMinSlop)
  append := append
  tryFastAppend := tryFastAppend
  appendFromSelf := appendFromSelf
  memCopy s dst src := do return s.withMem (← store s.mem dst src)
  memMove s dst src size := do return s.withMem (← move s.mem src dst size)
  copy64BytesWithPatternExtension s dst offset := do
    let (ok, mem) ← copy64BytesWithPatternExtension s.mem dst offset
    return (ok, s.withMem mem)
  flush s := { s with dest := s.dest ++ SnappySinkAllocator.flush s.blocks s.size }

theorem SnappySinkAllocator.flatten_flush (blocks : List (List UInt8)) (size : ℕ) :
    (flush blocks size).flatten = blocks.flatten.take size := by
  induction blocks generalizing size with
  | nil => exact List.take_nil.symm
  | cons block blocks ih =>
    have htake : block.take (min block.length size) = block.take size := by
      rw [Nat.min_comm, ← List.take_take, List.take_length]
    rw [flush, List.flatten_cons, List.flatten_cons, ih, List.take_append, htake]
    congr 2
    omega

theorem SnappySinkAllocator.flush_of_le {blocks : List (List UInt8)} {size : ℕ}
    (h : blocks.flatten.length ≤ size) : flush blocks size = blocks := by
  induction blocks generalizing size with
  | nil => rfl
  | cons block blocks ih =>
    rw [List.flatten_cons, List.length_append] at h
    have hblock : min block.length size = block.length := Nat.min_eq_left (by omega)
    rw [flush, hblock, List.take_length, ih (by omega)]

namespace SnappyScatteredWriter

/-- The blocks, which have room for what is expected and no more. -/
structure Shaped (n : ℕ) (s : SnappyScatteredWriter) : Prop where
  expected : s.expected = n
  unsent : s.dest = []
  sizes : ∀ block ∈ s.full, block.length = kBlockSize
  fullSize : s.fullSize = s.full.flatten.length
  limit : s.opLimit = s.mem.length
  minSlop : s.opLimitMinSlop = s.opLimit - min (kSlopBytes - 1) s.opLimit
  narrow : s.opLimit ≤ kBlockSize
  fits : s.fullSize + s.opLimit ≤ n
  last : s.block ≠ none → s.fullSize + s.opLimit < n → s.opLimit = kBlockSize

structure Holds (n : ℕ) (s : SnappyScatteredWriter) (op : ℕ) (out : List UInt8) : Prop extends Shaped n s where
  room : op ≤ s.opLimit
  written : s.full.flatten ++ s.mem.take op = out

/-- What is left of it after a call has failed. Where a literal has overrun what is expected, the last block
counts twice: it is full, and `op_ptr_` is still at its end. -/
structure Kept (n : ℕ) (s : SnappyScatteredWriter) (op : ℕ) : Prop where
  unsent : s.dest = []
  fits : s.blocks.flatten.length ≤ n
  counted : s.fullSize + op ≤ s.blocks.flatten.length ∨
    s.fullSize = s.blocks.flatten.length ∧ op = s.mem.length

variable {n op len offset : ℕ} {s s' : SnappyScatteredWriter} {mem xs out : List UInt8}

theorem mem_withMem (h : mem.length = s.mem.length) : (s.withMem mem).mem = mem := by
  rw [SnappyScatteredWriter.mem] at h
  cases hblock : s.block with
  | none =>
    rw [hblock, Option.getD_none, List.length_nil, List.length_eq_zero_iff] at h
    rw [SnappyScatteredWriter.mem, withMem, hblock, h]
    rfl
  | some block =>
    rw [SnappyScatteredWriter.mem, withMem, hblock]
    rfl

theorem flatten_blocks (s : SnappyScatteredWriter) : s.blocks.flatten = s.full.flatten ++ s.mem := by
  rw [blocks, List.flatten_append, SnappyScatteredWriter.mem]
  cases s.block <;> simp

theorem Shaped.length_blocks (h : Shaped n s) : s.blocks.flatten.length = s.fullSize + s.opLimit := by
  rw [flatten_blocks, List.length_append, h.fullSize, h.limit]


theorem Shaped.withMem (h : Shaped n s) (hmem : mem.length = s.mem.length) : Shaped n (s.withMem mem) := by
  refine ⟨h.expected, h.unsent, h.sizes, h.fullSize, ?_, h.minSlop, h.narrow, h.fits, ?_⟩
  · rw [mem_withMem hmem]
    exact h.limit.trans hmem.symm
  · intro hblock
    apply h.last
    intro hnone
    apply hblock
    rw [SnappyScatteredWriter.withMem, hnone]
    rfl

theorem Holds.kept (h : Holds n s op out) : Kept n s op := by
  have hroom := h.room
  have hlength := h.length_blocks
  exact ⟨h.unsent, hlength.trans_le h.fits, .inl (by omega)⟩

theorem Holds.length (h : Holds n s op out) : out.length = s.fullSize + op := by
  have hroom := h.room
  have hlimit := h.limit
  rw [← h.written, List.length_append, List.length_take, ← h.fullSize]
  omega

/-- Any change of the block that goes on from what has been written. -/
theorem Holds.changed (h : Holds n s op out) (hmem : mem.length = s.mem.length)
    (htake : mem.take (op + len) = s.mem.take op ++ xs) (hroom : op + len ≤ s.opLimit) :
    Holds n (s.withMem mem) (op + len) (out ++ xs) := by
  refine ⟨h.toShaped.withMem hmem, hroom, ?_⟩
  rw [mem_withMem hmem, htake, ← h.written, List.append_assoc]
  rfl

theorem Holds.store (h : Holds n s op out) (hstore : Buffer.store s.mem op xs = some mem)
    (hxs : op + xs.length ≤ s.opLimit) (hlen : len ≤ xs.length) :
    Holds n (s.withMem mem) (op + len) (out ++ xs.take len) :=
  h.changed (length_store hstore) (take_store hstore hlen) (by omega)

theorem Holds.filled (h : Holds n s op out) (hpos : 0 < offset) (hoffset : offset ≤ op)
    (hlen : op + len ≤ s.opLimit) (hfilled : Filled offset op s.opLimit s.mem (op + len) mem) :
    Holds n (s.withMem mem) (op + len) (extend offset len out) := by
  have hlimit := h.limit
  have hfront : offset ≤ (s.mem.take op).length := by
    rw [List.length_take]
    omega
  refine ⟨h.toShaped.withMem hfilled.size, hlen, ?_⟩
  rw [mem_withMem hfilled.size, hfilled.take_eq hpos hoffset (by omega), ← h.written, extend_append _ hfront]
  rfl

theorem Holds.exists_store (h : Holds n s op out) (hxs : op + xs.length ≤ s.opLimit) :
    ∃ mem, Buffer.store s.mem op xs = some mem :=
  Buffer.exists_store (hxs.trans_eq h.limit)

theorem Holds.slop (h : Holds n s op out) (hlt : op < s.opLimitMinSlop) : op + kSlopBytes ≤ s.opLimit := by
  have hminSlop := h.minSlop
  have hslop : kSlopBytes = 64 := rfl
  omega

theorem Holds.move (h : Holds n s op out) (hpos : 0 < offset) (hoffset : offset ≤ op)
    (hslop : op + kSlopBytes ≤ s.opLimit) : ∃ mem, Buffer.move s.mem (op - offset) op kSlopBytes = some mem ∧
      ∀ len ≤ kSlopBytes, len ≤ offset → Holds n (s.withMem mem) (op + len) (extend offset len out) := by
  have hback : op - (op - offset) = offset := Nat.sub_sub_self hoffset
  obtain ⟨mem, hmove, hfilled⟩ := (filled_start offset op s.opLimit s.mem).move le_rfl hoffset
    (hback.symm ▸ dvd_rfl) (Nat.sub_lt_self hpos hoffset) (Nat.sub_add_cancel hoffset).ge hslop h.limit.le
  rw [hback] at hfilled
  refine ⟨mem, hmove, ?_⟩
  intro len hlen hle
  exact h.filled hpos hoffset (by omega) (hfilled.mono (by omega))

theorem Shaped.setOpPtr (h : Shaped n s) (k : ℕ) : Shaped n { s with opPtr := k } :=
  ⟨h.expected, h.unsent, h.sizes, h.fullSize, h.limit, h.minSlop, h.narrow, h.fits, h.last⟩

theorem Holds.setOpPtr (h : Holds n s op out) (k : ℕ) : Holds n { s with opPtr := k } op out :=
  ⟨h.toShaped.setOpPtr k, h.room, h.written⟩

theorem Holds.fill (h : Holds n s s.opPtr out) (hxs : s.opPtr + xs.length ≤ s.opLimit) :
    ∃ s', s.fill xs = some s' ∧ Holds n s' s'.opPtr (out ++ xs) ∧ s'.opPtr = s.opPtr + xs.length ∧
      s'.opLimit = s.opLimit ∧ s'.fullSize = s.fullSize := by
  obtain ⟨mem, hstore⟩ := h.exists_store hxs
  have hholds := h.store hstore hxs le_rfl
  rw [List.take_length] at hholds
  refine ⟨{ s.withMem mem with opPtr := s.opPtr + xs.length }, ?_, hholds.setOpPtr _, rfl, rfl, rfl⟩
  rw [SnappyScatteredWriter.fill, hstore]
  rfl

/-- A block that is full while more is expected has the size of a block. -/
theorem Holds.newBlock (h : Holds n s op out) (hfull : op = s.opLimit) (hmore : s.fullSize + op < n) :
    Holds n { s with fullSize := s.fullSize + op }.newBlock 0 out ∧
      0 < { s with fullSize := s.fullSize + op }.newBlock.opLimit := by
  have hexpected := h.expected
  have hblock : 0 < kBlockSize := by decide
  have hlength := h.length_blocks
  subst hfull
  have hwhole : s.blocks.flatten = out := by
    rw [flatten_blocks, ← h.written, h.limit, List.take_length]
  refine ⟨⟨⟨hexpected, h.unsent, ?_, hlength.symm, ?_, rfl, Nat.min_le_left _ _, ?_, ?_⟩,
    Nat.zero_le _, ?_⟩, ?_⟩
  · intro block hmem
    obtain hmem | hmem := List.mem_append.mp hmem
    · exact h.sizes block hmem
    · have hsome : s.block = some block := Option.mem_toList.mp hmem
      have hmem' : s.mem = block := by rw [SnappyScatteredWriter.mem, hsome]; rfl
      rw [← hmem', ← h.limit]
      exact h.last (by rw [hsome]; nofun) hmore
  · simp [SnappyScatteredWriter.newBlock, SnappyScatteredWriter.mem]
  · dsimp only [SnappyScatteredWriter.newBlock]
    omega
  · dsimp only [SnappyScatteredWriter.newBlock]
    omega
  · rw [List.take_zero, List.append_nil]
    exact hwhole
  · dsimp only [SnappyScatteredWriter.newBlock]
    omega

theorem Holds.slowAppend_fits (h : Holds n s s.opPtr out) (fuel : ℕ) (hfits : s.opPtr + xs.length ≤ s.opLimit) :
    ∃ s', slowAppend fuel s xs = some (true, s') ∧ Holds n s' s'.opPtr (out ++ xs) := by
  obtain ⟨s', hfill, hholds, -⟩ := h.fill hfits
  refine ⟨s', ?_, hholds⟩
  rw [SnappyScatteredWriter.slowAppend.eq_def]
  simp only [if_neg (show ¬ s.opLimit - s.opPtr < xs.length by omega), hfill, Option.bind_eq_bind, Option.bind_some]
  rfl

/-- Only the first block may have no room at all, so that the loop takes a byte in every later turn. -/
theorem Holds.slowAppend {fuel : ℕ} (h : Holds n s s.opPtr out) (xs : List UInt8)
    (hfuel : xs.length < fuel ∨ xs.length ≤ fuel ∧ s.opPtr < s.opLimit) :
    ∃ ok s', slowAppend fuel s xs = some (ok, s') ∧ (ok = true → Holds n s' s'.opPtr (out ++ xs)) ∧
      (ok = false → Kept n s' s'.opPtr ∧ n < out.length + xs.length) := by
  induction fuel generalizing s xs out with
  | zero =>
    obtain ⟨s', hrun, hholds⟩ := h.slowAppend_fits 0 (show s.opPtr + xs.length ≤ s.opLimit by omega)
    exact ⟨true, s', hrun, fun _ => hholds, nofun⟩
  | succ fuel ih =>
    have hroom := h.room
    have hlength := h.length
    by_cases hmore : s.opLimit - s.opPtr < xs.length
    · have htake : (xs.take (s.opLimit - s.opPtr)).length = s.opLimit - s.opPtr := by
        rw [List.length_take]
        omega
      obtain ⟨s1, hfill, hholds, hptr, hlimit, hfullSize⟩ :=
        h.fill (show s.opPtr + (xs.take (s.opLimit - s.opPtr)).length ≤ s.opLimit by omega)
      have hexpected := hholds.expected
      have hrest : (xs.drop (s.opLimit - s.opPtr)).length = xs.length - (s.opLimit - s.opPtr) := List.length_drop
      simp only [SnappyScatteredWriter.slowAppend, if_pos hmore, hfill, Option.bind_eq_bind, Option.bind_some]
      by_cases hbeyond : s1.fullSize + s1.opPtr + (xs.drop (s.opLimit - s.opPtr)).length > s1.expected
      · simp only [if_pos hbeyond]
        have hblocks := hholds.length_blocks
        have hlast := hholds.limit
        refine ⟨false, _, rfl, nofun, fun _ => ⟨⟨hholds.unsent, hholds.kept.fits, .inr ⟨?_, ?_⟩⟩, ?_⟩⟩
        · change s1.fullSize + s1.opPtr = s1.blocks.flatten.length
          omega
        · change s1.opPtr = s1.mem.length
          omega
        · omega
      · simp only [if_neg hbeyond]
        obtain ⟨hnext, hpos⟩ := hholds.newBlock (by omega) (by omega)
        obtain ⟨ok, s', hrun, htrue, hfalse⟩ := ih hnext (xs.drop (s.opLimit - s.opPtr)) (.inr ⟨by omega, hpos⟩)
        have hwhole : out ++ xs.take (s.opLimit - s.opPtr) ++ xs.drop (s.opLimit - s.opPtr) = out ++ xs := by
          rw [List.append_assoc, List.take_append_drop]
        rw [hwhole] at htrue
        refine ⟨ok, s', hrun, htrue, fun hok => ⟨(hfalse hok).1, ?_⟩⟩
        have hexcess := (hfalse hok).2
        rw [List.length_append] at hexcess
        omega
    · obtain ⟨s', hrun, hholds⟩ := h.slowAppend_fits (fuel + 1) (show s.opPtr + xs.length ≤ s.opLimit by omega)
      exact ⟨true, s', hrun, fun _ => hholds, nofun⟩

theorem Holds.append (h : Holds n s op out) (xs : List UInt8) :
    ∃ ok s' op', s.append op xs = some (ok, s', op') ∧ (ok = true → Holds n s' op' (out ++ xs)) ∧
      (ok = false → Kept n s' op' ∧ n < out.length + xs.length) := by
  have hroom := h.room
  rw [SnappyScatteredWriter.append]
  by_cases hfits : xs.length ≤ s.opLimit - op
  · obtain ⟨mem, hstore⟩ := h.exists_store (show op + xs.length ≤ s.opLimit by omega)
    have hholds := h.store hstore (by omega) le_rfl
    rw [List.take_length] at hholds
    simp only [if_pos hfits, hstore, Option.bind_eq_bind, Option.bind_some]
    exact ⟨true, _, _, rfl, fun _ => hholds, nofun⟩
  · obtain ⟨ok, s', hrun, htrue, hfalse⟩ := (h.setOpPtr op).slowAppend xs (.inl (Nat.lt_succ_self xs.length))
    simp only [if_neg hfits, hrun, Option.bind_eq_bind, Option.bind_some]
    exact ⟨ok, s', s'.opPtr, rfl, htrue, hfalse⟩

theorem Holds.tryFastAppend (h : Holds n s op out) (ip : List UInt8) (len : ℕ) :
    ∃ ok s' op', s.tryFastAppend op ip len = some (ok, s', op') ∧
      (ok = true → len < 61 ∧ len + 5 ≤ ip.length ∧ Holds n s' op' (out ++ ip.take len)) ∧
      (ok = false → s' = s ∧ op' = op) := by
  have hroom := h.room
  have hmax : kMaximumTagLength = 5 := rfl
  rw [SnappyScatteredWriter.tryFastAppend]
  split_ifs with hfast
  · have hchunk : (ip.take 16).length = 16 := by
      rw [List.length_take]
      omega
    obtain ⟨mem, hstore⟩ := h.exists_store (show op + (ip.take 16).length ≤ s.opLimit by omega)
    have hholds := h.store hstore (by omega) (show len ≤ (ip.take 16).length by omega)
    rw [List.take_take, Nat.min_eq_left hfast.1] at hholds
    rw [hstore]
    exact ⟨true, _, _, rfl, fun _ => ⟨by omega, by omega, hholds⟩, nofun⟩
  · exact ⟨false, s, op, rfl, nofun, fun _ => ⟨rfl, rfl⟩⟩

/-- Where the blocks are, by number and index. -/
theorem Holds.byte_eq (h : Holds n s op out) {i : ℕ} (hi : i < out.length) :
    s.blocks[i >>> kBlockLog]?.bind (fun block => block[i &&& (kBlockSize - 1)]?) = out[i]? := by
  have hlength := h.length
  have hroom := h.room
  have hlimit := h.limit
  have hshift : i >>> kBlockLog = i / kBlockSize := Nat.shiftRight_eq_div_pow i 16
  have hmask : i &&& (kBlockSize - 1) = i % kBlockSize := Nat.and_two_pow_sub_one_eq_mod i 16
  have hfront : out[i]? = s.blocks.flatten[i]? := by
    have hsplit : s.blocks.flatten = out ++ s.mem.drop op := by
      rw [flatten_blocks, ← h.written, List.append_assoc, List.take_append_drop]
    rw [hsplit, List.getElem?_append_left hi]
  have hlast : ∀ block ∈ s.block, block.length ≤ kBlockSize := by
    intro block hblock
    have hmem : s.mem = block := by
      rw [mem, hblock]
      rfl
    rw [← hmem, ← hlimit]
    exact h.narrow
  rw [hfront, hshift, hmask]
  apply getElem?_flatten_of_blocks (by decide) h.sizes hlast
  have hfits := h.length_blocks
  rw [blocks] at hfits
  omega

/-- One byte after the other, each read from the blocks when it is needed. -/
theorem Holds.appendBytes (h : Holds n s op out) (len src : ℕ) (hpos : 0 < offset) (hsrc : src + offset = out.length)
    (hroom : out.length + len ≤ n) : ∃ s' op', appendBytes len s op src = some (true, s', op') ∧
      Holds n s' op' (extend offset len out) := by
  induction len generalizing s op src out with
  | zero => exact ⟨s, op, rfl, h⟩
  | succ len ih =>
    have hback : out.length - offset = src := by omega
    have hlt : src < out.length := by omega
    have hbyte := h.byte_eq hlt
    rw [List.getElem?_eq_getElem hlt] at hbyte
    obtain ⟨ok, s1, op1, happend, htrue, hfalse⟩ := h.append [out[src]]
    have hok : ok = true := by
      by_contra hok
      have hexcess := (hfalse (Bool.eq_false_of_not_eq_true hok)).2
      rw [List.length_singleton] at hexcess
      omega
    subst hok
    have hlonger : (out ++ [out[src]]).length = out.length + 1 := List.length_append
    obtain ⟨s', op', hrun, hholds⟩ := ih (htrue rfl) (src + 1) (by omega) (by omega)
    refine ⟨s', op', ?_, ?_⟩
    · simp only [SnappyScatteredWriter.appendBytes, hbyte, happend, Option.bind_eq_bind,
        Option.bind_some, if_true, hrun]
    · rw [extend, hback, List.getElem?_eq_getElem hlt]
      exact hholds

theorem Holds.slowAppendFromSelf (h : Holds n s s.opPtr out) (offset len : ℕ) :
    ∃ ok s', s.slowAppendFromSelf offset len = some (ok, s') ∧
      (ok = true → 0 < offset ∧ offset ≤ out.length ∧ Holds n s' s'.opPtr (extend offset len out)) ∧
      (ok = false → Kept n s' s'.opPtr ∧ (0 < offset → offset ≤ out.length → n < out.length + len)) := by
  have hlength : s.size = out.length := h.length.symm
  have hexpected := h.expected
  have hroom := h.room
  have hfits := h.fits
  have hsize : s.size = s.fullSize + s.opPtr := rfl
  rw [SnappyScatteredWriter.slowAppendFromSelf]
  by_cases hrefused : offset = 0 ∨ offset > s.size
  · simp only [if_pos hrefused]
    exact ⟨false, s, rfl, nofun, fun _ => ⟨h.kept, by omega⟩⟩
  simp only [if_neg hrefused]
  by_cases hlong : s.expected - s.size < len
  · simp only [if_pos hlong]
    exact ⟨false, s, rfl, nofun, fun _ => ⟨h.kept, by omega⟩⟩
  simp only [if_neg hlong]
  obtain ⟨s', op', hrun, hholds⟩ := h.appendBytes len (s.size - offset)
    (show 0 < offset by omega) (by omega) (by omega)
  rw [hrun]
  exact ⟨true, _, rfl, fun _ => ⟨by omega, by omega, hholds.setOpPtr op'⟩, nofun⟩

theorem Holds.appendFromSelf (h : Holds n s op out) (hlen : 0 < len) (hlen' : len ≤ 64) :
    ∃ ok s' op', s.appendFromSelf op offset len = some (ok, s', op') ∧
      (ok = true → 0 < offset ∧ offset ≤ out.length ∧ Holds n s' op' (extend offset len out)) ∧
      (ok = false → Kept n s' op' ∧ (0 < offset → offset ≤ out.length → n < out.length + len)) := by
  have hlength := h.length
  rw [SnappyScatteredWriter.appendFromSelf]
  by_cases hslow : op < offset ∨ op ≥ s.opLimitMinSlop ∨ offset < len
  · simp only [if_pos hslow]
    by_cases hzero : offset = 0
    · simp only [if_pos hzero]
      exact ⟨false, s, op, rfl, nofun, fun _ => ⟨h.kept, by omega⟩⟩
    simp only [if_neg hzero]
    by_cases hacross : op < offset ∨ op + len > s.opLimit
    · obtain ⟨ok, s', hrun, hend⟩ := (h.setOpPtr op).slowAppendFromSelf offset len
      simp only [if_pos hacross, hrun, Option.bind_eq_bind, Option.bind_some]
      exact ⟨ok, s', s'.opPtr, rfl, hend⟩
    · obtain ⟨mem, hcopy, hfilled⟩ := incrementalCopy_filled (show 0 < offset by omega)
        (show offset ≤ op by omega) (show op < op + len by omega) (by omega)
        (show op + len ≤ s.opLimit by omega) h.limit.le
      simp only [if_neg hacross, hcopy, Option.bind_eq_bind, Option.bind_some]
      exact ⟨true, _, _, rfl, fun _ => ⟨by omega, by omega,
        h.filled (by omega) (by omega) (by omega) hfilled⟩, nofun⟩
  · simp only [if_neg hslow]
    obtain ⟨mem, hmove, hholds⟩ := h.move (show 0 < offset by omega) (by omega) (h.slop (by omega))
    rw [hmove]
    exact ⟨true, _, _, rfl, fun _ => ⟨by omega, by omega, hholds len hlen' (by omega)⟩, nofun⟩

theorem withMem_mem (s : SnappyScatteredWriter) : s.withMem s.mem = s := by
  rw [withMem, SnappyScatteredWriter.mem]
  cases hblock : s.block with
  | none => rw [Option.map_none, ← hblock]
  | some block => rw [Option.map_some, Option.getD_some, ← hblock]

theorem getBase_withMem (s : SnappyScatteredWriter) (mem : List UInt8) :
    snappyScatteredWriter.getBase (s.withMem mem) = snappyScatteredWriter.getBase s :=
  Option.map_map _ _ s.block

theorem Holds.slop_of_base (h : Holds n s op out) {base : ℕ} {limit : ℤ}
    (hbase : snappyScatteredWriter.getBase s = some (base, limit)) (hlt : (op : ℤ) - base < limit) :
    base = 0 ∧ op + kSlopBytes ≤ s.opLimit := by
  obtain ⟨block, -, heq⟩ := Option.map_eq_some_iff.mp hbase
  obtain ⟨rfl, rfl⟩ := Prod.mk.inj heq
  exact ⟨rfl, h.slop (by omega)⟩

def contract (n : ℕ) : Contract snappyScatteredWriter n where
  Holds := Holds n
  Kept := Kept n
  kept := Holds.kept
  checkLength := by
    intro s op out h
    have hlength := h.length
    have hexpected := h.expected
    change decide (s.fullSize + op = s.expected) = true ↔ _
    rw [decide_eq_true_iff]
    omega
  append xs h _ := h.append xs
  tryFastAppend ip len h := h.tryFastAppend ip len
  appendFromSelf offset len h hlen hlen' _ := h.appendFromSelf hlen hlen'
  base_le := by
    intro s op out base limit h hbase
    have hlength := h.length
    omega
  memCopy := by
    intro s op out base limit xs h hbase hlt hxs
    obtain ⟨rfl, hslop⟩ := h.slop_of_base hbase hlt
    obtain ⟨mem, hstore⟩ := h.exists_store (show op + xs.length ≤ s.opLimit by rw [hxs]; exact hslop)
    refine ⟨s.withMem mem, ?_, (getBase_withMem s mem).trans hbase, fun len hlen => h.store hstore ?_ (by omega)⟩
    · simp only [snappyScatteredWriter, hstore, Option.bind_eq_bind, Option.bind_some]
      rfl
    · rw [hxs]
      exact hslop
  memMove := by
    intro s op out base limit offset h hbase hlt hpos hoffset
    obtain ⟨rfl, hslop⟩ := h.slop_of_base hbase hlt
    obtain ⟨mem, hmove, hholds⟩ := h.move hpos (show offset ≤ op by omega) hslop
    refine ⟨s.withMem mem, ?_, (getBase_withMem s mem).trans hbase, hholds⟩
    have hmove' : Buffer.move s.mem (op - offset) op 64 = some mem := hmove
    simp only [snappyScatteredWriter, hmove', Option.bind_eq_bind, Option.bind_some]
    rfl
  copy64_zero := by
    intro s op base limit _
    change some (false, s.withMem s.mem) = some (false, s)
    rw [withMem_mem]
  copy64 := by
    intro s op out base limit offset h hbase hlt hpos hoffset
    obtain ⟨rfl, hslop⟩ := h.slop_of_base hbase hlt
    obtain ⟨mem, hcopy, hfilled⟩ := copy64_filled hpos (show offset ≤ op by omega) hslop h.limit.le
    refine ⟨s.withMem mem, ?_, (getBase_withMem s mem).trans hbase, ?_⟩
    · simp only [snappyScatteredWriter, hcopy, Option.bind_eq_bind, Option.bind_some]
      rfl
    · intro len hlen
      have hslop' : op + 64 ≤ s.opLimit := hslop
      exact h.filled hpos (by omega) (by omega) (hfilled.mono (by omega))

/-- A new writer. -/
def start (fresh : ℕ → ℕ → UInt8) : SnappyScatteredWriter := ⟨fresh, [], none, 0, 0, 0, 0, 0, []⟩

theorem holds_start (fresh : ℕ → ℕ → UInt8) (n : ℕ) :
    Holds n (snappyScatteredWriter.setExpectedLength (start fresh) n) 0 [] :=
  ⟨⟨rfl, rfl, nofun, rfl, rfl, rfl, Nat.zero_le _, Nat.zero_le _, fun h => absurd rfl h⟩, le_rfl, rfl⟩

theorem flush_dest (h : s.dest = []) (op : ℕ) :
    (snappyScatteredWriter.flush (snappyScatteredWriter.setOutputPtr s op)).dest =
      SnappySinkAllocator.flush s.blocks (s.fullSize + op) := by
  change s.dest ++ _ = _
  rw [h]
  rfl

theorem Holds.flatten_flush (h : Holds n s op out) :
    (snappyScatteredWriter.flush (snappyScatteredWriter.setOutputPtr s op)).dest.flatten = out := by
  have hlength := h.length
  have hsplit : s.blocks.flatten = out ++ s.mem.drop op := by
    rw [flatten_blocks, ← h.written, List.append_assoc, List.take_append_drop]
  rw [flush_dest h.unsent, SnappySinkAllocator.flatten_flush, hsplit, ← hlength, List.take_left]

theorem Kept.length_flush (h : Kept n s op) :
    (snappyScatteredWriter.flush (snappyScatteredWriter.setOutputPtr s op)).dest.flatten.length ≤ n := by
  rw [flush_dest h.unsent, SnappySinkAllocator.flatten_flush, List.length_take]
  exact (Nat.min_le_right _ _).trans h.fits

/-- What is said to have been produced, next to what has gone to the sink. The second case takes a
literal that overran the last block, which it does not say. -/
def Counts (chunks : List (List UInt8)) (produced : ℕ) : Prop :=
  produced = chunks.flatten.length ∨
    ∃ before last, chunks = before ++ [last] ∧ produced = chunks.flatten.length + last.length

theorem Kept.counts (h : Kept n s op) :
    Counts (snappyScatteredWriter.flush (snappyScatteredWriter.setOutputPtr s op)).dest (s.fullSize + op) := by
  rw [flush_dest h.unsent]
  obtain hwithin | ⟨hall, htwice⟩ := h.counted
  · left
    rw [SnappySinkAllocator.flatten_flush, List.length_take, Nat.min_eq_left hwithin]
  · rw [SnappySinkAllocator.flush_of_le (by omega), hall, htwice, mem]
    cases hblock : s.block with
    | none => exact .inl (Nat.add_zero _)
    | some block =>
      refine .inr ⟨s.full, block, ?_, rfl⟩
      rw [blocks, hblock]
      rfl

end SnappyScatteredWriter

end EnvironmentCheck.SnappyCodec
