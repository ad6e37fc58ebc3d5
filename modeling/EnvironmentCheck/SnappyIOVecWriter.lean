import EnvironmentCheck.SnappyArrayWriter

namespace EnvironmentCheck.SnappyCodec

open BackReference Buffer

/-- The buffers, the one that is being written and an index into it. -/
structure SnappyIOVecWriter where
  iov : List (List UInt8)
  currIov : ℕ
  currIovOutput : ℕ
  currIovRemaining : ℕ
  totalWritten : ℕ
  outputLimit : ℕ

namespace SnappyIOVecWriter

def mem (s : SnappyIOVecWriter) : List UInt8 := s.iov.getD s.currIov []

/-- After `n` more bytes have been written to the current buffer. -/
def advance (s : SnappyIOVecWriter) (mem : List UInt8) (n : ℕ) : SnappyIOVecWriter :=
  { s with
    iov := s.iov.set s.currIov mem
    currIovOutput := s.currIovOutput + n
    currIovRemaining := s.currIovRemaining - n
    totalWritten := s.totalWritten + n }

/-- The next buffer, unless this is the last one. -/
def next (s : SnappyIOVecWriter) : Option SnappyIOVecWriter :=
  (s.iov[s.currIov + 1]?).map fun iov =>
    { s with currIov := s.currIov + 1, currIovOutput := 0, currIovRemaining := iov.length }

def appendNoCheck : ℕ → SnappyIOVecWriter → List UInt8 → Option (Bool × SnappyIOVecWriter)
  | fuel, s, ip =>
    if ip.length > 0 then
      match fuel with
      | 0 => none
      | fuel + 1 =>
        match if s.currIovRemaining = 0 then s.next else some s with
        | none => some (false, s)
        | some s => do
          let toWrite := min ip.length s.currIovRemaining
          let mem ← store s.mem s.currIovOutput (ip.take toWrite)
          appendNoCheck fuel (s.advance mem toWrite) (ip.drop toWrite)
    else some (true, s)

def append (s : SnappyIOVecWriter) (op : ℕ) (ip : List UInt8) :
    Option (Bool × SnappyIOVecWriter × ℕ) := do
  if s.totalWritten + ip.length > s.outputLimit then return (false, s, op)
  else
    let (ok, s) ← appendNoCheck (s.iov.length + ip.length) s ip
    return (ok, s, op)

def tryFastAppend (s : SnappyIOVecWriter) (op : ℕ) (ip : List UInt8) (len : ℕ) :
    Option (Bool × SnappyIOVecWriter × ℕ) := do
  let spaceLeft := s.outputLimit - s.totalWritten
  if len ≤ 16 ∧ ip.length ≥ 16 + kMaximumTagLength ∧ spaceLeft ≥ 16 ∧ s.currIovRemaining ≥ 16 then
    return (true, s.advance (← store s.mem s.currIovOutput (ip.take 16)) len, op)
  else return (false, s, op)

/-- Where a copy starts: the buffer, and an index into it. -/
def locate (iov : List (List UInt8)) : ℕ → ℕ → ℕ → Option (ℕ × ℕ)
  | fromIov, fromIovOffset, offset =>
    if offset > 0 then
      if fromIovOffset ≥ offset then some (fromIov, fromIovOffset - offset)
      else
        match fromIov with
        | 0 => none
        | fromIov + 1 => do locate iov fromIov (← iov[fromIov]?).length (offset - fromIovOffset)
    else some (fromIov, fromIovOffset)

/-- The copy; whether the other buffers have had room for a part of it is not looked at. -/
def copyFrom : ℕ → SnappyIOVecWriter → ℕ → ℕ → ℕ → Option (Bool × SnappyIOVecWriter)
  | fuel, s, fromIov, fromIovOffset, len =>
    if len > 0 then
      match fuel with
      | 0 => none
      | fuel + 1 =>
        if fromIov ≠ s.currIov then do
          let iov ← s.iov[fromIov]?
          let toCopy := min (iov.length - fromIovOffset) len
          let (_, s) ← appendNoCheck (s.iov.length + toCopy) s (← load iov fromIovOffset toCopy)
          copyFrom fuel s (fromIov + 1) 0 (len - toCopy)
        else if s.currIovRemaining = 0 then
          match s.next with
          | none => some (false, s)
          | some s => copyFrom fuel s fromIov fromIovOffset len
        else do
          let toCopy := min s.currIovRemaining len
          let mem ← incrementalCopy s.mem fromIovOffset s.currIovOutput (s.currIovOutput + toCopy)
            (s.currIovOutput + s.currIovRemaining)
          copyFrom fuel (s.advance mem toCopy) fromIov (fromIovOffset + toCopy) (len - toCopy)
    else some (true, s)

/-- The first test is `offset - 1u >= total_written_`, which wraps at zero. -/
def appendFromSelf (s : SnappyIOVecWriter) (op offset len : ℕ) : Option (Bool × SnappyIOVecWriter × ℕ) := do
  let spaceLeft := s.outputLimit - s.totalWritten
  if offset = 0 ∨ offset > s.totalWritten then return (false, s, op)
  else if len > spaceLeft then return (false, s, op)
  else
    let (fromIov, fromIovOffset) ←
      locate s.iov s.currIov ((← s.iov[s.currIov]?).length - s.currIovRemaining) offset
    let (ok, s) ← copyFrom (len + 2 * s.iov.length) s fromIov fromIovOffset len
    return (ok, s, op)

end SnappyIOVecWriter

open SnappyIOVecWriter in
def snappyIOVecWriter : Writer SnappyIOVecWriter where
  setExpectedLength s len := { s with outputLimit := len }
  checkLength s := s.totalWritten = s.outputLimit
  getOutputPtr _ := 0
  setOutputPtr s _ := s
  getBase _ := none
  append := append
  tryFastAppend := tryFastAppend
  appendFromSelf := appendFromSelf
  memCopy _ _ _ := none
  memMove _ _ _ _ := none
  copy64BytesWithPatternExtension _ _ _ := none
  flush s := s

/-- `RawUncompressToIOVec`, with the buffers that it leaves behind. -/
def rawUncompressToIOVec (abi : Abi) (scratch : Vector UInt8 kMaximumTagLength) (compressed : Source)
    (iov : List (List UInt8)) : Option (Bool × List (List UInt8)) := do
  let (ok, s) ← internalUncompress abi scratch snappyIOVecWriter compressed
    ⟨iov, 0, 0, (iov.getD 0 []).length, 0, 0⟩
  return (ok, s.iov)

namespace SnappyIOVecWriter

/-- The output goes from one buffer to the next, none of which changes its size. -/
structure Holds (sizes : List ℕ) (n : ℕ) (s : SnappyIOVecWriter) (out : List UInt8) : Prop where
  sizes : s.iov.map List.length = sizes
  inside : s.currIov = 0 ∨ s.currIov < s.iov.length
  cursor : s.currIovOutput + s.currIovRemaining = s.mem.length
  total : s.totalWritten = out.length
  limit : s.outputLimit = n
  room : out.length ≤ n
  written : (s.iov.take s.currIov).flatten ++ s.mem.take s.currIovOutput = out

variable {sizes : List ℕ} {n op len offset i j k fuel : ℕ} {s s' : SnappyIOVecWriter}
  {mem xs out out' : List UInt8} {iov : List (List UInt8)}

theorem length_getD (h : iov.map List.length = sizes) (i : ℕ) : (iov.getD i []).length = sizes.getD i 0 := by
  rw [← h, List.getD_eq_getElem?_getD, List.getD_eq_getElem?_getD, List.getElem?_map]
  cases iov[i]? <;> rfl

theorem length_flatten_take (h : iov.map List.length = sizes) (i : ℕ) :
    (iov.take i).flatten.length = (sizes.take i).sum := by
  rw [List.length_flatten, List.map_take, h]

theorem flatten_take_succ (iov : List (List UInt8)) (i : ℕ) :
    (iov.take (i + 1)).flatten = (iov.take i).flatten ++ iov.getD i [] := by
  rw [List.take_add_one, List.flatten_append, List.getD_eq_getElem?_getD]
  cases iov[i]? <;> simp

theorem sum_take_succ (sizes : List ℕ) (i : ℕ) :
    (sizes.take (i + 1)).sum = (sizes.take i).sum + sizes.getD i 0 := by
  rw [List.take_add_one, List.sum_append, List.getD_eq_getElem?_getD]
  cases sizes[i]? <;> simp

theorem sum_take_mono (sizes : List ℕ) (h : i ≤ j) : (sizes.take i).sum ≤ (sizes.take j).sum := by
  induction j, h using Nat.le_induction with
  | base => exact le_rfl
  | succ j _ ih =>
    rw [sum_take_succ]
    omega

/-- A buffer before the current one is a part of what has been written. -/
theorem take_drop_flatten (hi : i < j) (hj : k ≤ (iov.getD i []).length) :
    ((((iov.take j).flatten).drop ((iov.take i).flatten.length + k)).take ((iov.getD i []).length - k)) =
      (iov.getD i []).drop k := by
  obtain ⟨m, rfl⟩ := Nat.exists_eq_add_of_lt hi
  have hsplit : (iov.take (i + m + 1)).flatten =
      (iov.take i).flatten ++ (iov.getD i [] ++ ((iov.drop (i + 1)).take m).flatten) := by
    rw [show i + m + 1 = i + 1 + m by omega, List.take_add, List.flatten_append, flatten_take_succ,
      List.append_assoc]
  have hlength : ((iov.getD i []).drop k).length = (iov.getD i []).length - k := List.length_drop
  rw [hsplit, List.drop_append, List.drop_eq_nil_of_le (Nat.le_add_right _ _), List.nil_append,
    Nat.add_sub_cancel_left, List.drop_append_of_le_length hj, ← hlength, List.take_left]

theorem Holds.length (h : Holds sizes n s out) :
    out.length = (sizes.take s.currIov).sum + s.currIovOutput := by
  have hcursor := h.cursor
  rw [← h.written, List.length_append, length_flatten_take h.sizes, List.length_take]
  omega

theorem Holds.remaining (h : Holds sizes n s out) :
    s.currIovOutput + s.currIovRemaining = sizes.getD s.currIov 0 :=
  h.cursor.trans (length_getD h.sizes _)

theorem getD_set (hmem : mem.length = (iov.getD i []).length) : (iov.set i mem).getD i [] = mem := by
  rw [List.getD_eq_getElem?_getD] at hmem ⊢
  obtain hi | hi := Nat.lt_or_ge i iov.length
  · rw [List.getElem?_set_self hi, Option.getD_some]
  · rw [List.getElem?_eq_none hi, Option.getD_none, List.length_nil, List.length_eq_zero_iff] at hmem
    rw [List.getElem?_eq_none (by rwa [List.length_set]), hmem, Option.getD_none]

theorem map_length_set (hmem : mem.length = (iov.getD i []).length) :
    (iov.set i mem).map List.length = iov.map List.length := by
  rw [List.map_set, hmem, length_getD rfl]
  apply List.ext_getElem?
  intro j
  rw [List.getElem?_set]
  split_ifs with hij hi
  · rw [← hij, List.getD_eq_getElem _ _ hi, List.getElem?_eq_getElem hi]
  · rw [← hij, List.getElem?_eq_none (Nat.le_of_not_lt hi)]
  · rfl

theorem Holds.advance (h : Holds sizes n s out) (hmem : mem.length = s.mem.length)
    (hlen : len ≤ s.currIovRemaining) (hroom : out.length + len ≤ n) (hlength : out'.length = out.length + len)
    (hout : (s.iov.take s.currIov).flatten ++ mem.take (s.currIovOutput + len) = out') :
    Holds sizes n (s.advance mem len) out' := by
  have hcursor := h.cursor
  have htotal := h.total
  have hmem' : (s.advance mem len).mem = mem := getD_set hmem
  refine ⟨(map_length_set hmem).trans h.sizes, ?_, ?_, ?_, h.limit, by omega, ?_⟩
  · dsimp only [SnappyIOVecWriter.advance]
    rw [List.length_set]
    exact h.inside
  · rw [hmem', hmem]
    dsimp only [SnappyIOVecWriter.advance]
    omega
  · dsimp only [SnappyIOVecWriter.advance]
    omega
  · rw [hmem', ← hout]
    dsimp only [SnappyIOVecWriter.advance]
    rw [List.take_set_of_le le_rfl]

theorem Holds.next (h : Holds sizes n s out) (hfull : s.currIovRemaining = 0) (hcapacity : n ≤ sizes.sum)
    (hmore : out.length < n) :
    ∃ s', s.next = some s' ∧ Holds sizes n s' out ∧ s'.currIov = s.currIov + 1 ∧ s'.iov = s.iov := by
  have hlength := h.length
  have hremaining := h.remaining
  have hcursor := h.cursor
  have hinside : s.currIov + 1 < s.iov.length := by
    by_contra hlast
    have hwhole : (sizes.take (s.currIov + 1)).sum = sizes.sum := by
      rw [List.take_of_length_le]
      rw [← h.sizes, List.length_map]
      omega
    rw [sum_take_succ] at hwhole
    omega
  have hnext : s.iov.getD (s.currIov + 1) [] = s.iov[s.currIov + 1] := by
    rw [List.getD_eq_getElem?_getD, List.getElem?_eq_getElem hinside]
    rfl
  rw [SnappyIOVecWriter.next, List.getElem?_eq_getElem hinside]
  refine ⟨_, rfl, ⟨h.sizes, .inr hinside, ?_, h.total, h.limit, h.room, ?_⟩, rfl, rfl⟩
  · rw [Nat.zero_add, ← hnext]
    rfl
  · rw [List.take_zero, List.append_nil]
    dsimp only
    have hwhole : s.mem.take s.currIovOutput = s.mem := List.take_of_length_le (by omega)
    rw [flatten_take_succ, ← h.written, hwhole]
    rfl

/-- A buffer to write to. -/
theorem Holds.current (h : Holds sizes n s out) (hcapacity : n ≤ sizes.sum) (hmore : out.length < n) :
    ∃ s', (if s.currIovRemaining = 0 then s.next else some s) = some s' ∧ Holds sizes n s' out ∧
      s.currIov ≤ s'.currIov ∧ (s.currIov = s'.currIov → 0 < s'.currIovRemaining) := by
  split_ifs with hfull
  · obtain ⟨s', hnext, hholds, hcurr, -⟩ := h.next hfull hcapacity hmore
    exact ⟨s', hnext, hholds, by omega, fun hsame => by omega⟩
  · exact ⟨s, rfl, h, le_rfl, fun _ => Nat.pos_of_ne_zero hfull⟩

theorem Holds.store (h : Holds sizes n s out) (hstore : Buffer.store s.mem s.currIovOutput xs = some mem)
    (hlen : len ≤ xs.length) (hxs : len ≤ s.currIovRemaining) (hroom : out.length + len ≤ n) :
    Holds sizes n (s.advance mem len) (out ++ xs.take len) := by
  apply h.advance (length_store hstore) hxs hroom
  · rw [List.length_append, List.length_take, Nat.min_eq_left hlen]
  · rw [take_store hstore hlen, ← List.append_assoc, h.written]

theorem Holds.size_eq (h : Holds sizes n s out) : s.iov.length = sizes.length := by
  rw [← h.sizes, List.length_map]

theorem Holds.appendNoCheck (h : Holds sizes n s out) (xs : List UInt8) (fuel : ℕ) (hcapacity : n ≤ sizes.sum)
    (hroom : out.length + xs.length ≤ n) (hfuel : xs.length + (sizes.length - s.currIov) ≤ fuel) :
    ∃ s', appendNoCheck fuel s xs = some (true, s') ∧ Holds sizes n s' (out ++ xs) ∧
      s.currIov ≤ s'.currIov := by
  induction fuel generalizing s xs out with
  | zero =>
    obtain rfl : xs = [] := List.length_eq_zero_iff.mp (by omega)
    exact ⟨s, rfl, by rwa [List.append_nil], le_rfl⟩
  | succ fuel ih =>
    rw [SnappyIOVecWriter.appendNoCheck]
    by_cases hmore : xs.length > 0
    · obtain ⟨s1, hcurrent, h1, hcurr, hremaining⟩ := h.current hcapacity (by omega)
      have hcursor := h1.cursor
      have hinside := h1.inside
      have hsize := h1.size_eq
      have htake : (xs.take (min xs.length s1.currIovRemaining)).length = min xs.length s1.currIovRemaining := by
        rw [List.length_take]
        omega
      obtain ⟨mem, hstore⟩ : ∃ mem, Buffer.store s1.mem s1.currIovOutput
          (xs.take (min xs.length s1.currIovRemaining)) = some mem := Buffer.exists_store (by omega)
      have h2 := h1.store hstore htake.ge (by omega) (by omega)
      have hsame : (s1.advance mem (min xs.length s1.currIovRemaining)).currIov = s1.currIov := rfl
      rw [List.take_take, Nat.min_self] at h2
      obtain ⟨s', hrun, h', hle⟩ := ih h2
        (xs.drop (min xs.length s1.currIovRemaining))
        (by rw [List.length_append, List.length_drop]; omega) (by rw [List.length_drop]; omega)
      rw [List.append_assoc, List.take_append_drop] at h'
      refine ⟨s', ?_, h', hcurr.trans hle⟩
      simp only [if_pos hmore, hcurrent, hstore, Option.bind_eq_bind, Option.bind_some]
      exact hrun
    · obtain rfl : xs = [] := List.length_eq_zero_iff.mp (by omega)
      exact ⟨s, rfl, by rwa [List.append_nil], le_rfl⟩

/-- What is left of it after a call has failed. -/
def Kept (sizes : List ℕ) (s : SnappyIOVecWriter) : Prop := s.iov.map List.length = sizes

theorem Holds.append (h : Holds sizes n s out) (hcapacity : n ≤ sizes.sum) (op : ℕ) (xs : List UInt8) :
    ∃ ok s' op', s.append op xs = some (ok, s', op') ∧ (ok = true → Holds sizes n s' (out ++ xs)) ∧
      (ok = false → Kept sizes s' ∧ n < out.length + xs.length) := by
  have htotal := h.total
  have hlimit := h.limit
  have hsize := h.size_eq
  rw [SnappyIOVecWriter.append]
  by_cases hbeyond : s.totalWritten + xs.length > s.outputLimit
  · simp only [if_pos hbeyond]
    exact ⟨false, s, op, rfl, nofun, fun _ => ⟨h.sizes, by omega⟩⟩
  · obtain ⟨s', hrun, h', -⟩ := h.appendNoCheck xs (s.iov.length + xs.length) hcapacity
      (by omega) (by omega)
    simp only [if_neg hbeyond, hrun, Option.bind_eq_bind, Option.bind_some]
    exact ⟨true, s', op, rfl, fun _ => h', nofun⟩

theorem Holds.tryFastAppend (h : Holds sizes n s out) (op : ℕ) (ip : List UInt8) (len : ℕ) :
    ∃ ok s' op', s.tryFastAppend op ip len = some (ok, s', op') ∧
      (ok = true → len < 61 ∧ len + 5 ≤ ip.length ∧ Holds sizes n s' (out ++ ip.take len)) ∧
      (ok = false → s' = s ∧ op' = op) := by
  have htotal := h.total
  have hlimit := h.limit
  have hcursor := h.cursor
  have hmax : kMaximumTagLength = 5 := rfl
  rw [SnappyIOVecWriter.tryFastAppend]
  split_ifs with hfast
  · have hchunk : (ip.take 16).length = 16 := by
      rw [List.length_take]
      omega
    obtain ⟨mem, hstore⟩ : ∃ mem, Buffer.store s.mem s.currIovOutput (ip.take 16) = some mem :=
      Buffer.exists_store (by omega)
    have hholds := h.store hstore (show len ≤ (ip.take 16).length by omega) (by omega) (by omega)
    rw [List.take_take, Nat.min_eq_left hfast.1] at hholds
    rw [hstore]
    exact ⟨true, _, _, rfl, fun _ => ⟨by omega, by omega, hholds⟩, nofun⟩
  · exact ⟨false, s, op, rfl, nofun, fun _ => ⟨rfl, rfl⟩⟩

/-- Going back from buffer to buffer. -/
theorem locate_spec (k offset : ℕ) (hsizes : iov.map List.length = sizes) (hi : i = 0 ∨ i < iov.length)
    (hpos : 0 < offset)
    (hback : offset ≤ (sizes.take i).sum + k) (hk : k ≤ sizes.getD i 0) :
    ∃ j k', locate iov i k offset = some (j, k') ∧ j ≤ i ∧ k' ≤ sizes.getD j 0 ∧
      (sizes.take j).sum + k' + offset = (sizes.take i).sum + k := by
  induction i generalizing k offset with
  | zero =>
    rw [List.take_zero, List.sum_nil, Nat.zero_add] at hback
    refine ⟨0, k - offset, ?_, le_rfl, by omega, ?_⟩
    · rw [locate, if_pos hpos, if_pos hback]
    · rw [List.take_zero, List.sum_nil]
      omega
  | succ i ih =>
    rw [locate, if_pos hpos]
    by_cases hhere : k ≥ offset
    · rw [if_pos hhere]
      exact ⟨i + 1, k - offset, rfl, le_rfl, by omega, by omega⟩
    · have hlt : i < iov.length := by omega
      have hlength : iov[i].length = sizes.getD i 0 := by
        rw [← length_getD hsizes, List.getD_eq_getElem _ _ hlt]
      have hsum := sum_take_succ sizes i
      obtain ⟨j, k', hrun, hj, hk', heq⟩ := ih iov[i].length (offset - k)
        (.inr hlt) (by omega) (by omega) (by omega)
      refine ⟨j, k', ?_, by omega, hk', by omega⟩
      rw [if_neg hhere, List.getElem?_eq_getElem hlt]
      exact hrun

theorem Holds.getElem?_iov (h : Holds sizes n s out) (hi : i < s.currIov) :
    s.iov[i]? = some (s.iov.getD i []) := by
  have hinside := h.inside
  have hlt : i < s.iov.length := by omega
  rw [List.getD_eq_getElem _ _ hlt, List.getElem?_eq_getElem hlt]

/-- What is read from an earlier buffer has been written there. -/
theorem Holds.drop_eq (h : Holds sizes n s out) (hi : i < s.currIov) (hk : k ≤ sizes.getD i 0)
    (hlen : len ≤ sizes.getD i 0 - k) :
    ((s.iov.getD i []).drop k).take len = (out.drop ((sizes.take i).sum + k)).take len := by
  have hlength := length_getD h.sizes i
  have hbefore := length_flatten_take h.sizes i
  have hfront : (sizes.take (i + 1)).sum ≤ (sizes.take s.currIov).sum := sum_take_mono sizes hi
  rw [sum_take_succ] at hfront
  have hk' : k ≤ (s.iov.getD i []).length := hk.trans_eq hlength.symm
  have hdrop := take_drop_flatten hi hk'
  rw [hbefore, hlength] at hdrop
  rw [← hdrop, List.take_take, Nat.min_eq_left hlen, ← h.written, List.drop_append_of_le_length,
    List.take_append_of_le_length]
  · rw [List.length_drop, length_flatten_take h.sizes]
    omega
  · rw [length_flatten_take h.sizes]
    omega

/-- The distance between where a copy reads and where it writes stays the same, across all buffers. -/
theorem Holds.copyFrom (h : Holds sizes n s out) (len fuel : ℕ) (hcapacity : n ≤ sizes.sum) (hi : i ≤ s.currIov)
    (hk : k ≤ sizes.getD i 0) (hpos : 0 < offset) (hdistance : (sizes.take i).sum + k + offset = out.length)
    (hlen : len ≤ 64) (hroom : out.length + len ≤ n)
    (hfuel : len + (sizes.length - s.currIov) + (sizes.length - i) ≤ fuel) :
    ∃ s', copyFrom fuel s i k len = some (true, s') ∧ Holds sizes n s' (extend offset len out) := by
  induction fuel generalizing s i k len out with
  | zero =>
    obtain rfl : len = 0 := by omega
    exact ⟨s, rfl, h⟩
  | succ fuel ih =>
    obtain rfl | hmore := Nat.eq_zero_or_pos len
    · exact ⟨s, rfl, h⟩
    have hsize := h.size_eq
    have hinside := h.inside
    have hlength := h.length
    have hremaining := h.remaining
    rw [SnappyIOVecWriter.copyFrom, if_pos hmore]
    by_cases hearlier : i ≠ s.currIov
    · have hlt : i < s.currIov := by omega
      have hbuffer := length_getD h.sizes i
      have hfront : (sizes.take (i + 1)).sum ≤ (sizes.take s.currIov).sum := sum_take_mono sizes hlt
      rw [sum_take_succ] at hfront
      obtain ⟨toCopy, htoCopy⟩ : ∃ toCopy, toCopy = min ((s.iov.getD i []).length - k) len := ⟨_, rfl⟩
      have hload : load (s.iov.getD i []) k toCopy = some (((s.iov.getD i []).drop k).take toCopy) :=
        load_of_le (by omega)
      have hcopied : extend offset toCopy out = out ++ ((s.iov.getD i []).drop k).take toCopy := by
        rw [extend_of_le (by omega) (by omega), h.drop_eq hlt hk (by omega), ← hdistance, Nat.add_sub_cancel]
      have hchunk : (((s.iov.getD i []).drop k).take toCopy).length = toCopy := length_load hload
      obtain ⟨s1, hrun, h1, hle⟩ := h.appendNoCheck (((s.iov.getD i []).drop k).take toCopy)
        (s.iov.length + toCopy) hcapacity (by omega) (by omega)
      simp only [ne_eq, hearlier, not_false_eq_true, if_true, h.getElem?_iov hlt, ← htoCopy, hload, hrun,
        Option.bind_eq_bind, Option.bind_some]
      rw [← hcopied] at h1
      have hlonger : (extend offset toCopy out).length = out.length + toCopy := length_extend hpos (by omega)
      have hwhole : extend offset len out = extend offset (len - toCopy) (extend offset toCopy out) := by
        rw [← extend_add, Nat.add_sub_cancel' (by omega)]
      rw [hwhole]
      obtain hend | hend := Nat.eq_zero_or_pos (len - toCopy)
      · rw [hend]
        refine ⟨s1, ?_, h1⟩
        rw [SnappyIOVecWriter.copyFrom.eq_def]
        rfl
      · apply ih h1 _ (by omega) (Nat.zero_le _) _ (by omega) (by omega) (by omega)
        rw [sum_take_succ]
        omega
    · obtain rfl : i = s.currIov := not_not.mp hearlier
      rw [if_neg hearlier]
      by_cases hfull : s.currIovRemaining = 0
      · obtain ⟨s1, hnext, h1, hcurr, -⟩ := h.next hfull hcapacity (by omega)
        have hinside1 := h1.inside
        have hsize1 := h1.size_eq
        rw [if_pos hfull, hnext]
        exact ih h1 _ (by omega) hk hdistance hlen hroom (by omega)
      · obtain ⟨toCopy, htoCopy⟩ : ∃ toCopy, toCopy = min s.currIovRemaining len := ⟨_, rfl⟩
        have hsrc : s.currIovOutput - offset = k := by omega
        have hcursor := h.cursor
        obtain ⟨mem, hcopy, hfilled⟩ := incrementalCopy_filled hpos (show offset ≤ s.currIovOutput by omega)
          (show s.currIovOutput < s.currIovOutput + toCopy by omega) (by omega)
          (show s.currIovOutput + toCopy ≤ s.currIovOutput + s.currIovRemaining by omega) hcursor.le
        rw [hsrc] at hcopy
        have hfront : offset ≤ (s.mem.take s.currIovOutput).length := by
          rw [List.length_take]
          omega
        have hlonger : (extend offset toCopy out).length = out.length + toCopy := length_extend hpos (by omega)
        have h1 : Holds sizes n (s.advance mem toCopy) (extend offset toCopy out) := by
          apply h.advance hfilled.size (by omega) (by omega) hlonger
          rw [hfilled.take_eq hpos (by omega) (by omega), ← extend_append _ hfront, h.written]
        have hwhole : extend offset len out = extend offset (len - toCopy) (extend offset toCopy out) := by
          rw [← extend_add, Nat.add_sub_cancel' (by omega)]
        have hsame : (s.advance mem toCopy).currIov = s.currIov := rfl
        rw [if_neg hfull, ← htoCopy, hwhole]
        simp only [hcopy, Option.bind_eq_bind, Option.bind_some]
        exact ih h1 _ le_rfl (by omega) (by omega) (by omega) (by omega) (by rw [hsame]; omega)

theorem Holds.appendFromSelf (h : Holds sizes n s out) (hcapacity : n ≤ sizes.sum) (op : ℕ) (hlen : len ≤ 64) :
    ∃ ok s' op', s.appendFromSelf op offset len = some (ok, s', op') ∧
      (ok = true → 0 < offset ∧ offset ≤ out.length ∧ Holds sizes n s' (extend offset len out)) ∧
      (ok = false → Kept sizes s' ∧ (0 < offset → offset ≤ out.length → n < out.length + len)) := by
  have htotal := h.total
  have hlimit := h.limit
  have hlength := h.length
  have hsize := h.size_eq
  have hcursor := h.cursor
  have hremaining := h.remaining
  have hroom := h.room
  rw [SnappyIOVecWriter.appendFromSelf]
  by_cases hrefused : offset = 0 ∨ offset > s.totalWritten
  · simp only [if_pos hrefused]
    exact ⟨false, s, op, rfl, nofun, fun _ => ⟨h.sizes, by omega⟩⟩
  simp only [if_neg hrefused]
  by_cases hlong : len > s.outputLimit - s.totalWritten
  · simp only [if_pos hlong]
    exact ⟨false, s, op, rfl, nofun, fun _ => ⟨h.sizes, by omega⟩⟩
  have hinside : s.currIov < s.iov.length := by
    obtain hfirst | hinside := h.inside
    · by_contra hnone
      have hempty : sizes = [] := List.length_eq_zero_iff.mp (by omega)
      rw [hempty, List.take_nil, List.sum_nil] at hlength
      rw [hempty, hfirst] at hremaining
      have hzero : s.currIovOutput + s.currIovRemaining = 0 := hremaining
      omega
    · exact hinside
  have hcurr : s.iov[s.currIov]? = some s.mem := by
    rw [List.getElem?_eq_getElem hinside, SnappyIOVecWriter.mem, List.getD_eq_getElem _ _ hinside]
  have hoffset : s.mem.length - s.currIovRemaining = s.currIovOutput := by omega
  obtain ⟨i, k, hlocate, hi, hk, hdistance⟩ := locate_spec s.currIovOutput offset h.sizes h.inside
    (show 0 < offset by omega) (by omega) (by omega)
  obtain ⟨s', hrun, h'⟩ := h.copyFrom len (len + 2 * s.iov.length) hcapacity hi hk
    (show 0 < offset by omega) (by omega) hlen (by omega) (by omega)
  simp only [if_neg hlong, hcurr, hoffset, hlocate, hrun, Option.bind_eq_bind, Option.bind_some]
  exact ⟨true, s', op, rfl, fun _ => ⟨by omega, by omega, h'⟩, nofun⟩

/-- Of buffers that together have room for what the stream declares. -/
def contract (sizes : List ℕ) (n : ℕ) (hcapacity : n ≤ sizes.sum) : Contract snappyIOVecWriter n where
  Holds s _ out := Holds sizes n s out
  Kept s _ := Kept sizes s
  kept h := h.sizes
  checkLength := by
    intro s op out h
    have htotal := h.total
    have hlimit := h.limit
    change decide (s.totalWritten = s.outputLimit) = true ↔ _
    rw [decide_eq_true_iff]
    omega
  append xs h _ := h.append hcapacity _ xs
  tryFastAppend ip len h := h.tryFastAppend _ ip len
  appendFromSelf offset len h _ hlen _ := h.appendFromSelf hcapacity _ hlen
  base_le _ hbase := nomatch hbase
  memCopy _ _ hbase := nomatch hbase
  memMove _ _ hbase := nomatch hbase
  copy64_zero hbase := nomatch hbase
  copy64 _ _ hbase := nomatch hbase

theorem holds_start (iov : List (List UInt8)) (n : ℕ) :
    Holds (iov.map List.length) n
      (snappyIOVecWriter.setExpectedLength ⟨iov, 0, 0, (iov.getD 0 []).length, 0, 0⟩ n) [] :=
  ⟨rfl, .inl rfl, Nat.zero_add _, rfl, rfl, Nat.zero_le n, rfl⟩

theorem Holds.flatten_take (h : Holds sizes n s out) : s.iov.flatten.take out.length = out := by
  have hsplit : s.iov.flatten = out ++ (s.mem.drop s.currIovOutput ++ (s.iov.drop (s.currIov + 1)).flatten) := by
    rw [← h.written, List.append_assoc, ← List.append_assoc (s.mem.take _), List.take_append_drop,
      ← List.append_assoc, SnappyIOVecWriter.mem, ← flatten_take_succ, ← List.flatten_append,
      List.take_append_drop]
  rw [hsplit, List.take_left]

end SnappyIOVecWriter

open SnappyIOVecWriter

/-- Buffers that together have room for what a stream declares are filled, one after the other, with what it
stands for, and none of them is left. -/
theorem rawUncompressToIOVec_safe (abi : Abi) (scratch : Vector UInt8 kMaximumTagLength) (reader : Source)
    (iov : List (List UInt8)) (hleft : reader.left.length < 2 ^ 32)
    (hroom : ∀ n, Declares reader.left n → n ≤ iov.flatten.length) :
    ∃ ok iov', rawUncompressToIOVec abi scratch reader iov = some (ok, iov') ∧
      iov'.map List.length = iov.map List.length ∧ (ok = true ↔ ∃ out, Uncompresses reader.left out) ∧
      ∀ out, Uncompresses reader.left out → iov'.flatten.take out.length = out := by
  rw [rawUncompressToIOVec]
  by_cases hdeclared : ∃ n, Declares reader.left n
  · obtain ⟨n, hdeclares⟩ := hdeclared
    have hcapacity : n ≤ (iov.map List.length).sum := by
      rw [← List.length_flatten]
      exact hroom n hdeclares
    obtain ⟨s, op, out, hrun, hholds, hout⟩ | ⟨s, op, hrun, hkept, hnone⟩ := internalUncompress_spec abi
      scratch hdeclares (contract (iov.map List.length) n hcapacity) (holds_start iov n) hleft
    · rw [hrun]
      refine ⟨true, s.iov, rfl, hholds.sizes, iff_of_true rfl ⟨out, hout⟩, ?_⟩
      intro out' hout'
      obtain rfl := hout.unique hout'
      exact hholds.flatten_take
    · rw [hrun]
      refine ⟨false, s.iov, rfl, hkept, iff_of_false Bool.false_ne_true ?_, fun out hout => absurd hout (hnone out)⟩
      rintro ⟨out, hout⟩
      exact hnone out hout
  · obtain ⟨hrun, hnone⟩ := internalUncompress_undeclared (w := snappyIOVecWriter)
      (s := ⟨iov, 0, 0, (iov.getD 0 []).length, 0, 0⟩) abi scratch fun n hn => hdeclared ⟨n, hn⟩
    rw [hrun]
    refine ⟨false, iov, rfl, rfl, iff_of_false Bool.false_ne_true ?_, fun out hout => absurd hout (hnone out)⟩
    rintro ⟨out, hout⟩
    exact hnone out hout

/-- Three bytes of room, none, and two, which the copy has to go over. -/
theorem rawUncompressToIOVec_safe_overlapping :
    ∃ ok iov', rawUncompressToIOVec .x86 (.replicate 5 0) overlapping [[0, 0, 0], [], [0, 0]] = some (ok, iov') ∧
      iov'.map List.length = [3, 0, 2] ∧ (ok = true ↔ ∃ out, Uncompresses overlapping.left out) ∧
      ∀ out, Uncompresses overlapping.left out → iov'.flatten.take out.length = out :=
  rawUncompressToIOVec_safe .x86 (.replicate 5 0) overlapping [[0, 0, 0], [], [0, 0]] (by decide) fun n hn => by
    rw [overlapping_declares hn]
    decide

end EnvironmentCheck.SnappyCodec
