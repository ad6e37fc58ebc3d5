import EnvironmentCheck.Library.BackReference
import Mathlib.Tactic.IntervalCases

namespace EnvironmentCheck.SnappyCodec

open BackReference Buffer

/-- The bytes one by one, as long as `op` is before its limit. -/
def incrementalCopySlow (mem : List UInt8) (src op opLimit : ℕ) : Option (List UInt8) :=
  if _h : op < opLimit then do
    let mem ← move mem src op 1
    incrementalCopySlow mem (src + 1) (op + 1) opLimit
  else some mem
termination_by opLimit - op

def unalignedCopy64 (mem : List UInt8) (src dst : ℕ) : Option (List UInt8) := move mem src dst 8

/-- Without vector instructions, in two halves. -/
def conditionalUnalignedCopy128 (mem : List UInt8) (src dst : ℕ) : Option (List UInt8) := do
  let mem ← unalignedCopy64 mem src dst
  unalignedCopy64 mem (src + 8) (dst + 8)

/-- The pattern is doubled, three times at most, until it has eight bytes. -/
def expandPattern (src : ℕ) : ℕ → List UInt8 → ℕ → ℕ → Option (List UInt8 × ℕ)
  | fuel, mem, op, patternSize =>
    if patternSize < 8 then
      match fuel with
      | 0 => none
      | fuel + 1 => do
        let mem ← unalignedCopy64 mem src op
        expandPattern src fuel mem (op + patternSize) (patternSize * 2)
    else some (mem, op)

/-- The blocks that fit before the end of the buffer. -/
def copyBlocks (bufLimit : ℕ) (mem : List UInt8) (src op : ℕ) : Option (List UInt8 × ℕ × ℕ) :=
  if _h : op + 16 < bufLimit then do
    let mem ← conditionalUnalignedCopy128 mem src op
    copyBlocks bufLimit mem (src + 16) (op + 16)
  else some (mem, src, op)
termination_by bufLimit - op

def copyBlockBefore (opLimit : ℕ) (mem : List UInt8) (src op : ℕ) : Option (List UInt8) :=
  if op < opLimit then conditionalUnalignedCopy128 mem src op else some mem

/-- From where the pattern has eight bytes at least. -/
def incrementalCopyBlocks (mem : List UInt8) (src op opLimit bufLimit : ℕ) :
    Option (List UInt8) := do
  if opLimit + 15 ≤ bufLimit then
    let mem ← conditionalUnalignedCopy128 mem src op
    let mem ← copyBlockBefore opLimit mem (src + 16) (op + 16)
    let mem ← copyBlockBefore opLimit mem (src + 32) (op + 32)
    copyBlockBefore opLimit mem (src + 48) (op + 48)
  else
    let (mem, src, op) ← copyBlocks bufLimit mem src op
    if op ≥ opLimit then return mem
    else if op + 8 ≤ bufLimit then
      let mem ← unalignedCopy64 mem src op
      incrementalCopySlow mem (src + 8) (op + 8) opLimit
    else incrementalCopySlow mem src op opLimit

/-- `IncrementalCopy`, which copies what comes from `src` on to the places from `op` to `opLimit`, and
may store anything between these and the end of the buffer. -/
def incrementalCopy (mem : List UInt8) (src op opLimit bufLimit : ℕ) : Option (List UInt8) :=
  let patternSize := op - src
  if patternSize < 8 then
    if op + 11 ≤ bufLimit then do
      let (mem, op) ← expandPattern src 3 mem op patternSize
      if op ≥ opLimit then return mem else incrementalCopyBlocks mem src op opLimit bufLimit
    else incrementalCopySlow mem src op opLimit
  else incrementalCopyBlocks mem src op opLimit bufLimit

def patternSizes (i : ℕ) : ℕ := (16 / i + 1) * i

/-- `dst[i] = dst[i - offset]` for `left` more indices. -/
def extendBytes (offset : ℕ) : ℕ → List UInt8 → ℕ → Option (List UInt8)
  | 0, mem, _ => some mem
  | left + 1, mem, dst => do
    let mem ← move mem (dst - offset) dst 1
    extendBytes offset left mem (dst + 1)

/-- `left` more blocks of sixteen bytes. -/
def extendBlocks (offset : ℕ) : ℕ → List UInt8 → ℕ → Option (List UInt8)
  | 0, mem, _ => some mem
  | left + 1, mem, dst => do
    let mem ← move mem (dst - offset) dst 16
    extendBlocks offset left mem (dst + 16)

/-- `Copy64BytesWithPatternExtension`, without vector instructions. -/
def copy64BytesWithPatternExtension (mem : List UInt8) (dst offset : ℕ) :
    Option (Bool × List UInt8) := do
  if offset < 16 then
    if offset = 0 then return (false, mem)
    else
      let mem ← extendBytes offset 16 mem dst
      return (true, ← extendBlocks (patternSizes offset) 3 mem (dst + 16))
  else return (true, ← extendBlocks offset 4 mem dst)

variable {mem mem' : List UInt8} {offset start limit src op opLimit n : ℕ}

/-- What has been filled up to `op`, and a source from which it can go on. -/
structure Filling (offset start limit : ℕ) (mem : List UInt8) (src op : ℕ) (mem' : List UInt8) :
    Prop where
  filled : Filled offset start limit mem op mem'
  begun : start ≤ op
  back : offset ∣ op - src
  earlier : src < op
  source : start ≤ src + offset

theorem Filling.move (h : Filling offset start limit mem src op mem') (hoffset : offset ≤ start)
    (hop : op + n ≤ limit) (hlimit : limit ≤ mem.length) (hn : n ≤ op - src) :
    ∃ mem'', Buffer.move mem' src op n = some mem'' ∧
      Filling offset start limit mem (src + n) (op + n) mem'' := by
  have hearlier := h.earlier
  obtain ⟨mem'', hmove, hfilled⟩ :=
    h.filled.move h.begun hoffset h.back hearlier h.source hop hlimit
  rw [Nat.min_eq_left hn] at hfilled
  refine ⟨mem'', hmove, hfilled, h.begun.trans (Nat.le_add_right op n), ?_, by omega,
    h.source.trans (by omega)⟩
  rw [Nat.add_sub_add_right]
  exact h.back

theorem incrementalCopySlow_filled (h : Filling offset start limit mem src op mem')
    (hoffset : offset ≤ start) (hop : opLimit ≤ limit) (hlimit : limit ≤ mem.length) :
    ∃ mem'', incrementalCopySlow mem' src op opLimit = some mem'' ∧
      Filled offset start limit mem opLimit mem'' := by
  induction hn : opLimit - op generalizing src op mem' with
  | zero =>
    rw [incrementalCopySlow, dif_neg (by omega)]
    exact ⟨mem', rfl, h.filled.mono (by omega)⟩
  | succ n ih =>
    have hearlier := h.earlier
    obtain ⟨mem'', hmove, hnext⟩ := h.move (n := 1) hoffset (by omega) hlimit (by omega)
    rw [incrementalCopySlow, dif_pos (by omega), hmove]
    exact ih hnext (by omega)

theorem unalignedCopy128_filling (h : Filling offset start limit mem src op mem')
    (hoffset : offset ≤ start) (hop : op + 16 ≤ limit) (hlimit : limit ≤ mem.length)
    (hfar : 8 ≤ op - src) :
    ∃ mem'', conditionalUnalignedCopy128 mem' src op = some mem'' ∧
      Filling offset start limit mem (src + 16) (op + 16) mem'' := by
  obtain ⟨mem1, hmove1, h1⟩ := h.move (n := 8) hoffset (by omega) hlimit hfar
  obtain ⟨mem2, hmove2, h2⟩ := h1.move (n := 8) hoffset (by omega) hlimit (by omega)
  rw [conditionalUnalignedCopy128, unalignedCopy64, hmove1]
  exact ⟨mem2, hmove2, h2⟩

theorem copyBlocks_filling (h : Filling offset start limit mem src op mem')
    (hoffset : offset ≤ start) (hlimit : limit ≤ mem.length) (hfar : 8 ≤ op - src) :
    ∃ mem'' src' op', copyBlocks limit mem' src op = some (mem'', src', op') ∧
      Filling offset start limit mem src' op' mem'' ∧ 8 ≤ op' - src' := by
  induction hn : limit - op using Nat.strong_induction_on generalizing src op mem' with
  | h n ih =>
    rw [copyBlocks]
    split_ifs with hroom
    · obtain ⟨mem1, hcopy, h1⟩ := unalignedCopy128_filling h hoffset (by omega) hlimit hfar
      rw [hcopy]
      exact ih (limit - (op + 16)) (by omega) h1 (by omega) rfl
    · exact ⟨mem', src, op, rfl, h, hfar⟩

/-- One of the four blocks, which is left out where the copy has come to its end. -/
theorem block_filled (opLimit n : ℕ) (h : Filling offset start limit mem (src + n) (op + n) mem' ∨
      opLimit ≤ op + n ∧ Filled offset start limit mem opLimit mem')
    (hoffset : offset ≤ start) (hop : opLimit + 15 ≤ limit) (hlimit : limit ≤ mem.length)
    (hfar : 8 ≤ op - src) :
    ∃ mem'', copyBlockBefore opLimit mem' (src + n) (op + n) = some mem'' ∧
      (Filling offset start limit mem (src + (n + 16)) (op + (n + 16)) mem'' ∨
        opLimit ≤ op + (n + 16) ∧ Filled offset start limit mem opLimit mem'') := by
  rw [copyBlockBefore]
  split_ifs with hmore
  · obtain hfilling | ⟨hend, -⟩ := h
    · obtain ⟨mem'', hcopy, hnext⟩ :=
        unalignedCopy128_filling hfilling hoffset (by omega) hlimit (by omega)
      exact ⟨mem'', hcopy, .inl hnext⟩
    · omega
  · obtain hfilling | ⟨hend, hfilled⟩ := h
    · exact ⟨mem', rfl, .inr ⟨by omega, hfilling.filled.mono (by omega)⟩⟩
    · exact ⟨mem', rfl, .inr ⟨by omega, hfilled⟩⟩

theorem incrementalCopyBlocks_filled (h : Filling offset start limit mem src op mem')
    (hoffset : offset ≤ start) (hop : opLimit ≤ limit) (hlimit : limit ≤ mem.length)
    (hfar : 8 ≤ op - src) (hshort : opLimit ≤ op + 64) (hmore : op < opLimit) :
    ∃ mem'', incrementalCopyBlocks mem' src op opLimit limit = some mem'' ∧
      Filled offset start limit mem opLimit mem'' := by
  rw [incrementalCopyBlocks]
  split_ifs with hroom
  · obtain ⟨mem1, hcopy, h1⟩ := unalignedCopy128_filling h hoffset (by omega) hlimit hfar
    obtain ⟨mem2, hcopy2, h2⟩ := block_filled opLimit 16 (.inl h1) hoffset hroom hlimit hfar
    obtain ⟨mem3, hcopy3, h3⟩ := block_filled opLimit 32 h2 hoffset hroom hlimit hfar
    obtain ⟨mem4, hcopy4, h4⟩ := block_filled opLimit 48 h3 hoffset hroom hlimit hfar
    simp only [hcopy, hcopy2, hcopy3, Option.bind_eq_bind, Option.bind_some]
    refine ⟨mem4, hcopy4, ?_⟩
    obtain hfilling | ⟨-, hfilled⟩ := h4
    · exact hfilling.filled.mono hshort
    · exact hfilled
  · obtain ⟨mem1, src1, op1, hblocks, h1, hfar1⟩ := copyBlocks_filling h hoffset hlimit hfar
    simp only [hblocks, Option.bind_eq_bind, Option.bind_some]
    split_ifs with hend hlast
    · exact ⟨mem1, rfl, h1.filled.mono hend⟩
    · obtain ⟨mem2, hmove, h2⟩ := h1.move (n := 8) hoffset hlast hlimit hfar1
      rw [unalignedCopy64, hmove]
      exact incrementalCopySlow_filled h2 hoffset hop hlimit
    · exact incrementalCopySlow_filled h1 hoffset hop hlimit

/-- The doubled pattern reaches eleven bytes past the beginning, at most. -/
theorem expandPattern_filling {fuel patternSize : ℕ} (h : Filled offset start limit mem op mem')
    (hpos : 0 < offset) (hsrc : src + offset = start) (hop : op = src + patternSize)
    (hdouble : patternSize * 2 ^ fuel = offset * 8) (hroom : start + 11 ≤ limit)
    (hlimit : limit ≤ mem.length) (hfuel : fuel ≤ 3) :
    ∃ mem'' op', expandPattern src fuel mem' op patternSize = some (mem'', op') ∧
      Filling offset start limit mem src op' mem'' ∧ 8 ≤ op' - src ∧ op ≤ op' := by
  have hdvd : offset ∣ patternSize := by
    interval_cases fuel
    · exact ⟨8, by omega⟩
    · exact ⟨4, by omega⟩
    · exact ⟨2, by omega⟩
    · exact ⟨1, by omega⟩
  have hlarge : offset ≤ patternSize := by interval_cases fuel <;> omega
  have hfilling : Filling offset start limit mem src op mem' :=
    ⟨h, by omega, by rwa [hop, Nat.add_sub_cancel_left], by omega, hsrc.ge⟩
  induction fuel generalizing mem' op patternSize with
  | zero =>
    rw [expandPattern, if_neg (by omega)]
    exact ⟨mem', op, rfl, hfilling, by omega, le_rfl⟩
  | succ fuel ih =>
    rw [expandPattern]
    split_ifs with hsmall
    · have hfits : op + 8 ≤ limit := by
        obtain rfl | rfl | rfl : fuel = 0 ∨ fuel = 1 ∨ fuel = 2 := by omega
        · omega
        · omega
        · omega
      obtain ⟨mem1, hmove, h1⟩ := h.move (by omega) (by omega) hfilling.back hfilling.earlier
        hsrc.ge hfits hlimit
      have hdistance : min 8 (op - src) = patternSize := by omega
      rw [hdistance] at h1
      have hpow : patternSize * 2 * 2 ^ fuel = offset * 8 := by
        rw [mul_assoc, ← pow_succ', hdouble]
      have hdvd' : offset ∣ patternSize * 2 := hdvd.mul_right 2
      have hfilling1 : Filling offset start limit mem src (op + patternSize) mem1 :=
        ⟨h1, by omega, by
          rw [hop, Nat.add_assoc, Nat.add_sub_cancel_left, ← mul_two]
          exact hdvd', by omega, hsrc.ge⟩
      obtain ⟨mem2, op2, hexpand, h2, hfar, hlater⟩ :=
        ih h1 (by omega) hpow (by omega) hdvd' (by omega) hfilling1
      simp only [unalignedCopy64, hmove, Option.bind_eq_bind, Option.bind_some]
      exact ⟨mem2, op2, hexpand, h2, hfar, by omega⟩
    · exact ⟨mem', op, rfl, hfilling, by omega, le_rfl⟩

theorem incrementalCopy_filled (hpos : 0 < offset) (hoffset : offset ≤ op) (hmore : op < opLimit)
    (hshort : opLimit ≤ op + 64) (hop : opLimit ≤ limit) (hlimit : limit ≤ mem.length) :
    ∃ mem', incrementalCopy mem (op - offset) op opLimit limit = some mem' ∧
      Filled offset op limit mem opLimit mem' := by
  have hstart : Filling offset op limit mem (op - offset) op mem :=
    ⟨filled_start offset op limit mem, le_rfl, by rw [Nat.sub_sub_self hoffset], by omega, by omega⟩
  have hpattern : op - (op - offset) = offset := Nat.sub_sub_self hoffset
  rw [incrementalCopy, hpattern]
  split_ifs with hsmall hroom
  · obtain ⟨mem1, op1, hexpand, h1, hfar, hlater⟩ := expandPattern_filling
      (filled_start offset op limit mem) hpos (Nat.sub_add_cancel hoffset)
      (Nat.sub_add_cancel hoffset).symm rfl hroom hlimit le_rfl
    simp only [hexpand, Option.bind_eq_bind, Option.bind_some]
    split_ifs with hend
    · exact ⟨mem1, rfl, h1.filled.mono hend⟩
    · exact incrementalCopyBlocks_filled h1 hoffset hop hlimit hfar (by omega) (by omega)
  · exact incrementalCopySlow_filled hstart hoffset hop hlimit
  · exact incrementalCopyBlocks_filled hstart hoffset hop hlimit (by omega) hshort hmore

theorem extendBytes_filled {dst left : ℕ} (h : Filled offset start limit mem dst mem')
    (hstart : start ≤ dst) (hpos : 0 < offset) (hoffset : offset ≤ start) (hdst : dst + left ≤ limit)
    (hlimit : limit ≤ mem.length) :
    ∃ mem'', extendBytes offset left mem' dst = some mem'' ∧
      Filled offset start limit mem (dst + left) mem'' := by
  induction left generalizing mem' dst with
  | zero => exact ⟨mem', rfl, h⟩
  | succ left ih =>
    have hback : dst - (dst - offset) = offset := Nat.sub_sub_self (hoffset.trans hstart)
    have hdvd : offset ∣ dst - (dst - offset) := hback.symm ▸ dvd_refl offset
    obtain ⟨mem1, hmove, h1⟩ := h.move hstart hoffset hdvd (by omega) (by omega)
      (show dst + 1 ≤ limit by omega) hlimit
    rw [hback, Nat.min_eq_left (by omega)] at h1
    obtain ⟨mem2, hrest, h2⟩ := ih h1 (by omega) (by omega)
    rw [extendBytes, hmove]
    rw [Nat.add_right_comm] at h2
    exact ⟨mem2, hrest, h2⟩

theorem extendBlocks_filled {d dst left : ℕ} (h : Filled offset start limit mem dst mem')
    (hstart : start + d ≤ dst + offset) (hbegun : start ≤ dst) (hoffset : offset ≤ start)
    (hdvd : offset ∣ d) (hd : 16 ≤ d) (hdst : dst + 16 * left ≤ limit)
    (hlimit : limit ≤ mem.length) :
    ∃ mem'', extendBlocks d left mem' dst = some mem'' ∧
      Filled offset start limit mem (dst + 16 * left) mem'' := by
  induction left generalizing mem' dst with
  | zero => exact ⟨mem', rfl, h⟩
  | succ left ih =>
    have hback : dst - (dst - d) = d := Nat.sub_sub_self (by omega)
    have hdvd' : offset ∣ dst - (dst - d) := hback.symm ▸ hdvd
    obtain ⟨mem1, hmove, h1⟩ := h.move hbegun hoffset hdvd' (by omega) (by omega)
      (show dst + 16 ≤ limit by omega) hlimit
    rw [hback, Nat.min_eq_left hd] at h1
    obtain ⟨mem2, hrest, h2⟩ := ih h1 (by omega) (by omega) (by omega)
    rw [extendBlocks, hmove]
    have hsum : dst + 16 + 16 * left = dst + 16 * (left + 1) := by omega
    rw [hsum] at h2
    exact ⟨mem2, hrest, h2⟩

theorem patternSizes_spec (hpos : 0 < offset) :
    offset ∣ patternSizes offset ∧ 16 ≤ patternSizes offset ∧ patternSizes offset ≤ 16 + offset := by
  have hdiv := Nat.div_add_mod 16 offset
  have hmod := Nat.mod_lt 16 hpos
  have hsizes : patternSizes offset = offset * (16 / offset) + offset := by
    rw [patternSizes, Nat.succ_mul, mul_comm]
  exact ⟨dvd_mul_left offset _, by omega, by omega⟩

theorem copy64_filled (hpos : 0 < offset) (hoffset : offset ≤ start) (hroom : start + 64 ≤ limit)
    (hlimit : limit ≤ mem.length) :
    ∃ mem', copy64BytesWithPatternExtension mem start offset = some (true, mem') ∧
      Filled offset start limit mem (start + 64) mem' := by
  have hstart := filled_start offset start limit mem
  rw [copy64BytesWithPatternExtension]
  by_cases hsmall : offset < 16
  · obtain ⟨hdvd, hlarge, hnear⟩ := patternSizes_spec hpos
    obtain ⟨mem1, hbytes, h1⟩ :=
      extendBytes_filled hstart le_rfl hpos hoffset (show start + 16 ≤ limit by omega) hlimit
    obtain ⟨mem2, hblocks, h2⟩ := extendBlocks_filled h1 (by omega) (by omega) hoffset
      hdvd hlarge (show start + 16 + 16 * 3 ≤ limit by omega) hlimit
    simp only [if_pos hsmall, if_neg hpos.ne', hbytes, hblocks, Option.bind_eq_bind, Option.bind_some]
    exact ⟨mem2, rfl, h2⟩
  · obtain ⟨mem1, hblocks, h1⟩ := extendBlocks_filled hstart le_rfl le_rfl hoffset dvd_rfl
      (by omega) (show start + 16 * 4 ≤ limit by omega) hlimit
    simp only [if_neg hsmall, hblocks, Option.bind_eq_bind, Option.bind_some]
    exact ⟨mem1, rfl, h1⟩

/-- In blocks or byte by byte, the copy is the one of the format, and both stay before the end of the
buffer. -/
theorem incrementalCopy_agrees (hpos : 0 < offset) (hoffset : offset ≤ op) {len : ℕ} (hlen : 0 < len)
    (hlen' : len ≤ 64) (hop : op + len ≤ limit) (hlimit : limit ≤ mem.length) :
    ∃ fast slow, incrementalCopy mem (op - offset) op (op + len) limit = some fast ∧
      incrementalCopySlow mem (op - offset) op (op + len) = some slow ∧
      fast.take (op + len) = extend offset len (mem.take op) ∧ fast.take (op + len) = slow.take (op + len) ∧
      fast.length = mem.length ∧ fast.drop limit = mem.drop limit := by
  obtain ⟨fast, hfast, hfilled⟩ :=
    incrementalCopy_filled hpos hoffset (Nat.lt_add_of_pos_right hlen) (Nat.add_le_add_left hlen' op) hop hlimit
  have hstart : Filling offset op limit mem (op - offset) op mem :=
    ⟨filled_start offset op limit mem, le_rfl, by rw [Nat.sub_sub_self hoffset], by omega, by omega⟩
  obtain ⟨slow, hslow, hfilled'⟩ := incrementalCopySlow_filled hstart hoffset hop hlimit
  have heq := hfilled.take_eq hpos hoffset (hop.trans hlimit)
  refine ⟨fast, slow, hfast, hslow, heq, ?_, hfilled.size, hfilled.after⟩
  rw [heq, hfilled'.take_eq hpos hoffset (hop.trans hlimit)]

theorem incrementalCopy_agrees_pattern :
    let mem : List UInt8 := [1, 2, 3] ++ List.replicate 60 0
    ∃ fast slow, incrementalCopy mem (3 - 3) 3 (3 + 40) 63 = some fast ∧
      incrementalCopySlow mem (3 - 3) 3 (3 + 40) = some slow ∧
      fast.take (3 + 40) = extend 3 40 (mem.take 3) ∧ fast.take (3 + 40) = slow.take (3 + 40) ∧
      fast.length = mem.length ∧ fast.drop 63 = mem.drop 63 :=
  incrementalCopy_agrees (by decide) (by decide) (by decide) (by decide) (by decide) (by decide)

end EnvironmentCheck.SnappyCodec
