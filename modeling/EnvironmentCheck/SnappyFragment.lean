import EnvironmentCheck.SnappyEmit

namespace EnvironmentCheck.SnappyCodec

open BackReference Buffer LittleEndian

def kBlockSize : ℕ := 1 <<< 16

def kMinHashTableSize : ℕ := 1 <<< 8

def kMaxHashTableBits : ℕ := 14

def kMaxHashTableSize : ℕ := 1 <<< kMaxHashTableBits

def kInputMarginBytes : ℕ := 15

def maxCompressedLength (sourceBytes : ℕ) : ℕ := 32 + sourceBytes + sourceBytes / 6

/-- On an argument that is narrowed to 32 bits. -/
def hashBytes (bytes mask : ℕ) : ℕ :=
  (0x1e35a7bd * (bytes % 2 ^ 32) % 2 ^ 32) >>> (32 - kMaxHashTableBits) &&& mask

def calculateTableSize (inputSize : ℕ) : ℕ :=
  if inputSize > kMaxHashTableSize then kMaxHashTableSize
  else if inputSize < kMinHashTableSize then kMinHashTableSize
  else 2 <<< log2FloorNonZero (inputSize - 1)

/-- The position that the table holds for these bytes, which gives way to this one. -/
def replaceCandidate (table : List UInt16) (bytes mask position : ℕ) : Option (ℕ × List UInt16) := do
  let hash := hashBytes bytes mask
  let candidate ← table[hash]?
  return (candidate.toNat, table.set hash (.ofNat position))

/-- Four bytes at `ip` that occur at `candidate`, too. -/
structure Found where
  ip : ℕ
  candidate : ℕ
  data : ℕ
  table : List UInt16

/-- The unrolled loop from the iteration `i` on, of which `left` are to come; where nothing is found,
the word at its end and the table. -/
def scanUnrolled (input : List UInt8) (mask preload ip : ℕ) :
    ℕ → ℕ → List UInt16 → Option (Found ⊕ (ℕ × List UInt16))
  | 0, data, table => some (.inr (data, table))
  | left + 1, data, table => do
    let i := 15 - left
    let dword := if i = 0 then preload else data % 2 ^ 32
    let (candidate, table) ← replaceCandidate table dword mask (ip + i)
    if (← load32 input candidate) = dword then return .inl ⟨ip + i, candidate, data, table⟩
    else
      let data ← if i % 4 = 3 then load64 input (ip + 4 * (i / 4) + 4) else pure (data >>> 8)
      scanUnrolled input mask preload ip left data table

/-- `skip` counts the bytes since the last match, and is never below 32. -/
def scanSkipping (input : List UInt8) (mask ipLimit : ℕ) :
    ℕ → ℕ → ℕ → ℕ → List UInt16 → Option (Option Found)
  | 0, _, _, _, _ => none
  | fuel + 1, ip, skip, data, table => do
    let bytesBetweenHashLookups := skip >>> 5
    let nextIp := ip + bytesBetweenHashLookups
    if nextIp > ipLimit then return none
    else
      let (candidate, table) ← replaceCandidate table data mask ip
      if data % 2 ^ 32 = (← load32 input candidate) then return some ⟨ip, candidate, data, table⟩
      else
        scanSkipping input mask ipLimit fuel nextIp (skip + bytesBetweenHashLookups)
          (← load32 input nextIp) table

/-- What the destination holds when the compressor has come to `ip`. -/
structure Progress where
  dest : List UInt8
  op : ℕ
  ip : ℕ

/-- The loop at `emit_match`: either it goes on with the main loop, for which it leaves a word and the
table, or it is close to the end of the input. -/
def emitMatches (abi : Abi) (input : List UInt8) (mask ipLimit : ℕ) :
    ℕ → List UInt8 → ℕ → Found → Option (Progress × Option (ℕ × List UInt16))
  | 0, _, _, _ => none
  | fuel + 1, dest, op, ⟨ip, candidate, data, table⟩ => do
    let base := ip
    let p ← findMatchLength abi input (candidate + 4) (ip + 4) input.length data
    let matched := 4 + p.matched
    let ip := ip + matched
    let offset := base - candidate
    let (dest, op) ← emitCopy p.short dest op offset matched
    if ip ≥ ipLimit then return (⟨dest, op, ip⟩, none)
    else
      let (_, table) ← replaceCandidate table (← load32 input (ip - 1)) mask (ip - 1)
      let (candidate, table) ← replaceCandidate table p.data mask ip
      if p.data % 2 ^ 32 = (← load32 input candidate) then
        emitMatches abi input mask ipLimit fuel dest op ⟨ip, candidate, p.data, table⟩
      else return (⟨dest, op, ip⟩, some (p.data >>> 8 % 2 ^ 32, table))

/-- The next match, and whether the unrolled loop has found it. -/
def scanForward (input : List UInt8) (mask ipLimit preload ip data : ℕ) (table : List UInt16) :
    Option (Option (Bool × Found)) := do
  let skip := 32
  if ip + 16 ≤ ipLimit then
    match ← scanUnrolled input mask preload ip 16 data table with
    | .inl found => return some (true, found)
    | .inr (data, table) =>
      let found ← scanSkipping input mask ipLimit input.length (ip + 16) (skip + 16) data table
      return found.map (Prod.mk false)
  else
    let found ← scanSkipping input mask ipLimit input.length ip skip data table
    return found.map (Prod.mk false)

/-- The unrolled loop emits its short literal itself. -/
def emitFront (unrolled : Bool) (dest : List UInt8) (op : ℕ) (input : List UInt8)
    (nextEmit ip : ℕ) : Option Output := do
  if unrolled then
    let i := ip - (nextEmit + 1)
    let dest ← emitShort dest op input nextEmit i
    return (dest, op + i + 2)
  else emitLiteral true dest op input nextEmit (ip - nextEmit)

/-- The main loop, which ends where the remainder has to be emitted. -/
def compressLoop (abi : Abi) (input : List UInt8) (mask ipLimit : ℕ) :
    ℕ → ℕ → Progress → List UInt16 → Option Progress
  | 0, _, _, _ => none
  | fuel + 1, preload, ⟨dest, op, nextEmit⟩, table => do
    let ip := nextEmit + 1
    let data ← load64 input ip
    match ← scanForward input mask ipLimit preload ip data table with
    | none => return ⟨dest, op, nextEmit⟩
    | some (unrolled, found) =>
      let (dest, op) ← emitFront unrolled dest op input nextEmit found.ip
      let (progress, more) ← emitMatches abi input mask ipLimit input.length dest op found
      match more with
      | none => return progress
      | some (preload, table) => compressLoop abi input mask ipLimit fuel preload progress table

/-- What comes before `emit_remainder`. -/
def compressMatches (abi : Abi) (input dest : List UInt8) (op : ℕ) (table : List UInt16)
    (mask : ℕ) : Option Progress :=
  if input.length ≥ kInputMarginBytes then do
    let ipLimit := input.length - kInputMarginBytes
    compressLoop abi input mask ipLimit input.length (← load32 input 1) ⟨dest, op, 0⟩ table
  else some ⟨dest, op, 0⟩

/-- `CompressFragment`, which stores the compressed input from `op` on. -/
def compressFragment (abi : Abi) (input dest : List UInt8) (op : ℕ) (table : List UInt16)
    (tableSize : ℕ) : Option Output := do
  let ⟨dest, op, ip⟩ ← compressMatches abi input dest op table (tableSize - 1)
  if ip < input.length then emitLiteral false dest op input ip (input.length - ip)
  else return (dest, op)

variable {input front dest : List UInt8} {table : List UInt16} {found : Found}
  {mask ipLimit bound op p ip data preload skip fuel left m n : ℕ}

/-- The low `n` bytes of the word are those at `p`. -/
def Carries (input : List UInt8) (p data n : ℕ) : Prop :=
  p + n ≤ input.length ∧ data % 256 ^ n = value ((input.drop p).take n)

theorem carries_load64 (h : load64 input p = some data) : Carries input p data 8 := by
  obtain ⟨xs, hload, rfl⟩ := load64_eq_some.mp h
  obtain ⟨hfits, rfl⟩ := load_eq_some.mp hload
  exact ⟨hfits, Nat.mod_eq_of_lt (value_load_lt hload)⟩

theorem Carries.mono (h : Carries input p data n) (hm : m ≤ n) : Carries input p data m := by
  obtain ⟨hfits, hdata⟩ := h
  refine ⟨by omega, ?_⟩
  have hmod := congrArg (· % 256 ^ m) hdata
  simp only [Nat.mod_mod_of_dvd data (pow_dvd_pow 256 hm), ← value_take] at hmod
  rwa [List.take_take, Nat.min_eq_left hm] at hmod

theorem Carries.shift (h : Carries input p data (n + 1)) : Carries input (p + 1) (data >>> 8) n := by
  obtain ⟨hfits, hdata⟩ := h
  refine ⟨by omega, ?_⟩
  have hdrop := value_drop ((input.drop p).take (n + 1)) 1
  rw [← hdata, pow_succ', pow_one, Nat.mod_mul_right_div_self, List.drop_take, List.drop_drop,
    Nat.add_sub_cancel] at hdrop
  rw [Nat.shiftRight_eq_div_pow]
  exact hdrop.symm

theorem Carries.load32 (h : Carries input p data 4) :
    SnappyCodec.load32 input p = some (data % 2 ^ 32) := by
  have hpow : 2 ^ 32 = 256 ^ 4 := rfl
  rw [SnappyCodec.load32, load_of_le h.1, Option.map_some, hpow, h.2]

/-- Every entry lies before `bound`, and there is one for every value of the hash function. -/
structure TableBelow (mask bound : ℕ) (table : List UInt16) : Prop where
  covers : mask < table.length
  below : ∀ e ∈ table, e.toNat < bound

theorem TableBelow.mono (h : TableBelow mask bound table) (hm : bound ≤ m) :
    TableBelow mask m table :=
  ⟨h.covers, fun e he => (h.below e he).trans_le hm⟩

/-- Whatever the hash function, the candidate lies before every position that is yet to come. -/
theorem replaceCandidate_before (h : TableBelow mask bound table) (bytes : ℕ) (hp : p < 65536)
    (hm : p < m) (hbound : bound ≤ m) :
    ∃ candidate table', replaceCandidate table bytes mask p = some (candidate, table') ∧
      candidate < bound ∧ TableBelow mask m table' := by
  have hhash : hashBytes bytes mask < table.length := Nat.and_le_right.trans_lt h.covers
  refine ⟨_, table.set (hashBytes bytes mask) (.ofNat p), ?_,
    h.below _ (List.getElem_mem hhash), ?_, ?_⟩
  · rw [replaceCandidate, List.getElem?_eq_getElem hhash]
    rfl
  · rw [List.length_set]
    exact h.covers
  · intro e he
    obtain hold | rfl := List.mem_or_eq_of_mem_set he
    · exact (h.below e hold).trans_le hbound
    · rw [UInt16.toNat_ofNat']
      omega

structure IsFound (input : List UInt8) (mask ipLimit : ℕ) (found : Found) : Prop where
  earlier : found.candidate < found.ip
  within : found.ip < ipLimit
  same : ∀ i < 4, input[found.candidate + i]? = input[found.ip + i]?
  below : TableBelow mask (found.ip + 1) found.table

theorem same_of_load32 {q v : ℕ} (hp : load32 input p = some v) (hq : load32 input q = some v) :
    ∀ i < 4, input[p + i]? = input[q + i]? := by
  obtain ⟨xs, hxs, hv⟩ := load32_eq_some.mp hp
  obtain ⟨ys, hys, rfl⟩ := load32_eq_some.mp hq
  exact fun i hi => same_of_value hxs hys hv hi

theorem exists_load32_of_le (h : p + 4 ≤ input.length) : ∃ v, load32 input p = some v := by
  obtain ⟨xs, -, hxs⟩ := exists_load32 h
  exact ⟨_, hxs⟩

theorem exists_load64_of_le (h : p + 8 ≤ input.length) : ∃ v, load64 input p = some v := by
  obtain ⟨xs, -, hxs⟩ := exists_load64 h
  exact ⟨_, hxs⟩

/-- What the unrolled loop comes to: a match, or sixteen positions further on. -/
def Unrolled (input : List UInt8) (mask ipLimit ip : ℕ) : Found ⊕ (ℕ × List UInt16) → Prop
  | .inl found => IsFound input mask ipLimit found ∧ ip ≤ found.ip ∧ found.ip < ip + 16
  | .inr (data, table) => Carries input (ip + 16) data 8 ∧ TableBelow mask (ip + 16) table

theorem scanUnrolled_unrolled (hlimit : ipLimit + 15 = input.length) (hsize : input.length ≤ 65536)
    (hip : ip + 16 ≤ ipLimit) (hleft : left ≤ 16) (hpre : load32 input ip = some preload)
    (hdata : Carries input (ip + (16 - left)) data (8 - (16 - left) % 4))
    (htable : TableBelow mask (ip + (16 - left)) table) :
    ∃ r, scanUnrolled input mask preload ip left data table = some r ∧
      Unrolled input mask ipLimit ip r := by
  induction left generalizing data table with
  | zero => exact ⟨_, rfl, hdata, htable⟩
  | succ left ih =>
    have hi : 16 - (left + 1) = 15 - left := by omega
    have hnext : 16 - left = 15 - left + 1 := by omega
    rw [hi] at hdata htable
    rw [hnext] at ih
    generalize hiteration : 15 - left = i at hdata htable ih
    have hword := (hdata.mono (m := 4) (by omega)).load32
    have hdword : load32 input (ip + i) = some (if i = 0 then preload else data % 2 ^ 32) := by
      split_ifs with hzero
      · rw [hzero, Nat.add_zero, hpre]
      · exact hword
    obtain ⟨candidate, table', hreplace, hbefore, hbelow⟩ :=
      replaceCandidate_before htable (if i = 0 then preload else data % 2 ^ 32) (p := ip + i)
        (m := ip + (i + 1)) (by omega) (by omega) (by omega)
    obtain ⟨w, hw⟩ := exists_load32_of_le (show candidate + 4 ≤ input.length by omega)
    rw [scanUnrolled, hiteration]
    simp only [hreplace, hw, Option.bind_eq_bind, Option.bind_some]
    by_cases hsame : w = if i = 0 then preload else data % 2 ^ 32
    · rw [if_pos hsame]
      refine ⟨_, rfl, ⟨hbefore, by dsimp only; omega, ?_, hbelow⟩, by dsimp only; omega,
        by dsimp only; omega⟩
      rw [hsame] at hw
      exact same_of_load32 hw hdword
    · rw [if_neg hsame]
      by_cases hlast : i % 4 = 3
      · have hgroup : ip + 4 * (i / 4) + 4 = ip + (i + 1) := by omega
        obtain ⟨v, hv⟩ := exists_load64_of_le (show ip + (i + 1) + 8 ≤ input.length by omega)
        rw [if_pos hlast, hgroup, hv]
        exact ih (by omega) ((carries_load64 hv).mono (by omega)) hbelow
      · rw [if_neg hlast]
        apply ih (by omega) _ hbelow
        have hrest : 8 - i % 4 = 8 - (i + 1) % 4 + 1 := by omega
        rw [hrest] at hdata
        exact hdata.shift

/-- The skip is at least one byte, so that the loop ends. -/
theorem scanSkipping_found (hlimit : ipLimit + 15 = input.length) (hsize : input.length ≤ 65536)
    (hfuel : ipLimit - ip < fuel) (hskip : 32 ≤ skip) (hword : load32 input ip = some (data % 2 ^ 32))
    (htable : TableBelow mask ip table) :
    ∃ r, scanSkipping input mask ipLimit fuel ip skip data table = some r ∧
      ∀ found, r = some found → IsFound input mask ipLimit found ∧ ip ≤ found.ip := by
  induction fuel generalizing ip skip data table with
  | zero => exact absurd hfuel (Nat.not_lt_zero _)
  | succ fuel ih =>
    have hstep : 0 < skip >>> 5 := by
      rw [Nat.shiftRight_eq_div_pow]
      omega
    rw [scanSkipping]
    by_cases hend : ip + skip >>> 5 > ipLimit
    · simp only [if_pos hend]
      exact ⟨none, rfl, fun _ h => absurd h.symm (Option.some_ne_none _)⟩
    · obtain ⟨candidate, table', hreplace, hbefore, hbelow⟩ :=
        replaceCandidate_before htable data (p := ip) (m := ip + 1) (by omega) (by omega) (by omega)
      obtain ⟨w, hw⟩ := exists_load32_of_le (show candidate + 4 ≤ input.length by omega)
      simp only [if_neg hend, hreplace, hw, Option.bind_eq_bind, Option.bind_some]
      by_cases hsame : data % 2 ^ 32 = w
      · rw [if_pos hsame]
        refine ⟨_, rfl, ?_⟩
        rintro _ ⟨⟩
        rw [hsame] at hword
        exact ⟨⟨hbefore, by dsimp only; omega, same_of_load32 hw hword, hbelow⟩, le_rfl⟩
      · obtain ⟨v, hv⟩ :=
          exists_load32_of_le (show ip + skip >>> 5 + 4 ≤ input.length by omega)
        have hlow : v % 2 ^ 32 = v := by
          obtain ⟨xs, hxs, rfl⟩ := load32_eq_some.mp hv
          exact Nat.mod_eq_of_lt (value_load_lt hxs)
        rw [if_neg hsame, hv, Option.bind_some]
        have hnext : load32 input (ip + skip >>> 5) = some (v % 2 ^ 32) := by rw [hlow, hv]
        obtain ⟨r, hr, hfound⟩ := ih (by omega) (show 32 ≤ skip + skip >>> 5 by omega) hnext
          (hbelow.mono (by omega))
        refine ⟨r, hr, ?_⟩
        intro found h
        obtain ⟨hisFound, hlater⟩ := hfound found h
        exact ⟨hisFound, by omega⟩

/-- A sixtieth for the tags, and 22 bytes for what is stored past the end of a literal. -/
def fragmentRoom (n : ℕ) : ℕ := n + n / 60 + 22

/-- What has been stored from `op` on stands for the input up to `ip`, after what is in front of it,
and is longer than that by at most a sixtieth and what is granted here. -/
def Reached (input front dest : List UInt8) (op granted : ℕ) (p : Progress) : Prop :=
  ∃ emitted, Emits dest op emitted (p.dest, p.op) ∧
    Decodes emitted front (front ++ input.take p.ip) ∧ 60 * emitted.length ≤ 61 * p.ip + granted

theorem take_front (front input : List UInt8) (n : ℕ) :
    (front ++ input).take (front.length + n) = front ++ input.take n := by
  rw [List.take_length_add_append]

theorem getElem?_front (front input : List UInt8) (n : ℕ) : (front ++ input)[front.length + n]? = input[n]? := by
  rw [List.getElem?_append_right (Nat.le_add_right _ n), Nat.add_sub_cancel_left]

theorem Reached.literal {p : Progress} (h : Reached input front dest op 0 p) {r : Output}
    {emitted : List UInt8} {len : ℕ} (hemits : Emits p.dest p.op emitted r)
    (hencodes : Encodes emitted (.literal ((input.drop p.ip).take len)))
    (hlength : 60 * emitted.length ≤ 61 * len + 60) :
    Reached input front dest op 60 ⟨r.1, r.2, p.ip + len⟩ := by
  obtain ⟨before, hbefore, hdecodes, hsize⟩ := h
  refine ⟨before ++ emitted, hbefore.trans hemits, hdecodes.trans (hencodes.decodes ?_), ?_⟩
  · rw [Item.apply, List.append_assoc, ← List.take_add]
  · rw [List.length_append]
    dsimp only
    omega

theorem Reached.grant {p : Progress} (h : Reached input front dest op 0 p) :
    Reached input front dest op 60 p := by
  obtain ⟨emitted, hemits, hdecodes, hsize⟩ := h
  exact ⟨emitted, hemits, hdecodes, by omega⟩

theorem Reached.room {p : Progress} {granted : ℕ} (h : Reached input front dest op granted p)
    (hdest : op + fragmentRoom input.length ≤ dest.length) :
    p.dest.length = dest.length ∧ 60 * p.op ≤ 60 * op + 61 * p.ip + granted ∧
      op + (input.length + input.length / 60 + 22) ≤ p.dest.length := by
  obtain ⟨emitted, hemits, -, hsize⟩ := h
  have hlength := hemits.size
  have hnext := hemits.next
  dsimp only at hlength hnext
  refine ⟨hlength, by omega, ?_⟩
  rw [hlength]
  exact hdest

theorem emitLiteral_reached {p : Progress} {len : ℕ} (fast : Bool) (h : Reached input front dest op 0 p)
    (hsize : input.length ≤ 65536) (hdest : op + fragmentRoom input.length ≤ dest.length)
    (hlen : 0 < len) (hfits : p.ip + len ≤ input.length)
    (hfast : fast = true → p.ip + 16 ≤ input.length) :
    ∃ r, emitLiteral fast p.dest p.op input p.ip len = some r ∧
      Reached input front dest op 60 ⟨r.1, r.2, p.ip + len⟩ := by
  obtain ⟨hlength, hop, hroom⟩ := h.room hdest
  obtain ⟨r, emitted, hr, hemits, hencodes, hbound⟩ :=
    emitLiteral_emits fast hlen (by omega) hfits hfast
      (show p.op + len + 21 ≤ p.dest.length by omega)
  exact ⟨r, hr, h.literal hemits hencodes hbound⟩

/-- Where the bytes at `ip` are those at the candidate, the copy repeats the output. -/
theorem repeats_of_same {candidate len : ℕ} (front : List UInt8) (h : candidate < ip)
    (hsame : ∀ i < len, input[candidate + i]? = input[ip + i]?) :
    Repeats (ip - candidate) (front.length + ip) (front.length + ip + len) (front ++ input) := by
  intro i hi hlt
  have hhere : i = front.length + (ip + (i - (front.length + ip))) := by omega
  have hback : i - (ip - candidate) = front.length + (candidate + (i - (front.length + ip))) := by
    omega
  rw [hback, getElem?_front, hsame _ (by omega), ← getElem?_front front input, ← hhere]

theorem emitCopy_reached {p : Progress} {candidate len : ℕ} {short : Bool}
    (h : Reached input front dest op 60 p) (hsize : input.length ≤ 65536)
    (hdest : op + fragmentRoom input.length ≤ dest.length)
    (hshort : short = decide (len < 12)) (hlen : 4 ≤ len) (hcandidate : candidate < p.ip)
    (hfits : p.ip + len ≤ input.length)
    (hsame : ∀ i < len, input[candidate + i]? = input[p.ip + i]?) :
    ∃ r, emitCopy short p.dest p.op (p.ip - candidate) len = some r ∧
      Reached input front dest op 0 ⟨r.1, r.2, p.ip + len⟩ := by
  obtain ⟨hlength, hop, hroom⟩ := h.room hdest
  obtain ⟨r, emitted, hr, hemits, hdecodes, hbound⟩ :=
    emitCopy_copies hshort hlen (by omega) (show p.op + len ≤ p.dest.length by omega) (by omega)
      (by omega) (by rw [List.length_append]; omega) (repeats_of_same front hcandidate hsame)
  obtain ⟨before, hbefore, hdecodesBefore, hsizeBefore⟩ := h
  refine ⟨r, hr, before ++ emitted, hbefore.trans hemits, hdecodesBefore.trans ?_, ?_⟩
  · rw [Nat.add_assoc, take_front, take_front] at hdecodes
    exact hdecodes
  · rw [List.length_append]
    dsimp only
    omega

theorem same_of_isMatch {candidate matched : ℕ} {limit : ℕ} {r : MatchLength}
    (hfirst : ∀ i < 4, input[candidate + i]? = input[ip + i]?)
    (h : IsMatch input (candidate + 4) (ip + 4) limit r) (hmatched : matched = 4 + r.matched) :
    ∀ i < matched, input[candidate + i]? = input[ip + i]? := by
  intro i hi
  obtain hlow | hhigh := lt_or_ge i 4
  · exact hfirst i hlow
  · have hsame := h.same (i - 4) (by omega)
    rwa [Nat.add_assoc, Nat.add_assoc, Nat.add_sub_cancel' hhigh] at hsame

theorem carries_of_isMatch {s1 s2 limit : ℕ} {r : MatchLength} (h : IsMatch input s1 s2 limit r)
    (hfits : s2 + r.matched + 8 ≤ limit) : Carries input (s2 + r.matched) r.data 5 := by
  obtain ⟨v, hv, hdata⟩ := h.data hfits
  obtain ⟨hread, hvalue⟩ := (carries_load64 hv).mono (m := 5) (by decide)
  exact ⟨hread, hdata.trans hvalue⟩

/-- What the main loop begins with at `ip`: the word after it, and a table of what is before. -/
def Resumes (input : List UInt8) (mask ipLimit ip : ℕ) (more : ℕ × List UInt16) : Prop :=
  ip ≤ ipLimit ∧ load32 input (ip + 1) = some more.1 ∧ TableBelow mask (ip + 1) more.2

theorem emitMatches_reached (abi : Abi) (hlimit : ipLimit + 15 = input.length)
    (hsize : input.length ≤ 65536) (hdest : op + fragmentRoom input.length ≤ dest.length)
    {d : List UInt8} {o : ℕ} (hfuel : ipLimit - found.ip < fuel)
    (hreached : Reached input front dest op 60 ⟨d, o, found.ip⟩)
    (hfound : IsFound input mask ipLimit found) :
    ∃ q more, emitMatches abi input mask ipLimit fuel d o found = some (q, more) ∧
      Reached input front dest op 0 q ∧ q.ip ≤ input.length ∧ found.ip < q.ip ∧
      ∀ resume, more = some resume → Resumes input mask ipLimit q.ip resume := by
  induction fuel generalizing d o found with
  | zero => exact absurd hfuel (Nat.not_lt_zero _)
  | succ fuel ih =>
    obtain ⟨ip, candidate, data, table⟩ := found
    obtain ⟨hbefore, hwithin, hfirst, htable⟩ := hfound
    dsimp only at hfuel hreached hbefore hwithin hfirst htable ⊢
    obtain ⟨r, hr, hmatch⟩ := findMatchLength_isMatch abi data
      (show candidate + 4 ≤ ip + 4 by omega) (show ip + 4 ≤ input.length by omega) le_rfl
    have hfits := hmatch.fits
    have hshort : r.short = decide (4 + r.matched < 12) := by
      rw [hmatch.short]
      congr 1
      exact propext ⟨fun h => by omega, fun h => by omega⟩
    obtain ⟨⟨d', o'⟩, hcopy, hnext⟩ := emitCopy_reached hreached hsize hdest hshort
      (Nat.le_add_right 4 _) hbefore (by dsimp only; omega) (same_of_isMatch hfirst hmatch rfl)
    rw [emitMatches]
    simp only [hr, hcopy, Option.bind_eq_bind, Option.bind_some]
    dsimp only at hnext
    by_cases hend : ip + (4 + r.matched) ≥ ipLimit
    · rw [if_pos hend]
      exact ⟨_, _, rfl, hnext, by dsimp only; omega, by dsimp only; omega,
        fun _ h => absurd h.symm (Option.some_ne_none _)⟩
    · have hcarries : Carries input (ip + (4 + r.matched)) r.data 5 := by
        rw [← Nat.add_assoc]
        exact carries_of_isMatch hmatch (by omega)
      obtain ⟨u, hu⟩ :=
        exists_load32_of_le (show ip + (4 + r.matched) - 1 + 4 ≤ input.length by omega)
      obtain ⟨c, table1, hreplace1, -, htable1⟩ := replaceCandidate_before htable u
        (p := ip + (4 + r.matched) - 1) (m := ip + (4 + r.matched)) (by omega) (by omega) (by omega)
      obtain ⟨c2, table2, hreplace2, hearlier, htable2⟩ := replaceCandidate_before htable1 r.data
        (p := ip + (4 + r.matched)) (m := ip + (4 + r.matched) + 1) (by omega) (by omega) (by omega)
      obtain ⟨w, hw⟩ := exists_load32_of_le (show c2 + 4 ≤ input.length by omega)
      have hword := (hcarries.mono (m := 4) (by decide)).load32
      simp only [if_neg hend, hu, hreplace1, hreplace2, hw, Option.bind_some]
      by_cases hsame : r.data % 2 ^ 32 = w
      · rw [if_pos hsame]
        rw [hsame] at hword
        have hagain : IsFound input mask ipLimit ⟨ip + (4 + r.matched), c2, r.data, table2⟩ :=
          ⟨hearlier, by dsimp only; omega, same_of_load32 hw hword, htable2⟩
        obtain ⟨q, more, hq, hqreached, hqfits, hqlater, hresume⟩ :=
          ih (by dsimp only; omega) hnext.grant hagain
        exact ⟨q, more, hq, hqreached, hqfits, by dsimp only at hqlater; omega, hresume⟩
      · rw [if_neg hsame]
        refine ⟨_, _, rfl, hnext, by dsimp only; omega, by dsimp only; omega, ?_⟩
        rintro _ ⟨⟩
        exact ⟨by dsimp only; omega, hcarries.shift.load32, htable2⟩

theorem scanForward_found (hlimit : ipLimit + 15 = input.length) (hsize : input.length ≤ 65536)
    (hip : 0 < ip) (hpre : load32 input ip = some preload) (hdata : Carries input ip data 8)
    (htable : TableBelow mask ip table) :
    ∃ r, scanForward input mask ipLimit preload ip data table = some r ∧
      ∀ unrolled found, r = some (unrolled, found) →
        IsFound input mask ipLimit found ∧ ip ≤ found.ip ∧ (unrolled = true → found.ip < ip + 16) := by
  rw [scanForward]
  by_cases hroom : ip + 16 ≤ ipLimit
  · obtain ⟨r, hr, hunrolled⟩ := scanUnrolled_unrolled hlimit hsize hroom
      (show 16 ≤ 16 from le_rfl) hpre hdata htable
    simp only [if_pos hroom, hr, Option.bind_eq_bind, Option.bind_some]
    cases r with
    | inl found =>
      refine ⟨_, rfl, ?_⟩
      rintro unrolled found' ⟨⟩
      exact ⟨hunrolled.1, hunrolled.2.1, fun _ => hunrolled.2.2⟩
    | inr rest =>
      obtain ⟨data', table'⟩ := rest
      obtain ⟨hcarries, hbelow⟩ := hunrolled
      obtain ⟨r, hr, hfound⟩ := scanSkipping_found hlimit hsize
        (show ipLimit - (ip + 16) < input.length by omega) (show 32 ≤ 32 + 16 by decide)
        (hcarries.mono (by decide)).load32 hbelow
      simp only [hr, Option.bind_some]
      refine ⟨_, rfl, ?_⟩
      intro unrolled found' h
      obtain ⟨found, rfl, heq⟩ := Option.map_eq_some_iff.mp h
      obtain ⟨rfl, rfl⟩ := Prod.mk.inj heq
      obtain ⟨hisFound, hlater⟩ := hfound found rfl
      exact ⟨hisFound, by omega, fun hfalse => absurd hfalse Bool.false_ne_true⟩
  · obtain ⟨r, hr, hfound⟩ := scanSkipping_found hlimit hsize
      (show ipLimit - ip < input.length by omega) (show 32 ≤ 32 from le_rfl) (hdata.mono (by decide)).load32 htable
    simp only [if_neg hroom, hr, Option.bind_eq_bind, Option.bind_some]
    refine ⟨_, rfl, ?_⟩
    intro unrolled found' h
    obtain ⟨found, rfl, heq⟩ := Option.map_eq_some_iff.mp h
    obtain ⟨rfl, rfl⟩ := Prod.mk.inj heq
    obtain ⟨hisFound, hlater⟩ := hfound found rfl
    exact ⟨hisFound, hlater, fun hfalse => absurd hfalse Bool.false_ne_true⟩

/-- The short path of the unrolled loop stores what `EmitLiteral` does. -/
theorem emitFront_reached {q : Progress} (h : Reached input front dest op 0 q)
    (hsize : input.length ≤ 65536) (hdest : op + fragmentRoom input.length ≤ dest.length)
    (hlimit : ipLimit + 15 = input.length) (hfound : IsFound input mask ipLimit found)
    (hlater : q.ip + 1 ≤ found.ip) {unrolled : Bool}
    (hunrolled : unrolled = true → found.ip < q.ip + 1 + 16) :
    ∃ r, emitFront unrolled q.dest q.op input q.ip found.ip = some r ∧
      Reached input front dest op 60 ⟨r.1, r.2, found.ip⟩ := by
  have hwithin := hfound.within
  have hsum : q.ip + (found.ip - q.ip) = found.ip := by omega
  obtain ⟨r, hr, hreached⟩ := emitLiteral_reached true h hsize hdest
    (show 0 < found.ip - q.ip by omega) (by omega) fun _ => by omega
  rw [hsum] at hreached
  refine ⟨r, ?_, hreached⟩
  cases unrolled with
  | false => exact hr
  | true =>
    have hlen : found.ip - q.ip ≤ 16 := by
      have hsixteen := hunrolled rfl
      omega
    have hn : found.ip - (q.ip + 1) = found.ip - q.ip - 1 := by omega
    have hop : q.op + (found.ip - q.ip - 1) + 2 = q.op + 1 + (found.ip - q.ip) := by omega
    rw [emitLiteral, Bool.true_and, decide_eq_true hlen] at hr
    rw [emitFront]
    simp only [hn, hop]
    exact hr

theorem compressLoop_reached (abi : Abi) (hlimit : ipLimit + 15 = input.length)
    (hsize : input.length ≤ 65536) (hdest : op + fragmentRoom input.length ≤ dest.length)
    {q : Progress} (hfuel : ipLimit - q.ip < fuel) (hreached : Reached input front dest op 0 q)
    (hresume : Resumes input mask ipLimit q.ip (preload, table)) :
    ∃ q', compressLoop abi input mask ipLimit fuel preload q table = some q' ∧
      Reached input front dest op 0 q' ∧ q'.ip ≤ input.length := by
  induction fuel generalizing preload q table with
  | zero => exact absurd hfuel (Nat.not_lt_zero _)
  | succ fuel ih =>
    obtain ⟨d, o, nextEmit⟩ := q
    obtain ⟨hle, hpre, htable⟩ := hresume
    dsimp only at hfuel hle hpre htable
    obtain ⟨data, hdata⟩ := exists_load64_of_le (show nextEmit + 1 + 8 ≤ input.length by omega)
    obtain ⟨r, hr, hscan⟩ := scanForward_found hlimit hsize (Nat.succ_pos nextEmit) hpre
      (carries_load64 hdata) htable
    rw [compressLoop]
    simp only [hdata, hr, Option.bind_eq_bind, Option.bind_some]
    cases r with
    | none => exact ⟨_, rfl, hreached, by dsimp only; omega⟩
    | some s =>
      obtain ⟨unrolled, found⟩ := s
      obtain ⟨hfound, hlater, hshort⟩ := hscan unrolled found rfl
      obtain ⟨⟨d', o'⟩, hfront, hliteral⟩ :=
        emitFront_reached hreached hsize hdest hlimit hfound hlater hshort
      have hwithin := hfound.within
      obtain ⟨q', more, hmatches, hreached', hfits, hbeyond, hmore⟩ :=
        emitMatches_reached abi hlimit hsize hdest (show ipLimit - found.ip < input.length by omega)
          hliteral hfound
      simp only [hfront, hmatches, Option.bind_some]
      cases more with
      | none => exact ⟨_, rfl, hreached', hfits⟩
      | some resume => exact ih (by omega) hreached' (hmore resume rfl)

theorem compressMatches_reached (abi : Abi) (hsize : input.length ≤ 65536)
    (hdest : op + fragmentRoom input.length ≤ dest.length)
    (hreached : Reached input front dest op 0 ⟨dest, op, 0⟩) (htable : TableBelow mask 1 table) :
    ∃ q, compressMatches abi input dest op table mask = some q ∧
      Reached input front dest op 0 q ∧ q.ip ≤ input.length := by
  rw [compressMatches]
  split_ifs with hmargin
  · have hfifteen : 15 ≤ input.length := hmargin
    obtain ⟨v, hv⟩ := exists_load32_of_le (show 1 + 4 ≤ input.length by omega)
    have hlimit : input.length - kInputMarginBytes + 15 = input.length :=
      Nat.sub_add_cancel hfifteen
    rw [hv]
    exact compressLoop_reached abi hlimit hsize hdest (by omega) hreached ⟨Nat.zero_le _, hv, htable⟩
  · exact ⟨_, rfl, hreached, Nat.zero_le _⟩

theorem compressFragment_decodes (abi : Abi) (front : List UInt8) (hsize : input.length ≤ 65536)
    (hdest : op + fragmentRoom input.length ≤ dest.length) {tableSize : ℕ}
    (hpositive : 0 < tableSize) (hlength : tableSize ≤ table.length) (hzero : ∀ e ∈ table, e = 0) :
    ∃ r emitted, compressFragment abi input dest op table tableSize = some r ∧
      Emits dest op emitted r ∧ Decodes emitted front (front ++ input) ∧
      60 * emitted.length ≤ 61 * input.length + 60 := by
  have hstart : Reached input front dest op 0 ⟨dest, op, 0⟩ := by
    refine ⟨[], ⟨rfl, (List.append_nil _).symm, rfl⟩, ?_, Nat.zero_le _⟩
    rw [List.take_zero, List.append_nil]
    exact .done front
  have htable : TableBelow (tableSize - 1) 1 table := by
    refine ⟨by omega, ?_⟩
    intro e he
    rw [hzero e he]
    exact Nat.one_pos
  obtain ⟨⟨d, o, ip⟩, hq, hreached, hip⟩ := compressMatches_reached abi hsize hdest hstart htable
  dsimp only at hip
  rw [compressFragment, hq]
  simp only [Option.bind_eq_bind, Option.bind_some]
  split_ifs with hend
  · obtain ⟨r, hr, emitted, hemits, hdecodes, hbound⟩ := emitLiteral_reached false hreached hsize hdest
      (show 0 < input.length - ip by omega) (by dsimp only; omega) (fun h => by cases h)
    dsimp only at hdecodes hbound
    rw [Nat.add_sub_cancel' hip, List.take_length] at hdecodes
    exact ⟨r, emitted, hr, hemits, hdecodes, by omega⟩
  · obtain ⟨emitted, hemits, hdecodes, hbound⟩ := hreached
    dsimp only at hdecodes hbound
    rw [List.take_of_length_le (by omega)] at hdecodes
    exact ⟨_, emitted, rfl, hemits, hdecodes, by omega⟩

end EnvironmentCheck.SnappyCodec
