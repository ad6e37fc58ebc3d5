import EnvironmentCheck.SnappyArrayWriter
import EnvironmentCheck.SnappyCompress

namespace EnvironmentCheck.SnappyCodec

open BackReference Snappy

def Abi.sizeT : Abi → SizeT
  | .armeabiV7a | .x86 => .bits32
  | .arm64V8a | .x86_64 => .bits64

/-- It only counts. -/
structure SnappyDecompressionValidator where
  expected : ℕ
  produced : ℕ

namespace SnappyDecompressionValidator

def append (sizeT : SizeT) (s : SnappyDecompressionValidator) (produced : ℕ) (ip : List UInt8) :
    Option (Bool × SnappyDecompressionValidator × ℕ) :=
  let produced := (produced + ip.length) % 2 ^ sizeT.width
  some (produced ≤ s.expected, s, produced)

/-- `offset - 1u` wraps at zero. -/
def appendFromSelf (sizeT : SizeT) (s : SnappyDecompressionValidator) (produced offset len : ℕ) :
    Option (Bool × SnappyDecompressionValidator × ℕ) :=
  if produced ≤ (offset + 2 ^ sizeT.width - 1) % 2 ^ sizeT.width then some (false, s, produced)
  else
    let produced := (produced + len) % 2 ^ sizeT.width
    some (produced ≤ s.expected, s, produced)

end SnappyDecompressionValidator

/-- `PTRDIFF_MAX`. -/
def ptrdiffMax (sizeT : SizeT) : ℤ := 2 ^ (sizeT.width - 1) - 1

open SnappyDecompressionValidator in
/-- The base is one, so that it is not null, and the copies do nothing. -/
def snappyDecompressionValidator (sizeT : SizeT) : Writer SnappyDecompressionValidator where
  setExpectedLength s len := { s with expected := len }
  checkLength s := s.expected = s.produced
  getOutputPtr s := s.produced
  setOutputPtr s op := { s with produced := op }
  getBase _ := some (1, ptrdiffMax sizeT - kSlopBytes + 1)
  append := append sizeT
  tryFastAppend s produced _ _ := some (false, s, produced)
  appendFromSelf := appendFromSelf sizeT
  memCopy s _ _ := some s
  memMove s _ _ _ := some s
  copy64BytesWithPatternExtension s _ offset := some (offset ≠ 0, s)
  flush s := s

def isValidCompressed (abi : Abi) (scratch : Vector UInt8 kMaximumTagLength) (compressed : Source) :
    Option Bool := do
  let (ok, _) ← internalUncompress abi scratch (snappyDecompressionValidator abi.sizeT) compressed ⟨0, 0⟩
  return ok

namespace SnappyDecompressionValidator

theorem ptrdiffMax_bits64 : ptrdiffMax .bits64 = 2 ^ 63 - 1 := rfl

/-- The count is right, and far from where it would wrap. -/
structure Holds (n : ℕ) (s : SnappyDecompressionValidator) (op : ℕ) (out : List UInt8) : Prop where
  expected : s.expected = n
  op_eq : op = out.length
  narrow : out.length ≤ 2 ^ 63

variable {n op len offset : ℕ} {s : SnappyDecompressionValidator} {out out' : List UInt8}

theorem Holds.longer (h : Holds n s op out) (hout : out'.length = out.length + len)
    (hnarrow : op + len ≤ 2 ^ 63) : Holds n s (op + len) out' := by
  have hop := h.op_eq
  exact ⟨h.expected, by omega, by omega⟩

/-- Where a count is refused, it has not wrapped. -/
theorem Holds.counted (h : Holds n s op out) (hn : n < 2 ^ 32) (hlen : len < 2 ^ 32)
    (hout : out'.length = out.length + len) :
    ∃ ok, decide ((op + len) % 2 ^ 64 ≤ s.expected) = ok ∧
      (ok = true → Holds n s ((op + len) % 2 ^ 64) out') ∧
      (ok = false → n < out.length + len) := by
  have hop := h.op_eq
  have hexpected := h.expected
  have hnarrow := h.narrow
  have hwrap : (op + len) % 2 ^ 64 = op + len := Nat.mod_eq_of_lt (by omega)
  refine ⟨_, rfl, ?_, ?_⟩
  · intro hok
    rw [decide_eq_true_iff, hwrap] at hok
    rw [hwrap]
    exact h.longer hout (by omega)
  · intro hok
    rw [decide_eq_false_iff_not, hwrap] at hok
    omega

theorem Holds.checkLength (h : Holds n s op out) :
    (snappyDecompressionValidator .bits64).checkLength { s with produced := op } = true ↔ out.length = n := by
  have hop := h.op_eq
  have hexpected := h.expected
  change decide (s.expected = op) = true ↔ _
  rw [decide_eq_true_iff]
  omega

theorem Holds.append (h : Holds n s op out) (hn : n < 2 ^ 32) {xs : List UInt8} (hxs : xs.length < 2 ^ 32) :
    ∃ ok s' op', SnappyDecompressionValidator.append .bits64 s op xs = some (ok, s', op') ∧
      (ok = true → Holds n s' op' (out ++ xs)) ∧ (ok = false → True ∧ n < out.length + xs.length) := by
  obtain ⟨ok, hok, htrue, hfalse⟩ := h.counted hn hxs (@List.length_append _ out xs)
  refine ⟨ok, s, _, ?_, htrue, fun h => ⟨trivial, hfalse h⟩⟩
  rw [← hok]
  rfl

theorem Holds.appendFromSelf (h : Holds n s op out) (hn : n < 2 ^ 32) (hlen : len ≤ 64) (hoffset : offset < 2 ^ 32) :
    ∃ ok s' op', SnappyDecompressionValidator.appendFromSelf .bits64 s op offset len = some (ok, s', op') ∧
      (ok = true → 0 < offset ∧ offset ≤ out.length ∧ Holds n s' op' (extend offset len out)) ∧
      (ok = false → True ∧ (0 < offset → offset ≤ out.length → n < out.length + len)) := by
  have hop := h.op_eq
  have hnarrow := h.narrow
  by_cases hbefore : op ≤ (offset + 2 ^ 64 - 1) % 2 ^ 64
  · refine ⟨false, s, op, if_pos hbefore, nofun, fun _ => ⟨trivial, ?_⟩⟩
    intro hpos hback
    omega
  · have hpos : 0 < offset := by omega
    have hback : offset ≤ out.length := by omega
    obtain ⟨ok, hok, htrue, hfalse⟩ := h.counted hn (show len < 2 ^ 32 by omega) (length_extend hpos hback)
    refine ⟨ok, s, (op + len) % 2 ^ 64, (if_neg hbefore).trans ?_, ?_, fun h => ⟨trivial, fun _ _ => hfalse h⟩⟩
    · rw [← hok]
      rfl
    · exact fun h => ⟨hpos, hback, htrue h⟩

section Copies

variable {base : ℕ} {limit : ℤ}

theorem Holds.base_le (h : Holds n s op out) : (op : ℤ) - base ≤ out.length := by
  have hop := h.op_eq
  omega

/-- Below the limit, what is copied does not come near to where the count would wrap. -/
theorem room (hbase : (snappyDecompressionValidator .bits64).getBase s = some (base, limit))
    (hlt : (op : ℤ) - base < limit) (hlen : len ≤ 64) : base = 1 ∧ op + len ≤ 2 ^ 63 := by
  obtain ⟨rfl, rfl⟩ := Prod.mk.inj (Option.some.inj hbase)
  simp only [ptrdiffMax_bits64, kSlopBytes] at hlt
  omega

theorem Holds.copied (h : Holds n s op out) {xs : List UInt8}
    (hbase : (snappyDecompressionValidator .bits64).getBase s = some (base, limit)) (hlt : (op : ℤ) - base < limit)
    (hxs : xs.length = 64) (hlen : len ≤ 64) : Holds n s (op + len) (out ++ xs.take len) := by
  apply h.longer
  · rw [List.length_append, List.length_take, Nat.min_eq_left (hlen.trans hxs.ge)]
  · exact (room hbase hlt hlen).2

theorem Holds.extended (h : Holds n s op out)
    (hbase : (snappyDecompressionValidator .bits64).getBase s = some (base, limit)) (hlt : (op : ℤ) - base < limit)
    (hpos : 0 < offset) (hoffset : (offset : ℤ) ≤ op - base) (hlen : len ≤ 64) :
    Holds n s (op + len) (extend offset len out) := by
  have hop := h.op_eq
  obtain ⟨hone, hroom⟩ := room hbase hlt hlen
  exact h.longer (length_extend hpos (by omega)) hroom

theorem copy64_pos (hpos : 0 < offset) :
    (snappyDecompressionValidator .bits64).copy64BytesWithPatternExtension s op offset = some (true, s) := by
  change some (decide (offset ≠ 0), s) = _
  rw [decide_eq_true hpos.ne']

end Copies

def contract (n : ℕ) (hn : n < 2 ^ 32) : Contract (snappyDecompressionValidator .bits64) n where
  Holds := Holds n
  Kept _ _ := True
  kept _ := trivial
  checkLength h := h.checkLength
  append _ h hxs := h.append hn hxs
  tryFastAppend _ _ _ := ⟨false, _, _, rfl, Bool.noConfusion, fun _ => ⟨rfl, rfl⟩⟩
  appendFromSelf _ _ h _ hlen hoffset := h.appendFromSelf hn hlen hoffset
  base_le h _ := h.base_le
  memCopy _ h hbase hlt hxs := ⟨_, rfl, hbase, fun _ hlen => h.copied hbase hlt hxs hlen⟩
  memMove _ h hbase hlt hpos hoffset := ⟨_, rfl, hbase, fun _ hlen _ => h.extended hbase hlt hpos hoffset hlen⟩
  copy64_zero _ := rfl
  copy64 _ h hbase hlt hpos hoffset :=
    ⟨_, copy64_pos hpos, hbase, fun _ hlen => h.extended hbase hlt hpos hoffset hlen⟩

end SnappyDecompressionValidator

theorem isValidCompressed_spec {abi : Abi} (scratch : Vector UInt8 kMaximumTagLength) (reader : Source)
    (hsizeT : abi.sizeT = .bits64) (hleft : reader.left.length < 2 ^ 32) :
    ∃ ok, isValidCompressed abi scratch reader = some ok ∧
      (ok = true ↔ ∃ out, Uncompresses reader.left out) := by
  rw [isValidCompressed, hsizeT]
  by_cases hdeclared : ∃ n, Declares reader.left n
  · obtain ⟨n, hdeclares⟩ := hdeclared
    have hn : n < 2 ^ 32 := by
      obtain ⟨_, -, -, hlt⟩ := hdeclares
      exact hlt
    obtain ⟨s, op, out, hrun, -, hout⟩ | ⟨s, op, hrun, -, hnone⟩ :=
      internalUncompress_spec (s := ⟨0, 0⟩) abi scratch
      hdeclares (SnappyDecompressionValidator.contract n hn) ⟨rfl, rfl, Nat.zero_le _⟩ hleft
    · refine ⟨true, ?_, iff_of_true rfl ⟨out, hout⟩⟩
      rw [hrun]
      rfl
    · refine ⟨false, ?_, iff_of_false Bool.false_ne_true ?_⟩
      · rw [hrun]
        rfl
      · rintro ⟨out, hout⟩
        exact hnone out hout
  · obtain ⟨hrun, hnone⟩ := internalUncompress_undeclared
      (w := snappyDecompressionValidator .bits64) (s := ⟨0, 0⟩) abi scratch fun n hn => hdeclared ⟨n, hn⟩
    refine ⟨false, ?_, iff_of_false Bool.false_ne_true ?_⟩
    · rw [hrun]
      rfl
    · rintro ⟨out, hout⟩
      exact hnone out hout

/-- The validator of a 64-bit ABI, which copies nothing, gives the verdict that `RawUncompress` comes to on
any ABI, whatever the fragments are. -/
theorem isValidCompressed_agrees (abi abi' : Abi) (scratch scratch' : Vector UInt8 kMaximumTagLength)
    (reader reader' : Source) (mem : List UInt8) (hsizeT : abi.sizeT = .bits64)
    (hsame : reader'.left = reader.left) (hleft : reader.left.length < 2 ^ 32)
    (hroom : ∀ n, Declares reader.left n → n ≤ mem.length) :
    ∃ ok mem', isValidCompressed abi scratch reader = some ok ∧
      rawUncompress abi' scratch' reader' mem = some (ok, mem') := by
  obtain ⟨ok, hvalid, hok⟩ := isValidCompressed_spec scratch reader hsizeT hleft
  have hspec := rawUncompress_spec abi' scratch' reader' mem (show reader'.left.length < 2 ^ 32 by rwa [hsame])
    (show ∀ n, Declares reader'.left n → n ≤ mem.length by rwa [hsame])
  rw [hsame] at hspec
  rw [hvalid]
  generalize rawUncompress abi' scratch' reader' mem = r at hspec ⊢
  cases hspec with
  | @succeeded out mem' hout =>
    obtain rfl := hok.mpr ⟨out, hout⟩
    exact ⟨true, mem', rfl, rfl⟩
  | @failed mem' hnone =>
    obtain rfl : ok = false := by
      apply Bool.eq_false_of_not_eq_true
      intro htrue
      obtain ⟨out, hout⟩ := hok.mp htrue
      exact hnone out hout
    exact ⟨false, mem', rfl, rfl⟩

theorem isValidCompressed_agrees_overlapping :
    ∃ ok mem', isValidCompressed .arm64V8a (.replicate 5 0) overlapping = some ok ∧
      rawUncompress .x86 (.replicate 5 1) (byteArraySource overlapping.left) (List.replicate 5 0) =
        some (ok, mem') :=
  isValidCompressed_agrees .arm64V8a .x86 (.replicate 5 0) (.replicate 5 1) overlapping
    (byteArraySource overlapping.left) (List.replicate 5 0) rfl rfl (by decide) fun n hn => by
      rw [overlapping_declares hn]
      decide

end EnvironmentCheck.SnappyCodec
