import EnvironmentCheck.SnappyScatteredWriter

namespace EnvironmentCheck.SnappyCodec

open BackReference Buffer SnappyScatteredWriter

def uncompressFlat (abi : Abi) (decompressor : SnappyDecompressor) (buf : List UInt8) (uncompressedLen : ℕ) :
    Option (Bool × List (List UInt8)) := do
  let (result, writer) ←
    internalUncompressAllTags abi snappyArrayWriter decompressor ⟨buf, 0, 0, 0⟩ uncompressedLen
  return (result, [← load writer.mem 0 writer.op])

def uncompressScattered (abi : Abi) (decompressor : SnappyDecompressor) (fresh : ℕ → ℕ → UInt8)
    (uncompressedLen : ℕ) : Option (Bool × List (List UInt8)) := do
  let (result, writer) ←
    internalUncompressAllTags abi snappyScatteredWriter decompressor (start fresh) uncompressedLen
  return (result, writer.dest)

/-- `Uncompress`, with what it appends to the sink, which gives out a buffer for the length that it is
asked for. -/
def uncompress (abi : Abi) (scratch : Vector UInt8 kMaximumTagLength) (fresh : ℕ → ℕ → UInt8)
    (compressed : Source) (getAppendBufferVariable : ℕ → List UInt8) :
    Option (Bool × List (List UInt8)) :=
  match readUncompressedLength compressed with
  | none => some (false, [])
  | some (uncompressedLen, compressed) =>
    let decompressor := snappyDecompressor compressed scratch
    let buf := getAppendBufferVariable uncompressedLen.toNat
    if buf.length ≥ uncompressedLen.toNat then uncompressFlat abi decompressor buf uncompressedLen.toNat
    else uncompressScattered abi decompressor fresh uncompressedLen.toNat

/-- `UncompressAsMuchAsPossible`: what has been produced, and what has gone to the sink. -/
def uncompressAsMuchAsPossible (abi : Abi) (scratch : Vector UInt8 kMaximumTagLength)
    (fresh : ℕ → ℕ → UInt8) (compressed : Source) : Option (ℕ × List (List UInt8)) := do
  let (_, writer) ← internalUncompress abi scratch snappyScatteredWriter compressed (start fresh)
  return (writer.size, writer.dest)

variable {stream : List UInt8} {n : ℕ}

/-- A call hands what the stream stands for to the sink, or it fails on a stream that stands for nothing,
and hands over no more than was declared. -/
inductive Sunk (n : ℕ) (body : List UInt8) : Option (Bool × List (List UInt8)) → Prop
  | succeeded {chunks : List (List UInt8)} : chunks.flatten.length = n → Decodes body [] chunks.flatten →
    Sunk n body (some (true, chunks))
  | failed {chunks : List (List UInt8)} : chunks.flatten.length ≤ n →
    (∀ final, Decodes body [] final → final.length ≠ n) → Sunk n body (some (false, chunks))

theorem uncompressFlat_sunk (abi : Abi) (scratch : Vector UInt8 kMaximumTagLength) (reader : Source)
    {buf : List UInt8} (hbuf : n ≤ buf.length) (hleft : reader.left.length < 2 ^ 32) :
    Sunk n reader.left (uncompressFlat abi (snappyDecompressor reader scratch) buf n) := by
  have hspec := internalUncompressAllTags_spec abi scratch reader (SnappyArrayWriter.contract buf n hbuf)
    (SnappyArrayWriter.holds_start buf n) hleft
  have hload : ∀ {s : SnappyArrayWriter} {op : ℕ}, SnappyArrayWriter.Kept buf n s op →
      load s.mem 0 op = some (s.mem.take op) := by
    intro s op hkept
    have hsize := hkept.within.size
    have hroom := hkept.room
    rw [load_of_le (by omega), List.drop_zero]
  rw [uncompressFlat]
  generalize internalUncompressAllTags abi snappyArrayWriter (snappyDecompressor reader scratch)
    ⟨buf, 0, 0, 0⟩ n = r at hspec ⊢
  cases hspec with
  | @succeeded s op final hend hlength hdecodes =>
    simp only [snappyArrayWriter, Option.bind_eq_bind, Option.bind_some, hload hend.kept]
    have hfinal : [s.mem.take op].flatten = final := by
      rw [List.flatten_cons, List.flatten_nil, List.append_nil]
      exact hend.written
    exact .succeeded (hfinal ▸ hlength) (hfinal ▸ hdecodes)
  | @failed s op hkept hnone =>
    simp only [snappyArrayWriter, Option.bind_eq_bind, Option.bind_some, hload hkept]
    refine .failed ?_ hnone
    rw [List.flatten_cons, List.flatten_nil, List.append_nil, List.length_take]
    exact (Nat.min_le_left _ _).trans hkept.room

theorem uncompressScattered_sunk (abi : Abi) (scratch : Vector UInt8 kMaximumTagLength) (reader : Source)
    (fresh : ℕ → ℕ → UInt8) (hleft : reader.left.length < 2 ^ 32) :
    Sunk n reader.left (uncompressScattered abi (snappyDecompressor reader scratch) fresh n) := by
  have hspec := internalUncompressAllTags_spec abi scratch reader (contract n) (holds_start fresh n) hleft
  rw [uncompressScattered]
  generalize internalUncompressAllTags abi snappyScatteredWriter (snappyDecompressor reader scratch)
    (start fresh) n = r at hspec ⊢
  cases hspec with
  | succeeded hend hlength hdecodes =>
    rw [← hend.flatten_flush] at hlength hdecodes
    exact .succeeded hlength hdecodes
  | failed hkept hnone => exact .failed hkept.length_flush hnone

/-- Whether the sink gives a buffer that is large enough or not, it gets what the stream stands for, and of
any other stream no more than has been declared. -/
theorem uncompress_sunk (abi : Abi) (scratch : Vector UInt8 kMaximumTagLength) (fresh : ℕ → ℕ → UInt8)
    (compressed : Source) (getAppendBufferVariable : ℕ → List UInt8)
    (hleft : compressed.left.length < 2 ^ 32) :
    ∃ ok chunks, uncompress abi scratch fresh compressed getAppendBufferVariable = some (ok, chunks) ∧
      (ok = true ↔ ∃ out, Uncompresses compressed.left out) ∧
      (∀ out, Uncompresses compressed.left out → chunks.flatten = out) ∧
      ∀ n, Declares compressed.left n → chunks.flatten.length ≤ n := by
  rw [uncompress]
  by_cases hdeclared : ∃ n, Declares compressed.left n
  · obtain ⟨n, hdeclares⟩ := hdeclared
    obtain ⟨v, reader', hread, rfl, hshorter, hiff⟩ := readUncompressedLength_of_declares hdeclares
    have hsunk : Sunk v.toNat reader'.left (uncompress abi scratch fresh compressed getAppendBufferVariable) := by
      rw [uncompress, hread]
      dsimp only
      split_ifs with hbuf
      · exact uncompressFlat_sunk abi scratch reader' hbuf (by omega)
      · exact uncompressScattered_sunk abi scratch reader' fresh (by omega)
    rw [← uncompress]
    generalize uncompress abi scratch fresh compressed getAppendBufferVariable = r at hsunk ⊢
    cases hsunk with
    | @succeeded chunks hlength hdecodes =>
      have hout : Uncompresses compressed.left chunks.flatten := (hiff _).mpr ⟨hlength, hdecodes⟩
      refine ⟨true, chunks, rfl, iff_of_true rfl ⟨_, hout⟩, fun out hout' => hout'.unique hout, ?_⟩
      intro n hn
      rw [hlength, declares_unique hdeclares hn]
    | @failed chunks hlength hnone =>
      have hnone' : ∀ out, ¬ Uncompresses compressed.left out := by
        intro out hout
        obtain ⟨hlength', hdecodes⟩ := (hiff out).mp hout
        exact hnone out hdecodes hlength'
      refine ⟨false, chunks, rfl, iff_of_false nofun ?_, fun out hout => absurd hout (hnone' out), ?_⟩
      · rintro ⟨out, hout⟩
        exact hnone' out hout
      · intro n hn
        rwa [declares_unique hdeclares hn]
  · obtain ⟨hread, hnone⟩ := readUncompressedLength_of_undeclared fun n hn => hdeclared ⟨n, hn⟩
    rw [hread]
    refine ⟨false, [], rfl, iff_of_false nofun ?_, fun out hout => absurd hout (hnone out),
      fun n _ => Nat.zero_le n⟩
    rintro ⟨out, hout⟩
    exact hnone out hout

theorem uncompress_sunk_overlapping :
    ∃ ok chunks, uncompress .arm64V8a (.replicate 5 0) (fun _ _ => 1) overlapping (fun _ => [0]) =
        some (ok, chunks) ∧
      (ok = true ↔ ∃ out, Uncompresses overlapping.left out) ∧
      (∀ out, Uncompresses overlapping.left out → chunks.flatten = out) ∧
      ∀ n, Declares overlapping.left n → chunks.flatten.length ≤ n :=
  uncompress_sunk .arm64V8a (.replicate 5 0) (fun _ _ => 1) overlapping (fun _ => [0]) (by decide)

/-- All of what a stream stands for is produced, and of any other stream no more than has been declared: but
where a literal overruns that, the last of the blocks is counted twice. -/
theorem uncompressAsMuchAsPossible_counts (abi : Abi) (scratch : Vector UInt8 kMaximumTagLength)
    (fresh : ℕ → ℕ → UInt8) (compressed : Source) (hleft : compressed.left.length < 2 ^ 32) :
    ∃ produced chunks, uncompressAsMuchAsPossible abi scratch fresh compressed = some (produced, chunks) ∧
      (∀ out, Uncompresses compressed.left out → produced = out.length ∧ chunks.flatten = out) ∧
      (∀ n, Declares compressed.left n → chunks.flatten.length ≤ n) ∧ Counts chunks produced := by
  rw [uncompressAsMuchAsPossible]
  by_cases hdeclared : ∃ n, Declares compressed.left n
  · obtain ⟨n, hdeclares⟩ := hdeclared
    obtain ⟨s, op, out, hrun, hholds, hout⟩ | ⟨s, op, hrun, hkept, hnone⟩ := internalUncompress_spec abi scratch
      hdeclares (contract n) (holds_start fresh n) hleft
    · have hlength : s.fullSize + op = out.length := hholds.length.symm
      rw [hrun]
      refine ⟨_, _, rfl, ?_, ?_, hholds.kept.counts⟩
      · intro out' hout'
        obtain rfl := hout.unique hout'
        exact ⟨hlength, hholds.flatten_flush⟩
      · intro m hm
        rw [declares_unique hdeclares hm]
        exact hholds.kept.length_flush
    · rw [hrun]
      refine ⟨_, _, rfl, fun out hout => absurd hout (hnone out), ?_, hkept.counts⟩
      intro m hm
      rw [declares_unique hdeclares hm]
      exact hkept.length_flush
  · obtain ⟨hrun, hnone⟩ := internalUncompress_undeclared (w := snappyScatteredWriter) (s := start fresh)
      abi scratch fun n hn => hdeclared ⟨n, hn⟩
    rw [hrun]
    exact ⟨_, _, rfl, fun out hout => absurd hout (hnone out), fun n _ => Nat.zero_le n, .inl rfl⟩

theorem uncompressAsMuchAsPossible_counts_overlapping :
    ∃ produced chunks, uncompressAsMuchAsPossible .x86 (.replicate 5 0) (fun _ _ => 1) overlapping =
        some (produced, chunks) ∧
      (∀ out, Uncompresses overlapping.left out → produced = out.length ∧ chunks.flatten = out) ∧
      (∀ n, Declares overlapping.left n → chunks.flatten.length ≤ n) ∧ Counts chunks produced :=
  uncompressAsMuchAsPossible_counts .x86 (.replicate 5 0) (fun _ _ => 1) overlapping (by decide)

end EnvironmentCheck.SnappyCodec
