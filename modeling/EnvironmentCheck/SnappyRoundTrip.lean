import EnvironmentCheck.SnappyValidator

namespace EnvironmentCheck.SnappyCodec

variable {stream out dest mem : List UInt8} {reader : Source}

theorem StandsFor.uncompresses (h : StandsFor stream out) (hout : out.length < 2 ^ 32) :
    Uncompresses stream out := by
  obtain ⟨body, rfl, hdecodes⟩ := h
  have hgroups := Leb128.length_encode_le (hout.trans (show 2 ^ 32 < 128 ^ 5 by decide)) (by decide)
  refine ⟨body, Leb128.decode_encode out.length body, ?_, hout, hdecodes⟩
  rw [List.length_append]
  omega

/-- What has been compressed, from whatever fragments and within the size that was announced, is
uncompressed to itself, on whatever ABI, from whatever fragments and into any buffer that has room. -/
theorem compress_roundTrip (abi abi' : Abi) (scratch : Vector UInt8 kMaximumTagLength) (reader : Source)
    (dest mem : List UInt8) (hlength : maxCompressedLength reader.left.length < 2 ^ 32)
    (hdest : maxCompressedLength reader.left.length ≤ dest.length)
    (hmem : reader.left.length ≤ mem.length) :
    ∃ dest' written, compress abi reader dest = some (dest', written) ∧ dest'.length = dest.length ∧
      written ≤ maxCompressedLength reader.left.length ∧
      ∀ reader' : Source, reader'.left = dest'.take written →
        ∃ mem', rawUncompress abi' scratch reader' mem = some (true, mem') ∧
          mem'.take reader.left.length = reader.left ∧
          mem'.drop reader.left.length = mem.drop reader.left.length := by
  have hinput : reader.left.length < 2 ^ 32 := by
    rw [maxCompressedLength] at hlength
    omega
  obtain ⟨⟨dest', written⟩, hcompress, hsize, hwritten, hstands⟩ := compress_standsFor abi reader hinput hdest
  refine ⟨dest', written, hcompress, hsize, hwritten, ?_⟩
  intro reader' hreader
  have hout : Uncompresses reader'.left reader.left := hreader ▸ hstands.uncompresses hinput
  have hleft : reader'.left.length < 2 ^ 32 := by
    rw [hreader, List.length_take]
    exact (Nat.min_le_left _ _).trans_lt (hwritten.trans_lt hlength)
  have hdeclared : ∀ n, Declares reader'.left n → n = reader.left.length :=
    fun n hn => declares_unique hout.declares hn
  have hspec := rawUncompress_spec abi' scratch reader' mem hleft fun n hn => (hdeclared n hn).trans_le hmem
  generalize rawUncompress abi' scratch reader' mem = r at hspec ⊢
  cases hspec with
  | @succeeded out mem' hout' htake hcontained =>
    obtain rfl := hout.unique hout'
    exact ⟨mem', rfl, htake, hcontained.beyond _ fun n hn => (hdeclared n hn).le⟩
  | @failed mem' hnone hcontained => exact absurd hout (hnone reader.left)

/-- Forty equal bytes, which are given one by one and taken all at once. -/
theorem compress_roundTrip_fragments :
    ∃ dest' written, compress .x86 ⟨List.replicate 40 7, fun _ => 1, fun _ _ => Nat.one_pos⟩
        (List.replicate 78 0) = some (dest', written) ∧ dest'.length = 78 ∧
      written ≤ maxCompressedLength 40 ∧
      ∀ reader' : Source, reader'.left = dest'.take written →
        ∃ mem', rawUncompress .arm64V8a (.replicate 5 0) reader' (List.replicate 40 0) =
            some (true, mem') ∧
          mem'.take 40 = List.replicate 40 7 ∧
          mem'.drop 40 = (List.replicate 40 (0 : UInt8)).drop 40 :=
  compress_roundTrip .x86 .arm64V8a (.replicate 5 0)
    ⟨List.replicate 40 7, fun _ => 1, fun _ _ => Nat.one_pos⟩
    (List.replicate 78 0) (List.replicate 40 0) (by decide) (by decide) (by decide)

end EnvironmentCheck.SnappyCodec
