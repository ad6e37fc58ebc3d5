import EnvironmentCheck.SnappyFormat

namespace EnvironmentCheck.SnappyCodec

open BackReference

/-- The `Writer` of the decompression. A call gets the output pointer and gives back where it stands
afterwards; it is `none` where it would leave its buffers. -/
structure Writer (σ : Type) where
  setExpectedLength : σ → ℕ → σ
  checkLength : σ → Bool
  getOutputPtr : σ → ℕ
  setOutputPtr : σ → ℕ → σ
  getBase : σ → Option (ℕ × ℤ)
  append : σ → ℕ → List UInt8 → Option (Bool × σ × ℕ)
  tryFastAppend : σ → ℕ → List UInt8 → ℕ → Option (Bool × σ × ℕ)
  appendFromSelf : σ → ℕ → ℕ → ℕ → Option (Bool × σ × ℕ)
  memCopy : σ → ℕ → List UInt8 → Option σ
  memMove : σ → ℕ → ℕ → ℕ → Option σ
  copy64BytesWithPatternExtension : σ → ℕ → ℕ → Option (Bool × σ)
  flush : σ → σ

/-- What the decompression relies on, of a writer that expects `n` bytes: `Holds` says what it has been
given so far, and `Kept` what is true of it even after a call has failed. -/
structure Contract {σ : Type} (w : Writer σ) (n : ℕ) where
  Holds : σ → ℕ → List UInt8 → Prop
  Kept : σ → ℕ → Prop
  kept {s op out} : Holds s op out → Kept s op
  checkLength {s op out} : Holds s op out →
    (w.checkLength (w.flush (w.setOutputPtr s op)) = true ↔ out.length = n)
  append {s op out} (xs : List UInt8) : Holds s op out → xs.length < 2 ^ 32 →
    ∃ ok s' op', w.append s op xs = some (ok, s', op') ∧ (ok = true → Holds s' op' (out ++ xs)) ∧
      (ok = false → Kept s' op' ∧ n < out.length + xs.length)
  tryFastAppend {s op out} (ip : List UInt8) (len : ℕ) : Holds s op out →
    ∃ ok s' op', w.tryFastAppend s op ip len = some (ok, s', op') ∧
      (ok = true → len < 61 ∧ len + 5 ≤ ip.length ∧ Holds s' op' (out ++ ip.take len)) ∧
      (ok = false → s' = s ∧ op' = op)
  appendFromSelf {s op out} (offset len : ℕ) : Holds s op out → 0 < len → len ≤ 64 → offset < 2 ^ 32 →
    ∃ ok s' op', w.appendFromSelf s op offset len = some (ok, s', op') ∧
      (ok = true → 0 < offset ∧ offset ≤ out.length ∧ Holds s' op' (extend offset len out)) ∧
      (ok = false → Kept s' op' ∧ (0 < offset → offset ≤ out.length → n < out.length + len))
  base_le {s op out base limit} : Holds s op out → w.getBase s = some (base, limit) →
    (op : ℤ) - base ≤ out.length
  memCopy {s op out base limit} (xs : List UInt8) : Holds s op out →
    w.getBase s = some (base, limit) → (op : ℤ) - base < limit → xs.length = 64 →
    ∃ s', w.memCopy s op xs = some s' ∧ w.getBase s' = some (base, limit) ∧
      ∀ len ≤ 64, Holds s' (op + len) (out ++ xs.take len)
  memMove {s op out base limit} (offset : ℕ) : Holds s op out →
    w.getBase s = some (base, limit) → (op : ℤ) - base < limit → 0 < offset → (offset : ℤ) ≤ op - base →
    ∃ s', w.memMove s op (op - offset) 64 = some s' ∧ w.getBase s' = some (base, limit) ∧
      ∀ len ≤ 64, len ≤ offset → Holds s' (op + len) (extend offset len out)
  copy64_zero {s op base limit} : w.getBase s = some (base, limit) →
    w.copy64BytesWithPatternExtension s op 0 = some (false, s)
  copy64 {s op out base limit} (offset : ℕ) : Holds s op out →
    w.getBase s = some (base, limit) → (op : ℤ) - base < limit → 0 < offset → (offset : ℤ) ≤ op - base →
    ∃ s', w.copy64BytesWithPatternExtension s op offset = some (true, s') ∧
      w.getBase s' = some (base, limit) ∧ ∀ len ≤ 64, Holds s' (op + len) (extend offset len out)

end EnvironmentCheck.SnappyCodec
