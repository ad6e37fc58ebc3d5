import EnvironmentCheck.Base64
import EnvironmentCheck.Library.BitQueue

namespace EnvironmentCheck.Base32

open BitQueue
open Base64 (CharType bytes)

/-- A check of the converter that fails, an index outside `kEncoding`, a loop that goes on. -/
inductive Failure where
  | bitsInRange
  | canAppend
  | canExtract
  | encoding
  | turns
  deriving DecidableEq, Repr

/-- The `int` buffer keeps to its `bufferLength` bits. -/
structure BitConverter (fromLength toLength bufferLength : ℕ) where
  buffer : ℕ
  lowerFreeBits : ℕ
  inBuffer : buffer < 2 ^ bufferLength
  free_le : lowerFreeBits ≤ bufferLength

abbrev Base32DecodeConverter := BitConverter 5 8 16
abbrev Base32EncodeConverter := BitConverter 8 5 16

namespace BitConverter

variable {fromLength toLength bufferLength : ℕ}

theorem empty_lt (bufferLength : ℕ) : 0 < 2 ^ bufferLength := Nat.two_pow_pos bufferLength

def empty (fromLength toLength bufferLength : ℕ) : BitConverter fromLength toLength bufferLength where
  buffer := 0
  lowerFreeBits := bufferLength
  inBuffer := empty_lt bufferLength
  free_le := Nat.le_refl bufferLength

variable (c : BitConverter fromLength toLength bufferLength)

def peek : ℕ := c.buffer >>> (bufferLength - toLength)

def bitsAvailable : ℕ := bufferLength - c.lowerFreeBits

def CanAppend : Prop := c.lowerFreeBits ≥ fromLength

def CanExtract : Prop := c.bitsAvailable ≥ toLength

instance : Decidable c.CanAppend := inferInstanceAs (Decidable (_ ≤ _))

instance : Decidable c.CanExtract := inferInstanceAs (Decidable (_ ≤ _))

theorem append_lt (bits : ℤ) (h : 0 ≤ bits ∧ bits < 2 ^ fromLength) (hroom : c.CanAppend) :
    c.buffer ||| bits.toNat <<< (c.lowerFreeBits - fromLength) < 2 ^ bufferLength := by
  have hbits : bits.toNat < 2 ^ fromLength := by
    have hlt := h.2
    rw [← Int.toNat_of_nonneg h.1] at hlt
    exact_mod_cast hlt
  have hfree : fromLength + (c.lowerFreeBits - fromLength) = c.lowerFreeBits :=
    Nat.add_sub_cancel' hroom
  apply Nat.or_lt_two_pow c.inBuffer
  calc bits.toNat <<< (c.lowerFreeBits - fromLength)
      = bits.toNat * 2 ^ (c.lowerFreeBits - fromLength) := Nat.shiftLeft_eq _ _
    _ < 2 ^ fromLength * 2 ^ (c.lowerFreeBits - fromLength) :=
      Nat.mul_lt_mul_of_pos_right hbits (Nat.two_pow_pos _)
    _ = 2 ^ c.lowerFreeBits := by rw [← Nat.pow_add, hfree]
    _ ≤ 2 ^ bufferLength := Nat.pow_le_pow_right (by decide) c.free_le

theorem append_free_le : c.lowerFreeBits - fromLength ≤ bufferLength :=
  Nat.le_trans (Nat.sub_le _ _) c.free_le

def append (bits : ℤ) : Except Failure (BitConverter fromLength toLength bufferLength) :=
  if h : 0 ≤ bits ∧ bits < 2 ^ fromLength then
    if hroom : c.CanAppend then
      .ok {
        buffer := c.buffer ||| bits.toNat <<< (c.lowerFreeBits - fromLength)
        lowerFreeBits := c.lowerFreeBits - fromLength
        inBuffer := append_lt c bits h hroom
        free_le := append_free_le c }
    else .error .canAppend
  else .error .bitsInRange

theorem extract_lt : (c.buffer <<< toLength) &&& (2 ^ bufferLength - 1) < 2 ^ bufferLength := by
  rw [Nat.and_two_pow_sub_one_eq_mod]
  exact Nat.mod_lt _ (Nat.two_pow_pos _)

theorem extract_free_le (h : c.CanExtract) : c.lowerFreeBits + toLength ≤ bufferLength := by
  have hfree := c.free_le
  unfold CanExtract bitsAvailable at h
  omega

def extract : Except Failure (ℕ × BitConverter fromLength toLength bufferLength) :=
  if h : c.CanExtract then
    .ok (c.peek, {
      buffer := (c.buffer <<< toLength) &&& (2 ^ bufferLength - 1)
      lowerFreeBits := c.lowerFreeBits + toLength
      inBuffer := extract_lt c
      free_le := extract_free_le c h })
  else .error .canExtract

end BitConverter

def kEncoding : List UInt8 := bytes "ABCDEFGHIJKLMNOPQRSTUVWXYZ234567"

/-- `kEncoding[i]` -/
def encodingAt (i : ℕ) : Except Failure UInt8 :=
  match kEncoding[i]? with
  | some c => .ok c
  | none => .error .encoding

/-- The loop, with an upper bound for its turns. -/
def encodeLoop (input : List UInt8) : ℕ → Base32EncodeConverter → ℕ → List UInt8 →
    Except Failure (Base32EncodeConverter × List UInt8)
  | 0, _, _, _ => .error .turns
  | turns + 1, converter, nextByteIndex, output =>
    if converter.CanExtract then
      converter.extract.bind fun (bits, converter) =>
      (encodingAt bits).bind fun c =>
      match if converter.CanAppend then input[nextByteIndex]? else none with
      | some byte => (converter.append byte.toNat).bind fun converter =>
          encodeLoop input turns converter (nextByteIndex + 1) (output ++ [c])
      | none => encodeLoop input turns converter nextByteIndex (output ++ [c])
    else .ok (converter, output)

def base32Encode (sizeMax : ℕ) (input : List UInt8) : Except Failure (Bool × List UInt8) :=
  match input with
  | [] => .ok (true, [])
  | byte :: _ =>
    if input.length > sizeMax / 8 then .ok (false, [])
    else
      ((BitConverter.empty 8 5 16).append byte.toNat).bind fun converter =>
      (encodeLoop input (8 * input.length) converter 1 []).bind fun (converter, output) =>
      if converter.bitsAvailable > 0 then
        (encodingAt converter.peek).map fun c => (true, output ++ [c])
      else .ok (true, output)

/-- From the character `2` on. -/
def kDecodeMap : List ℤ := [
  26, 27, 28, 29, 30, 31, -1, -1, -1, -1, -1, -1, -1, -1,
  -1, 0,  1,  2,  3,  4,  5,  6,  7,  8,  9,  10, 11, 12,
  13, 14, 15, 16, 17, 18, 19, 20, 21, 22, 23, 24, 25]

def decodeCharacter (char : CharType) (c : UInt8) : Option ℤ :=
  let mapIndex := char.index c - 50
  if mapIndex < 0 ∨ mapIndex ≥ kDecodeMap.length ∨ kDecodeMap[mapIndex.toNat]? = some (-1) then none
  else kDecodeMap[mapIndex.toNat]?

def decodeLoop (char : CharType) : Base32DecodeConverter → List UInt8 → List UInt8 →
    Except Failure (Bool × List UInt8)
  | converter, result, [] => .ok (converter.peek = 0, result)
  | converter, result, c :: cs =>
    match decodeCharacter char c with
    | none => .ok (false, result)
    | some bits => (converter.append bits).bind fun converter =>
      if converter.CanExtract then
        converter.extract.bind fun (byte, converter) =>
          decodeLoop char converter (result ++ [.ofNat byte]) cs
      else decodeLoop char converter result cs

def base32Decode (char : CharType) (input : List UInt8) : Except Failure (Bool × List UInt8) :=
  decodeLoop char (.empty 5 8 16) [] input

end EnvironmentCheck.Base32
