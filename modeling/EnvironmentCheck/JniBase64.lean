import EnvironmentCheck.Base64Indices
import EnvironmentCheck.StringConversion

namespace EnvironmentCheck.JniBase64

open Sextets Utf16 StringConversion
open Base64 (CharType OutOfBounds Output Encoder Tail Decodable letter)

/-- What ends a native call without a result. -/
inductive Failure where
  | rangeError
  | undefined (access : OutOfBounds)
  deriving DecidableEq, Repr

/-- A conversion of `wstring_convert`, whose exception nothing catches. -/
def converted {α : Type} : Option α → Except Failure α
  | some a => .ok a
  | none => .error .rangeError

section Functions

variable {JString : Type}

def recode (coder : List UInt8 → Option Output → Except OutOfBounds (Option (List UInt8)))
    (env : JNIEnv JString) (orig : Option JString) : Except Failure (Option JString) :=
  (converted (StringConvert.javaStringToString (some env) orig)).bind fun origStr =>
  ((coder origStr (some (.other []))).mapError .undefined).bind fun
    | some coded => converted (StringConvert.stringToJavaString env coded)
    | none => .ok none

def encode (env : JNIEnv JString) (orig : Option JString) : Except Failure (Option JString) :=
  recode Base64.base64Encode env orig

def decode (char : CharType) (env : JNIEnv JString) (encode : Option JString) :
    Except Failure (Option JString) :=
  recode (Base64.base64DecodeIndexed char) env encode

def encodeWithPadding (env : JNIEnv JString) (orig : Option JString) :
    Except Failure (Option JString) :=
  recode Base64.base64EncodeWithPadding env orig

def encodeUrlSafe (env : JNIEnv JString) (orig : Option JString) :
    Except Failure (Option JString) :=
  recode Base64.base64EncodeUrlSafe env orig

def encodeUrlSafeWithPadding (env : JNIEnv JString) (orig : Option JString) :
    Except Failure (Option JString) :=
  recode Base64.base64EncodeUrlSafeWithPadding env orig

def native : Encoder → JNIEnv JString → Option JString → Except Failure (Option JString)
  | .base64Encode => encode
  | .base64EncodeWithPadding => encodeWithPadding
  | .base64EncodeUrlSafe => encodeUrlSafe
  | .base64EncodeUrlSafeWithPadding => encodeUrlSafeWithPadding

theorem native_eq (encoder : Encoder) (env : JNIEnv JString) (orig : Option JString) :
    native encoder env orig = recode encoder.run env orig := by
  cases encoder with
  | base64Encode => rfl
  | base64EncodeWithPadding => rfl
  | base64EncodeUrlSafe => rfl
  | base64EncodeUrlSafeWithPadding => rfl

end Functions

section Returns

variable {JString : Type} {env : JNIEnv JString} {orig : Option JString}

def Returns (call : Except Failure (Option JString)) : Prop := ∃ str, call = .ok str

/-- The code units that the call converts: none for a null reference, or when the virtual machine
does not give them. -/
def characters (env : JNIEnv JString) : Option JString → List UInt16
  | none => []
  | some str => ((env.getStringChars str).getD []).take (env.getStringLength str)

theorem javaStringToString_eq (env : JNIEnv JString) (orig : Option JString) :
    StringConvert.javaStringToString (some env) orig = toBytes (characters env orig) := by
  cases orig with
  | none => rfl
  | some str =>
    simp only [StringConvert.javaStringToString, characters]
    cases env.getStringChars str with
    | none => rw [Option.getD_none, List.take_nil]; rfl
    | some chars => rfl

theorem characters_of_holds {str : JString} {s : List UInt16} (h : Holds env str s) :
    characters env (some str) = s := by
  rw [characters, h.chars, h.length, Option.getD_some, List.take_length]

variable {coder : List UInt8 → Option Output → Except OutOfBounds (Option (List UInt8))}

theorem recode_encode {cs : List Char} (h : characters env orig = Utf16.encode cs) :
    recode coder env orig =
      ((coder (utf8 cs) (some (.other []))).mapError .undefined).bind fun
        | some coded => converted (StringConvert.stringToJavaString env coded)
        | none => .ok none := by
  rw [recode, javaStringToString_eq, h, toBytes_encode]
  rfl

theorem converted_utf8 (env : JNIEnv JString) (cs : List Char) :
    converted (StringConvert.stringToJavaString env (utf8 cs)) = .ok (env.newString (Utf16.encode cs)) := by
  rw [StringConvert.stringToJavaString, StringConvert.utf8StringToUtf16String, fromBytes_utf8]
  rfl

theorem converted_eq_ok {α : Type} {o : Option α} {a : α} (h : converted o = .ok a) : o = some a := by
  cases o with
  | none => cases h
  | some b => exact congrArg some (Except.ok.inj h)

theorem bind_eq_ok {α β : Type} {x : Except Failure α} {f : α → Except Failure β} {b : β}
    (h : x.bind f = .ok b) : ∃ a, x = .ok a ∧ f a = .ok b := by
  cases x with
  | error e => cases h
  | ok a => exact ⟨a, rfl, h⟩

theorem mapError_eq_ok {α : Type} {x : Except OutOfBounds α} {a : α}
    (h : x.mapError Failure.undefined = .ok a) : x = .ok a := by
  cases x with
  | error access => cases h
  | ok b => exact congrArg Except.ok (Except.ok.inj h)

theorem converted_returns_iff (env : JNIEnv JString) (coded : List UInt8) :
    Returns (converted (StringConvert.stringToJavaString env coded)) ↔ ∃ cs, coded = utf8 cs := by
  constructor
  · rintro ⟨str, h⟩
    obtain ⟨chars, hchars, -⟩ := Option.map_eq_some_iff.mp (converted_eq_ok h)
    obtain ⟨cs, hcs, -⟩ := fromBytes_eq_some hchars
    exact ⟨cs, hcs⟩
  · rintro ⟨cs, rfl⟩
    exact ⟨_, converted_utf8 env cs⟩

theorem recode_returns_iff : Returns (recode coder env orig) ↔
    ∃ cs, characters env orig = Utf16.encode cs ∧ ∃ r, coder (utf8 cs) (some (.other [])) = .ok r ∧
      ∀ coded, r = some coded → ∃ ds, coded = utf8 ds := by
  constructor
  · rintro ⟨str, h⟩
    obtain ⟨origStr, horig, h⟩ := bind_eq_ok h
    obtain ⟨r, hr, h⟩ := bind_eq_ok h
    have hbytes := converted_eq_ok horig
    rw [javaStringToString_eq] at hbytes
    obtain ⟨cs, hcs, rfl⟩ := toBytes_eq_some hbytes
    refine ⟨cs, hcs, r, mapError_eq_ok hr, ?_⟩
    rintro coded rfl
    exact (converted_returns_iff env coded).mp ⟨str, h⟩
  · rintro ⟨cs, hcs, r, hr, htext⟩
    rw [recode_encode hcs, hr]
    cases r with
    | none => exact ⟨none, rfl⟩
    | some coded => exact (converted_returns_iff env coded).mpr (htext coded rfl)

end Returns

section Encoders

variable {JString : Type} {env : JNIEnv JString} {orig : Option JString}

/-- Well-formed, with an encoding of fewer than `2 ^ 31` characters. -/
def Encodable (s : List UInt16) : Prop :=
  ∃ cs, s = Utf16.encode cs ∧ Base64.getBase64EncodedSize (utf8 cs) < 2 ^ 31

theorem encoding_utf8 (urlSafe padTo32Bits : Bool) (xs : List UInt8) :
    ∃ ds, Base64.encoding urlSafe padTo32Bits xs = utf8 ds := by
  have hlow := fun c => @Base64.low_of_encodes xs _ (Base64.encodes_encoding urlSafe padTo32Bits xs) c
  exact ⟨_, (utf8_of_ascii hlow).symm⟩

theorem native_returns_iff (encoder : Encoder) :
    Returns (native encoder env orig) ↔ Encodable (characters env orig) := by
  obtain ⟨urlSafe, padTo32Bits, -, hrun⟩ := encoder.run_eq
  rw [native_eq, recode_returns_iff]
  apply exists_congr
  intro cs
  rw [and_congr_right_iff]
  intro _
  rw [hrun, Base64.base64EncodeInternal_eq]
  by_cases hsize : Base64.getBase64EncodedSize (utf8 cs) < 2 ^ 31
  · refine iff_of_true ⟨_, if_pos hsize, ?_⟩ hsize
    intro coded hcoded
    rw [← Option.some.inj hcoded]
    exact encoding_utf8 urlSafe padTo32Bits (utf8 cs)
  · apply iff_of_false _ hsize
    rintro ⟨r, hr, -⟩
    rw [if_neg hsize] at hr
    cases hr

end Encoders

section Decoder

variable {JString : Type} {env : JNIEnv JString} {orig : Option JString} {char : CharType}
  {s xs : List UInt8}

/-- The bytes that a text spells: letters, and then the padding that the decoder takes. -/
def Text (xs s : List UInt8) : Prop :=
  ∃ body p, s = body ++ p ∧ Spells letter xs body ∧ Tail body.length p

theorem decoded_eq_some_iff : Base64.decoded s = some xs ↔ Text xs s := by
  constructor
  · intro h
    obtain ⟨body, p, hs, hbody, htail⟩ := Base64.decoded_eq_some h
    exact ⟨body, p, hs, spelled_eq_some.mp hbody, htail⟩
  · rintro ⟨body, p, rfl, hbody, htail⟩
    exact Base64.decoded_append htail (spelled_eq_some.mpr hbody)

theorem Text.length_ne (h : Text xs s) : s.length % 4 ≠ 1 := by
  obtain ⟨body, p, rfl, hbody, htail⟩ := h
  exact htail.length_ne hbody.length_ne

/-- Well-formed and in the decoder's bounds, and the bytes that the text spells, if it spells any,
are UTF-8. -/
def DecodesToText (char : CharType) (s : List UInt16) : Prop :=
  ∃ cs, s = Utf16.encode cs ∧ Decodable char (utf8 cs) ∧
    ∀ xs, Text xs (utf8 cs) → ∃ ds, xs = utf8 ds

theorem resize_drop (n k : ℕ) : (Base64.resize [] n).drop k = List.replicate (n - k) 0 := by
  rw [Base64.resize, List.take_nil, List.nil_append, List.length_nil, Nat.sub_zero,
    List.drop_replicate]

theorem decodes_utf8_iff (hdec : Decodable char s) :
    (∃ r, Base64.base64DecodeIndexed char s (some (.other [])) = .ok r ∧
      ∀ coded, r = some coded → ∃ ds, coded = utf8 ds) ↔
        ∀ xs, Text xs s → ∃ ds, xs = utf8 ds := by
  by_cases h : s.length % 4 = 1
  · refine iff_of_true ⟨none, if_pos h, ?_⟩ fun xs htext => absurd h htext.length_ne
    intro coded hcoded
    cases hcoded
  · rw [Base64.base64DecodeIndexed_eq hdec h]
    constructor
    · rintro ⟨r, hr, hcoded⟩ xs htext
      rw [decoded_eq_some_iff.mpr htext, Option.map_some] at hr
      have hutf8 := hcoded _ (Except.ok.inj hr).symm
      rwa [Output.buffer, resize_drop, utf8_append_nulls] at hutf8
    · intro htext
      refine ⟨_, rfl, ?_⟩
      intro coded hcoded
      obtain ⟨xs, hxs, rfl⟩ := Option.map_eq_some_iff.mp hcoded
      rw [Output.buffer, resize_drop, utf8_append_nulls]
      exact htext xs (decoded_eq_some_iff.mp hxs)

theorem decode_returns_iff (char : CharType) :
    Returns (decode char env orig) ↔ DecodesToText char (characters env orig) := by
  rw [decode, recode_returns_iff]
  apply exists_congr
  intro cs
  rw [and_congr_right_iff]
  intro _
  constructor
  · rintro ⟨r, hr, hcoded⟩
    have hdec := (Base64.base64DecodeIndexed_ok_iff char (utf8 cs) (.other [])).mp ⟨r, hr⟩
    exact ⟨hdec, (decodes_utf8_iff hdec).mp ⟨r, hr, hcoded⟩⟩
  · rintro ⟨hdec, htext⟩
    exact (decodes_utf8_iff hdec).mpr htext

end Decoder

section RoundTrip

variable {JString : Type} {env : JNIEnv JString} {char : CharType}

def Faithful (env : JNIEnv JString) : Prop :=
  ∀ us, ∃ str, env.newString us = some str ∧ Holds env str us

/-- What `decode` gives for what the native function gives has the same characters. -/
def RoundTrips (char : CharType) (env : JNIEnv JString) (encoder : Encoder) (str : JString)
    (s : List UInt16) : Prop :=
  ∃ encoded decoded, native encoder env (some str) = .ok (some encoded) ∧
    decode char env (some encoded) = .ok (some decoded) ∧ Holds env decoded s

theorem decode_encoding (char : CharType) (urlSafe padTo32Bits : Bool) {xs : List UInt8}
    (hsize : Base64.getBase64EncodedSize xs < 2 ^ 31) :
    Base64.base64DecodeIndexed char (Base64.encoding urlSafe padTo32Bits xs) (some (.other [])) =
      .ok (some xs) := by
  have hencodes := Base64.encodes_encoding urlSafe padTo32Bits xs
  have hmod := Base64.length_of_encodes hencodes
  have hover := Base64.not_overruns_encoding urlSafe padTo32Bits hsize
  rw [(Base64.base64DecodeIndexed_agrees char hmod (.other [])).2 hover]
  exact Base64.base64Decode_of_encodes char hencodes (.other [])

theorem roundTrips (char : CharType) (encoder : Encoder) (hnew : Faithful env) {str : JString}
    {cs : List Char} (hstr : Holds env str (Utf16.encode cs))
    (hsize : Base64.getBase64EncodedSize (utf8 cs) < 2 ^ 31) :
    RoundTrips char env encoder str (Utf16.encode cs) := by
  obtain ⟨urlSafe, padTo32Bits, -, hrun⟩ := encoder.run_eq
  obtain ⟨ds, hds⟩ := encoding_utf8 urlSafe padTo32Bits (utf8 cs)
  obtain ⟨encoded, hencoded, hholds⟩ := hnew (Utf16.encode ds)
  obtain ⟨decoded, hdecoded, hback⟩ := hnew (Utf16.encode cs)
  refine ⟨encoded, decoded, ?_, ?_, hback⟩
  · rw [native_eq, recode_encode (characters_of_holds hstr), hrun, Base64.base64EncodeInternal_eq,
      if_pos hsize, hds]
    exact (converted_utf8 env ds).trans (congrArg Except.ok hencoded)
  · rw [decode, recode_encode (characters_of_holds hholds), ← hds, decode_encoding char _ _ hsize]
    exact (converted_utf8 env cs).trans (congrArg Except.ok hdecoded)

end RoundTrip

/-- A native encoder returns, and `decode` undoes it on well-formed strings. -/
structure Delivers {JString : Type} (char : CharType) (env : JNIEnv JString) (encoder : Encoder)
    (orig : Option JString) : Prop where
  returns : Returns (native encoder env orig)
  roundTrip : Faithful env → ∀ str s, orig = some str → Holds env str s →
    (Utf16.decode s).isSome → RoundTrips char env encoder str s

theorem jniBase64_returns_iff {JString : Type} (char : CharType) (env : JNIEnv JString)
    (orig : Option JString) :
    (∀ encoder, Delivers char env encoder orig ↔ Encodable (characters env orig)) ∧
    (Returns (decode char env orig) ↔ DecodesToText char (characters env orig)) := by
  refine ⟨fun encoder => ⟨?_, ?_⟩, decode_returns_iff char⟩
  · intro hdelivers
    exact (native_returns_iff encoder).mp hdelivers.returns
  · rintro ⟨cs, hcs, hsize⟩
    refine ⟨(native_returns_iff encoder).mpr ⟨cs, hcs, hsize⟩, ?_⟩
    rintro hnew str s rfl hholds -
    rw [characters_of_holds hholds] at hcs
    rw [hcs] at hholds ⊢
    exact roundTrips char encoder hnew hholds hsize

/-- `gA==` spells the byte `0x80`, which is no UTF-8. -/
theorem decode_throws :
    (∀ char, decode char plainEnv (some [0x67, 0x41, 0x3D, 0x3D]) = .error .rangeError ∧
      ¬ Returns (decode char plainEnv (some [0x67, 0x41, 0x3D, 0x3D]))) ∧
    ∀ encoder, native encoder plainEnv (some [0xD800]) = .error .rangeError ∧
      ¬ Returns (native encoder plainEnv (some [0xD800])) := by
  have hnot : ∀ {call : Except Failure (Option (List UInt16))}, call = .error .rangeError →
      ¬ Returns call := by
    rintro call rfl ⟨str, hstr⟩
    cases hstr
  have hdecode : ∀ char, decode char plainEnv (some [0x67, 0x41, 0x3D, 0x3D]) =
      .error .rangeError := by
    intro char
    cases char with
    | unsigned => decide +kernel
    | signed => decide +kernel
  have hencode : ∀ encoder, native encoder plainEnv (some [0xD800]) = .error .rangeError := by
    intro encoder
    rw [native_eq]
    rfl
  exact ⟨fun char => ⟨hdecode char, hnot (hdecode char)⟩, fun encoder =>
    ⟨hencode encoder, hnot (hencode encoder)⟩⟩

end EnvironmentCheck.JniBase64
