import EnvironmentCheck.Library.Utf16
import Mathlib.Data.List.TakeWhile
import Mathlib.Data.UInt

namespace EnvironmentCheck.StringConversion

open Utf16

/-- `wstring_convert::to_bytes` of a range; none is a `range_error`. -/
def toBytes (string : List UInt16) : Option (List UInt8) := (decode string).map utf8

def fromBytes (string : List UInt8) : Option (List UInt16) := (utf8Decode string).map encode

/-- What the overloads for a pointer take: the characters before the first NUL. A string's
`data()` has one after its characters. -/
def terminated {α : Type} [DecidableEq α] [Zero α] (data : List α) : List α :=
  data.takeWhile fun c => c ≠ 0

def utf16ToUtf8 (string : List UInt16) : Option (List UInt8) := toBytes (terminated string)

def utf8ToUtf16 (string : List UInt8) : Option (List UInt16) := fromBytes (terminated string)

/-- The calls of the virtual machine, which return null when they fail. -/
structure JNIEnv (JString : Type) where
  getStringChars : JString → Option (List UInt16)
  getStringLength : JString → ℕ
  newString : List UInt16 → Option JString

section Jni

variable {JString : Type}

/-- `jni_util`'s, which gives no bytes when the conversion throws. -/
def javaStringToString (env : Option (JNIEnv JString)) (str : Option JString) :
    Option (List UInt8) :=
  match env, str with
  | some env, some str =>
    match env.getStringChars str with
    | none => some []
    | some chars => utf16ToUtf8 (chars.take (env.getStringLength str))
  | _, _ => some []

/-- A null reference inside when the virtual machine gives none. -/
def stringToJavaString (env : JNIEnv JString) (u8String : List UInt8) : Option (Option JString) :=
  (utf8ToUtf16 u8String).map env.newString

namespace StringConvert

def utf16StringToUtf8String (chars : List UInt16) (len : ℕ) : Option (List UInt8) :=
  toBytes (chars.take len)

def javaStringToString (env : Option (JNIEnv JString)) (str : Option JString) :
    Option (List UInt8) :=
  match env, str with
  | some env, some str =>
    match env.getStringChars str with
    | none => some []
    | some chars => utf16StringToUtf8String chars (env.getStringLength str)
  | _, _ => some []

def utf8StringToUtf16String (string : List UInt8) : Option (List UInt16) := fromBytes string

/-- A null reference inside when the virtual machine gives none. -/
def stringToJavaString (env : JNIEnv JString) (u8String : List UInt8) : Option (Option JString) :=
  (utf8StringToUtf16String u8String).map env.newString

end StringConvert

end Jni

section Converted

theorem toBytes_encode (cs : List Char) : toBytes (encode cs) = some (utf8 cs) := by
  rw [toBytes, decode_encode, Option.map_some]

theorem fromBytes_utf8 (cs : List Char) : fromBytes (utf8 cs) = some (encode cs) := by
  rw [fromBytes, utf8Decode_utf8, Option.map_some]

theorem toBytes_eq_some {string : List UInt16} {bytes : List UInt8} (h : toBytes string = some bytes) :
    ∃ cs, string = encode cs ∧ bytes = utf8 cs := by
  obtain ⟨cs, hcs, rfl⟩ := Option.map_eq_some_iff.mp h
  exact ⟨cs, (encode_of_decode hcs).symm, rfl⟩

theorem fromBytes_eq_some {string : List UInt8} {chars : List UInt16}
    (h : fromBytes string = some chars) : ∃ cs, string = utf8 cs ∧ chars = encode cs := by
  obtain ⟨cs, hcs, rfl⟩ := Option.map_eq_some_iff.mp h
  obtain ⟨ds, rfl⟩ := utf8Decode_isSome_iff.mp (Option.isSome_of_eq_some hcs)
  rw [utf8Decode_utf8] at hcs
  exact ⟨ds, rfl, congrArg encode (Option.some.inj hcs).symm⟩

end Converted

section Terminated

variable {cs : List Char}

/-- The characters before the first U+0000. -/
def beforeNull (cs : List Char) : List Char := cs.takeWhile fun c => c ≠ .ofNat 0

theorem terminated_encode (cs : List Char) : terminated (encode cs) = encode (beforeNull cs) := by
  apply takeWhile_flatMap
  · intro c hc u hu
    rw [decide_eq_true_eq] at hc ⊢
    exact units_ne_zero hc hu
  · intro c hc
    rw [decide_eq_false_iff_not, not_not] at hc
    rw [hc]
    exact ⟨0, [], rfl, rfl⟩

theorem terminated_utf8 (cs : List Char) : terminated (utf8 cs) = utf8 (beforeNull cs) := by
  apply takeWhile_flatMap
  · intro c hc u hu
    rw [decide_eq_true_eq] at hc ⊢
    exact utf8EncodeChar_ne_zero hc hu
  · intro c hc
    rw [decide_eq_false_iff_not, not_not] at hc
    rw [hc]
    exact ⟨0, [], rfl, rfl⟩

theorem beforeNull_beforeNull (cs : List Char) : beforeNull (beforeNull cs) = beforeNull cs :=
  List.takeWhile_idem

theorem utf16ToUtf8_encode (cs : List Char) :
    utf16ToUtf8 (encode cs) = some (utf8 (beforeNull cs)) := by
  rw [utf16ToUtf8, terminated_encode, toBytes_encode]

theorem utf8ToUtf16_utf8 (cs : List Char) :
    utf8ToUtf16 (utf8 cs) = some (encode (beforeNull cs)) := by
  rw [utf8ToUtf16, terminated_utf8, fromBytes_utf8]

theorem beforeNull_eq_iff : beforeNull cs = cs ↔ (0 : UInt16) ∉ encode cs := by
  have hself : beforeNull cs = cs ↔ terminated (encode cs) = encode cs := by
    rw [terminated_encode]
    exact ⟨congrArg encode, encode_inj⟩
  rw [hself, terminated, List.takeWhile_eq_self_iff]
  constructor
  · intro h hmem
    exact of_decide_eq_true (h 0 hmem) rfl
  · intro h u hu
    rw [decide_eq_true_eq]
    rintro rfl
    exact h hu

end Terminated

section Conversions

variable {JString : Type} {env : JNIEnv JString} {str : JString} {s : List UInt16}

/-- The calls on a string with these characters succeed. -/
structure Holds (env : JNIEnv JString) (str : JString) (s : List UInt16) : Prop where
  chars : env.getStringChars str = some s
  length : env.getStringLength str = s.length

theorem javaStringToString_encode {cs : List Char} (h : Holds env str (encode cs)) :
    javaStringToString (some env) (some str) = some (utf8 (beforeNull cs)) := by
  simp only [javaStringToString, h.chars, h.length, List.take_length]
  exact utf16ToUtf8_encode cs

theorem stringConvert_encode {cs : List Char} (h : Holds env str (encode cs)) :
    StringConvert.javaStringToString (some env) (some str) = some (utf8 cs) := by
  simp only [StringConvert.javaStringToString, h.chars, h.length,
    StringConvert.utf16StringToUtf8String, List.take_length, toBytes_encode]

theorem conversions_iff (hwell : (decode s).isSome) (hstr : Holds env str s)
    (hnew : ∀ us, ∃ str', env.newString us = some str' ∧ Holds env str' us) :
    ((∃ u8String str', javaStringToString (some env) (some str) = some u8String ∧
        stringToJavaString env u8String = some (some str') ∧ Holds env str' s) ↔ 0 ∉ s) ∧
    (javaStringToString (some env) (some str) =
        StringConvert.javaStringToString (some env) (some str) ↔ 0 ∉ s) := by
  obtain ⟨cs, hcs⟩ := Option.isSome_iff_exists.mp hwell
  obtain rfl := encode_of_decode hcs
  rw [javaStringToString_encode hstr, stringConvert_encode hstr, ← beforeNull_eq_iff]
  constructor
  · constructor
    · rintro ⟨u8String, str', hu8, hback, hholds⟩
      obtain ⟨str'', hstr'', hchars⟩ := hnew (encode (beforeNull cs))
      rw [← Option.some.inj hu8, stringToJavaString, utf8ToUtf16_utf8, beforeNull_beforeNull,
        Option.map_some, hstr''] at hback
      obtain rfl := Option.some.inj (Option.some.inj hback)
      exact encode_inj (Option.some.inj (hchars.chars.symm.trans hholds.chars))
    · intro hself
      obtain ⟨str', hstr', hholds⟩ := hnew (encode cs)
      refine ⟨_, str', rfl, ?_, hholds⟩
      rw [stringToJavaString, utf8ToUtf16_utf8, beforeNull_beforeNull, hself, Option.map_some, hstr']
  · rw [Option.some.injEq]
    exact ⟨utf8_inj, congrArg utf8⟩

/-- Java strings as their characters. -/
def plainEnv : JNIEnv (List UInt16) where
  getStringChars := some
  getStringLength := List.length
  newString := some

theorem plainEnv_holds (s : List UInt16) : Holds plainEnv s s := ⟨rfl, rfl⟩

theorem conversions_iff_supplementary :
    javaStringToString (some plainEnv) (some [0x41, 0xD83D, 0xDE00]) =
      StringConvert.javaStringToString (some plainEnv) (some [0x41, 0xD83D, 0xDE00]) :=
  (conversions_iff (by decide) (plainEnv_holds _) fun us => ⟨us, rfl, plainEnv_holds us⟩).2.mpr
    (by decide)

theorem embeddedNull_truncated :
    javaStringToString (some plainEnv) (some [0x41, 0, 0x42]) = some [0x41] ∧
      StringConvert.javaStringToString (some plainEnv) (some [0x41, 0, 0x42]) =
        some [0x41, 0, 0x42] ∧
      stringToJavaString plainEnv [0x41] = some (some [0x41]) := by
  refine ⟨by decide, by decide, ?_⟩
  have h := utf8ToUtf16_utf8 ['A']
  rw [stringToJavaString, show [0x41] = utf8 ['A'] from rfl, h]
  rfl

end Conversions

end EnvironmentCheck.StringConversion
