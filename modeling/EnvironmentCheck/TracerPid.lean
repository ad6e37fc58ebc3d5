import EnvironmentCheck.CommonFiles
import EnvironmentCheck.JavaText
import EnvironmentCheck.Library.Utf8Replacing
import EnvironmentCheck.Scanning

namespace EnvironmentCheck

namespace TracerPid

open LineReading Numerals Scanning Utf16

def tracerPid : String := "TracerPid"

/-! ### The native check -/

/-- A buffer after `fgets` put this piece at its start; the rest is what it was. -/
def fill (buffer piece : List UInt8) : List UInt8 :=
  piece ++ 0 :: buffer.drop (piece.length + 1)

def scanNative (buffer : List UInt8) : List (List UInt8) → ℤ
  | [] => 0
  | piece :: rest =>
    if (fill buffer piece).take 9 = ascii tracerPid ∧ atoi ((fill buffer piece).drop 10) ≠ 0 then -1
    else scanNative (fill buffer piece) rest

def nativeResult (status : Option (List UInt8)) : ℤ :=
  match status with
  | none => -2
  | some content => scanNative (List.replicate 1024 0) (pieces newline (1024 - 1) content)

/-- The result as a `jboolean`. -/
def nativeReadTracerPid (status : Option (List UInt8)) : Bool :=
  UInt8.ofInt (nativeResult status) ≠ 0

/-! ### The Kotlin check -/

variable (java : JavaText)

/-- A unit of a `String` as a character; a surrogate has no case and is no digit. -/
def character (u : UInt16) : Option Char :=
  if u.toNat < 0xD800 ∨ 0xDFFF < u.toNat then some (.ofNat u.toNat) else none

def sameUnit (u v : UInt16) : Bool :=
  u = v || match character u, character v with
    | some c, some d => sameIgnoringCase java c d
    | _, _ => false

def equalUnits : List UInt16 → List UInt16 → Bool
  | [], [] => true
  | u :: s, v :: t => sameUnit java u v && equalUnits s t
  | _, _ => false

/-- `trim { it <= ' ' }` -/
def trim (s : List UInt16) : List UInt16 :=
  ((s.dropWhile (· ≤ 32)).reverse.dropWhile (· ≤ 32)).reverse

-- `-` and `+`
def splitSign : List UInt16 → Bool × List UInt16
  | 45 :: s => (true, s)
  | 43 :: s => (false, s)
  | s => (false, s)

-- `0x`, `0X`, `#` and `0`
def splitRadix : List UInt16 → ℕ × List UInt16
  | 48 :: 120 :: s => (16, s)
  | 48 :: 88 :: s => (16, s)
  | 35 :: s => (16, s)
  | 48 :: u :: s => (8, u :: s)
  | s => (10, s)

def toInt (n : ℤ) : Option ℤ :=
  if -2 ^ 31 ≤ n ∧ n < 2 ^ 31 then some n else none

def digit (radix : ℕ) (u : UInt16) : Option ℕ :=
  (character u).bind (java.digit radix)

/-- `Integer.valueOf` of digits without a sign; no digit at all is no number. -/
def valueOf (radix : ℕ) (s : List UInt16) : Option ℕ :=
  if s = [] then none else (s.mapM (digit java radix)).map (value radix)

/-- `Integer.decode`; `none` is a `NumberFormatException`. -/
def decodeInt (s : List UInt16) : Option ℤ :=
  let (negative, t) := splitSign s
  let (radix, u) := splitRadix t
  if u.head? = some 45 ∨ u.head? = some 43 then none
  else (valueOf java radix u).bind fun n => toInt (if negative then -n else n)

def namesTracer (line : List UInt16) : Bool :=
  tracerPid.length < line.length &&
    equalUnits java (line.take tracerPid.length) (encode tracerPid.toList)

def positive (line : List UInt16) : Bool :=
  match decodeInt java (trim (line.drop (tracerPid.length + 1))) with
  | some n => 0 < n
  | none => false

-- where the lines end, `readLine` gives a null that a `String` cannot hold
def scanLines : List (List UInt16) → Bool
  | [] => false
  | line :: rest => if namesTracer java line then positive java line else scanLines rest

/-- What an `InputStreamReader` gives. -/
def chars (content : List UInt8) : List UInt16 :=
  encode (Utf8Replacing.decode content)

def isReadTracerPid (status : Option (List UInt8)) : Bool :=
  match status with
  | none => false
  | some content => scanLines java (readLines 10 13 (chars content))

/-! ### What the kernel writes -/

def asciiChars (s : List UInt8) : List Char :=
  s.map fun b => Char.ofNat b.toNat

/-- A line of another field. A line that does not fit the native buffer is made of numbers. -/
structure StatusLine where
  key : List UInt8
  value : List UInt8
  key_ascii : ∀ b ∈ key, b.toNat < 0x80 ∧ b ≠ 58 ∧ b ≠ newline ∧ b ≠ 13
  key_other : ¬ "tracerpid".toList <+: (asciiChars key).map Char.toLower
  key_short : key.length ≤ 64
  value_line : newline ∉ value
  value_long : 1023 ≤ key.length + 2 + value.length → 84 ∉ value

def StatusLine.body (line : StatusLine) : List UInt8 :=
  line.key ++ [58, 9] ++ line.value

def StatusLine.text (line : StatusLine) : List UInt8 :=
  line.body ++ [newline]

structure Status where
  before : List StatusLine
  pid : ℕ
  pid_lt : pid < 2 ^ 31
  after : List StatusLine

def tracerLine (pid : ℕ) : List UInt8 :=
  ascii "TracerPid:\t" ++ decimal pid

def linesText (lines : List StatusLine) : List UInt8 :=
  lines.flatMap StatusLine.text

def Status.content (s : Status) : List UInt8 :=
  linesText s.before ++ (tracerLine s.pid ++ newline :: linesText s.after)

/-! ### The native check on a status file -/

theorem take_fill_ne {buffer piece : List UInt8} (h : ¬ ascii tracerPid <+: piece) :
    (fill buffer piece).take 9 ≠ ascii tracerPid := by
  intro htake
  apply h
  have hfill := List.take_append_drop 9 (fill buffer piece)
  rw [htake, fill] at hfill
  exact prefix_of_append_eq hfill (by decide)

theorem scanNative_append (buffer : List UInt8) {ps : List (List UInt8)}
    (hps : ∀ p ∈ ps, ¬ ascii tracerPid <+: p) (qs : List (List UInt8)) :
    ∃ buffer', scanNative buffer (ps ++ qs) = scanNative buffer' qs := by
  induction ps generalizing buffer with
  | nil => exact ⟨buffer, rfl⟩
  | cons p ps ih =>
    have hp := hps p List.mem_cons_self
    obtain ⟨buffer', h⟩ := ih (fill buffer p) fun q hq => hps q (List.mem_cons_of_mem p hq)
    refine ⟨buffer', ?_⟩
    rw [List.cons_append, scanNative, if_neg fun hnames => take_fill_ne hp hnames.1, h]

theorem not_prefix_body (line : StatusLine) (t : List UInt8) :
    ¬ ascii tracerPid <+: line.body ++ t := by
  rintro ⟨r, h⟩
  apply line.key_other
  rw [StatusLine.body, List.append_assoc, List.append_assoc, List.cons_append] at h
  have hkey : ascii tracerPid <+: line.key := prefix_of_append_eq h (by decide)
  have hname : "tracerpid".toList = (asciiChars (ascii tracerPid)).map Char.toLower := by decide
  rw [hname]
  exact (hkey.map _).map Char.toLower

theorem line_not_mem (line : StatusLine) : newline ∉ line.body := by
  intro h
  rw [StatusLine.body, List.mem_append, List.mem_append] at h
  obtain (hkey | hmark) | hvalue := h
  · exact (line.key_ascii newline hkey).2.2.1 rfl
  · revert hmark
    decide
  · exact line.value_line hvalue

theorem not_prefix_of_not_mem {p : List UInt8} (h : 84 ∉ p) : ¬ ascii tracerPid <+: p := by
  intro hp
  exact h (hp.subset List.mem_cons_self)

theorem length_body (line : StatusLine) :
    line.body.length = line.key.length + 2 + line.value.length := by
  rw [StatusLine.body, List.length_append, List.length_append, List.length_cons,
    List.length_singleton]

/-- What a long line leaves after a first piece belongs to its value. -/
theorem mem_value_of_mem_drop (line : StatusLine) {b : UInt8} (h : b ∈ line.body.drop 1023) :
    b ∈ line.value := by
  have hshort := line.key_short
  have hmark : (line.key ++ [58, 9]).length ≤ 1023 := by
    rw [List.length_append, List.length_cons, List.length_singleton]
    omega
  rw [StatusLine.body, List.drop_append, List.drop_eq_nil_of_le hmark, List.nil_append] at h
  exact List.mem_of_mem_drop h

theorem pieces_text (line : StatusLine) :
    ∀ p ∈ pieces newline 1023 line.text, ¬ ascii tracerPid <+: p := by
  intro p hp
  have hbody := line_not_mem line
  have hne : line.text ≠ [] := List.append_ne_nil_of_right_ne_nil _ (List.cons_ne_nil _ _)
  rw [pieces_of_ne_nil newline (by decide) hne, StatusLine.text] at hp
  by_cases hlen : line.body.length < 1023
  · rw [fgets_line hbody hlen, pieces_nil, List.mem_singleton] at hp
    rw [hp]
    exact not_prefix_body line _
  · rw [fgets_within hbody (by omega)] at hp
    have hvalue : 84 ∉ line.value := by
      apply line.value_long
      rw [← length_body]
      omega
    obtain rfl | hrest := List.mem_cons.mp hp
    · intro hfront
      apply not_prefix_body line []
      rw [List.append_nil]
      exact hfront.trans (List.take_prefix 1023 _)
    · apply not_prefix_of_not_mem
      intro hmem
      obtain hdrop | hend := List.mem_append.mp (mem_of_mem_pieces (by decide) hrest hmem)
      · exact hvalue (mem_value_of_mem_drop line hdrop)
      · revert hend
        decide

theorem pieces_lines (lines : List StatusLine) (rest : List UInt8) :
    pieces newline 1023 (linesText lines ++ rest) =
      (lines.flatMap fun line => pieces newline 1023 line.text) ++ pieces newline 1023 rest := by
  induction lines with
  | nil => rfl
  | cons line lines ih =>
    have htext : linesText (line :: lines) ++ rest =
        line.body ++ newline :: (linesText lines ++ rest) := by
      rw [linesText, List.flatMap_cons, StatusLine.text, List.append_assoc, List.append_assoc]
      rfl
    rw [htext, pieces_line (by decide) (line_not_mem line), ih, List.flatMap_cons,
      List.append_assoc, StatusLine.text]

theorem scanNative_lines (buffer : List UInt8) (lines : List StatusLine) (rest : List UInt8) :
    ∃ buffer', scanNative buffer (pieces newline 1023 (linesText lines ++ rest)) =
      scanNative buffer' (pieces newline 1023 rest) := by
  rw [pieces_lines]
  apply scanNative_append
  intro p hp
  obtain ⟨line, _, hline⟩ := List.mem_flatMap.mp hp
  exact pieces_text line p hline

theorem atoi_decimal {n : ℕ} (hn : n < 2 ^ 31) {rest : List UInt8}
    (hrest : ∀ b ∈ rest.head?, byteDigit b = none) : atoi (9 :: (decimal n ++ rest)) = n := by
  have hread := scanInt_decimal [9] (by simp [isspace]) hn hrest
  rw [List.singleton_append] at hread
  simp only [atoi, hread]

theorem length_tracerLine {pid : ℕ} (h : pid < 2 ^ 31) : (tracerLine pid).length < 1023 := by
  have hlen : (decimal pid).length ≤ 10 := length_decimal_le (by decide) (by omega)
  have hname : (ascii "TracerPid:\t").length = 11 := by decide
  rw [tracerLine, List.length_append, hname]
  omega

theorem mem_tracerLine {pid : ℕ} {b : UInt8} (h : b ∈ tracerLine pid) :
    b.toNat < 0x80 ∧ b ≠ newline ∧ b ≠ 13 := by
  have hascii : (ascii "TracerPid:\t").all
      (fun b => b.toNat < 0x80 ∧ b ≠ newline ∧ b ≠ 13) = true := by
    decide
  rw [tracerLine, List.mem_append] at h
  obtain hname | hdigit := h
  · exact of_decide_eq_true (List.all_eq_true.mp hascii b hname)
  · obtain ⟨d, hd, rfl⟩ := List.mem_map.mp hdigit
    have hten := lt_of_mem_decimal hd
    interval_cases d <;> decide

theorem nativeResult_content (s : Status) :
    nativeResult (some s.content) = if s.pid ≠ 0 then -1 else 0 := by
  have hlen := length_tracerLine s.pid_lt
  have hline : newline ∉ tracerLine s.pid := fun h => (mem_tracerLine h).2.1 rfl
  obtain ⟨buffer, hbefore⟩ := scanNative_lines (List.replicate 1024 0) s.before
    (tracerLine s.pid ++ newline :: linesText s.after)
  rw [nativeResult, Status.content, hbefore, pieces_of_ne_nil newline (by decide) (by simp),
    fgets_line hline hlen]
  have htake : (fill buffer (tracerLine s.pid ++ [newline])).take 9 = ascii tracerPid := rfl
  have hdrop : (fill buffer (tracerLine s.pid ++ [newline])).drop 10 =
      9 :: (decimal s.pid ++ newline :: 0 ::
        buffer.drop ((tracerLine s.pid ++ [newline]).length + 1)) := by
    rw [fill, List.append_assoc]
    rfl
  have hatoi : atoi ((fill buffer (tracerLine s.pid ++ [newline])).drop 10) = s.pid := by
    rw [hdrop, atoi_decimal s.pid_lt]
    rintro b ⟨⟩
    rfl
  obtain ⟨buffer', hafter⟩ := scanNative_lines (fill buffer (tracerLine s.pid ++ [newline]))
    s.after []
  rw [List.append_nil] at hafter
  rw [scanNative, hatoi]
  by_cases hpid : s.pid = 0
  · rw [if_neg (by simp [hpid]), if_neg (by simp [hpid]), hafter]
    rfl
  · rw [if_pos ⟨htake, by exact_mod_cast hpid⟩, if_pos hpid]

theorem nativeReadTracerPid_content (s : Status) :
    nativeReadTracerPid (some s.content) = decide (s.pid ≠ 0) := by
  rw [nativeReadTracerPid, nativeResult_content]
  by_cases hpid : s.pid = 0
  · rw [if_neg (not_not_intro hpid)]
    simp only [hpid]
    rfl
  · rw [if_pos hpid, decide_eq_true hpid]
    rfl

/-! ### The Kotlin check on a status file -/

def widen (s : List UInt8) : List UInt16 :=
  s.map fun b => .ofNat b.toNat

theorem widen_append (s t : List UInt8) : widen (s ++ t) = widen s ++ widen t :=
  List.map_append

theorem toNat_widen (b : UInt8) : (UInt16.ofNat b.toNat).toNat = b.toNat :=
  uint16_toNat (b.toNat_lt.trans (by decide))

theorem widen_inj {b c : UInt8} (h : UInt16.ofNat b.toNat = .ofNat c.toNat) : b = c := by
  have htoNat := congrArg UInt16.toNat h
  rw [toNat_widen, toNat_widen] at htoNat
  exact UInt8.toNat_inj.mp htoNat

theorem encode_ascii {bs : List UInt8} (h : ∀ b ∈ bs, b.toNat < 0x80) :
    encode (asciiChars bs) = widen bs := by
  rw [encode, asciiChars, widen, List.flatMap_map, List.map_eq_flatMap]
  apply List.flatMap_congr
  intro b hb
  have hval : (Char.ofNat b.toNat).val.toNat = b.toNat := toNat_val_ofNat (by have := h b hb; omega)
  have hlt := h b hb
  rw [units_of_lt (by omega), hval]

theorem chars_ascii {bs : List UInt8} (h : ∀ b ∈ bs, b.toNat < 0x80) (rest : List UInt8) :
    chars (bs ++ rest) = widen bs ++ chars rest := by
  rw [chars, Utf8Replacing.decode_ascii h, encode_append]
  exact congrArg (· ++ chars rest) (encode_ascii h)

theorem chars_append_ascii (s : List UInt8) {b : UInt8} (hb : b.toNat < 0x80) (rest : List UInt8) :
    chars (s ++ b :: rest) = chars s ++ .ofNat b.toNat :: chars rest := by
  have hall : ∀ x ∈ [b], x.toNat < 0x80 := List.forall_mem_singleton.mpr hb
  have hone : encode [Char.ofNat b.toNat] = [.ofNat b.toNat] := encode_ascii hall
  rw [chars, Utf8Replacing.decode_append_ascii s hb, encode_append, ← List.singleton_append,
    encode_append, hone]
  rfl

/-- The lines that a `BufferedReader` gives. -/
def shownLines (text : List UInt8) : List (List UInt16) :=
  readLines 10 13 (chars text)

theorem shownLines_append (x y : List UInt8) :
    shownLines (x ++ newline :: y) = shownLines (x ++ [newline]) ++ shownLines y := by
  have hnl : newline.toNat < 0x80 := by decide
  rw [shownLines, shownLines, chars_append_ascii x hnl, chars_append_ascii x hnl]
  exact readLines_append _ _

theorem shownLines_lines (lines : List StatusLine) (rest : List UInt8) :
    shownLines (linesText lines ++ rest) = shownLines (linesText lines) ++ shownLines rest := by
  obtain rfl | ⟨lines, line, rfl⟩ := List.eq_nil_or_concat lines
  · rfl
  · have htext : linesText (lines.concat line) = linesText lines ++ line.body ++ [newline] := by
      rw [List.concat_eq_append, linesText, List.flatMap_append, List.flatMap_singleton,
        StatusLine.text, List.append_assoc]
      rfl
    rw [htext, List.append_assoc _ [newline], List.singleton_append]
    exact shownLines_append _ _

theorem not_mem_widen {s : List UInt8} {b : UInt8} (h : ∀ x ∈ s, x ≠ b) :
    .ofNat b.toNat ∉ widen s := by
  intro hmem
  obtain ⟨x, hx, hxb⟩ := List.mem_map.mp hmem
  exact h x hx (widen_inj hxb)

theorem shownLines_tracer (pid : ℕ) (rest : List UInt8) :
    shownLines (tracerLine pid ++ newline :: rest) =
      widen (tracerLine pid) :: shownLines rest := by
  have hnl : newline.toNat < 0x80 := by decide
  have hlf : 10 ∉ widen (tracerLine pid) :=
    not_mem_widen (b := newline) fun x hx => (mem_tracerLine hx).2.1
  have hcr : 13 ∉ widen (tracerLine pid) :=
    not_mem_widen (b := 13) fun x hx => (mem_tracerLine hx).2.2
  have htext : chars (tracerLine pid ++ newline :: rest) =
      widen (tracerLine pid) ++ 10 :: chars rest := by
    rw [chars_ascii fun b hb => (mem_tracerLine hb).1]
    exact congrArg (widen (tracerLine pid) ++ ·) (chars_append_ascii [] hnl rest)
  rw [shownLines, htext, readLines_of_ne_nil (by simp), readLine_of_not_mem hlf hcr]
  rfl

variable {java}

theorem scanLines_append (xs ys : List (List UInt16)) : scanLines java (xs ++ ys) =
    match xs.find? (namesTracer java) with
    | some line => positive java line
    | none => scanLines java ys := by
  induction xs with
  | nil => rfl
  | cons line xs ih =>
    rw [List.cons_append, scanLines, List.find?_cons]
    by_cases h : namesTracer java line = true
    · rw [if_pos h, h]
    · rw [if_neg h, ih, Bool.eq_false_of_not_eq_true h]

theorem equalUnits_self (s : List UInt16) : equalUnits java s s = true := by
  induction s with
  | nil => rfl
  | cons u s ih =>
    rw [equalUnits, ih, sameUnit]
    simp

theorem namesTracer_tracerLine (pid : ℕ) : namesTracer java (widen (tracerLine pid)) = true := by
  have htake : (widen (tracerLine pid)).take tracerPid.length = encode tracerPid.toList := rfl
  have hlen : tracerPid.length < (widen (tracerLine pid)).length := by
    have hname : (ascii "TracerPid:\t").length = 11 := by decide
    have htracer : tracerPid.length = 9 := rfl
    rw [widen, List.length_map, tracerLine, List.length_append, hname, htracer]
    omega
  rw [namesTracer, htake, equalUnits_self, decide_eq_true hlen]
  rfl

def decimalUnit (d : ℕ) : UInt16 :=
  .ofNat (48 + d)

theorem widen_decimal (n : ℕ) : widen (decimal n) = (numeral 10 n).map decimalUnit := by
  rw [widen, decimal, List.map_map]
  apply List.map_congr_left
  intro d hd
  rw [Function.comp_apply, digitByte_toNat (lt_of_mem_decimal hd), decimalUnit]

theorem decimalUnit_facts {d : ℕ} (h : d < 10) : 32 < decimalUnit d ∧
    character (decimalUnit d) = some (.ofNat (48 + d)) ∧
    ¬ (some (decimalUnit d) = some 45 ∨ some (decimalUnit d) = some 43) := by
  interval_cases d <;> decide

theorem trim_eq {s : List UInt16} (h : ∀ u ∈ s, 32 < u) : trim (9 :: s) = s := by
  have hkeep (t : List UInt16) (ht : ∀ u ∈ t, 32 < u) : t.dropWhile (· ≤ 32) = t := by
    cases t with
    | nil => rfl
    | cons u t =>
      rw [List.dropWhile_cons_of_neg]
      simpa using ht u List.mem_cons_self
  rw [trim, List.dropWhile_cons_of_pos (by decide), hkeep s h, hkeep s.reverse, List.reverse_reverse]
  intro u hu
  exact h u (List.mem_reverse.mp hu)

theorem splitSign_digit {d : ℕ} (h : d < 10) (s : List UInt16) :
    splitSign (decimalUnit d :: s) = (false, decimalUnit d :: s) := by
  interval_cases d <;> rfl

theorem splitRadix_digit {d : ℕ} (h : d < 10) (h0 : d ≠ 0) (s : List UInt16) :
    splitRadix (decimalUnit d :: s) = (10, decimalUnit d :: s) := by
  interval_cases d
  · exact absurd rfl h0
  all_goals rfl

theorem splitRadix_numeral (n : ℕ) : splitRadix ((numeral 10 n).map decimalUnit) =
    (10, (numeral 10 n).map decimalUnit) := by
  obtain ⟨_, hzero⟩ | ⟨d, ds, hcons, h0⟩ := numeral_cases 10 n
  · rw [hzero]
    rfl
  · rw [hcons, List.map_cons]
    exact splitRadix_digit (lt_of_mem_decimal (hcons ▸ List.mem_cons_self)) h0 _

theorem decodeInt_numeral {n : ℕ} (hn : n < 2 ^ 31) :
    decodeInt java ((numeral 10 n).map decimalUnit) = some (n : ℤ) := by
  obtain ⟨d, ds, hcons⟩ := exists_numeral_eq_cons 10 n
  have hd : d < 10 := lt_of_mem_decimal (hcons ▸ List.mem_cons_self)
  have hsign : splitSign ((numeral 10 n).map decimalUnit) =
      (false, (numeral 10 n).map decimalUnit) := by
    rw [hcons]
    exact splitSign_digit hd _
  have hhead : ¬ (((numeral 10 n).map decimalUnit).head? = some 45 ∨
      ((numeral 10 n).map decimalUnit).head? = some 43) := by
    rw [hcons, List.map_cons, List.head?_cons]
    exact (decimalUnit_facts hd).2.2
  have hdigit : ∀ e ∈ numeral 10 n, digit java 10 (decimalUnit e) = some e := by
    intro e he
    rw [digit, (decimalUnit_facts (lt_of_mem_decimal he)).2.1, Option.bind_some]
    exact java.digit_ascii e (lt_of_mem_decimal he)
  have hread : valueOf java 10 ((numeral 10 n).map decimalUnit) = some n := by
    rw [valueOf, if_neg (by rw [hcons]; exact List.cons_ne_nil _ _), mapM_digit hdigit,
      Option.map_some, value_numeral]
  have hint : toInt (n : ℤ) = some (n : ℤ) := by
    rw [toInt, if_pos]
    omega
  simp only [decodeInt, hsign, splitRadix_numeral]
  rw [if_neg hhead, hread, Option.bind_some, if_neg Bool.false_ne_true, hint]

theorem positive_tracerLine {pid : ℕ} (h : pid < 2 ^ 31) :
    positive java (widen (tracerLine pid)) = decide (0 < pid) := by
  have hdrop : (widen (tracerLine pid)).drop (tracerPid.length + 1) = 9 :: widen (decimal pid) :=
    rfl
  have hdigits : ∀ u ∈ (numeral 10 pid).map decimalUnit, 32 < u := by
    intro u hu
    obtain ⟨d, hd, rfl⟩ := List.mem_map.mp hu
    exact (decimalUnit_facts (lt_of_mem_decimal hd)).1
  rw [positive, hdrop, widen_decimal, trim_eq hdigits, decodeInt_numeral h]
  simp

-- the second half of a surrogate pair stays before the digits
example : positive asciiText (encode "TracerPid😀1".toList) = false := by
  decide

/-- The first line before the one of the tracer that the Kotlin check takes for it. -/
def Status.shadow (java : JavaText) (s : Status) : Option (List UInt16) :=
  (shownLines (linesText s.before)).find? (namesTracer java)

theorem isReadTracerPid_content (s : Status) : isReadTracerPid java (some s.content) =
    match s.shadow java with
    | some line => positive java line
    | none => decide (0 < s.pid) := by
  change scanLines java (shownLines s.content) = _
  rw [Status.content, shownLines_lines, shownLines_tracer, scanLines_append, Status.shadow,
    scanLines, if_pos (namesTracer_tracerLine s.pid), positive_tracerLine s.pid_lt]

/-! ### Lines that are not the tracer's -/

theorem toUpper_ascii : ∀ n < 128, (Char.ofNat n).toUpper.toNat < 128 ∧
    (Char.ofNat n).toUpper.toLower = (Char.ofNat n).toLower := by
  decide

theorem sameIgnoringCase_ascii {c d : Char} (hc : c.toNat < 128) (hd : d.toNat < 128)
    (h : sameIgnoringCase java c d = true) : c.toLower = d.toLower := by
  have hupper (c : Char) (hc : c.toNat < 128) : java.upper c = c.toUpper := by
    rw [← Char.ofNat_toNat c]
    exact java.upper_ascii _ hc
  have hlower (c : Char) (hc : c.toNat < 128) : java.lower c.toUpper = c.toLower := by
    obtain ⟨hlt, heq⟩ := toUpper_ascii _ hc
    rw [Char.ofNat_toNat] at hlt heq
    rw [← heq, ← Char.ofNat_toNat c.toUpper]
    exact java.lower_ascii _ hlt
  rw [sameIgnoringCase, decide_eq_true_eq, hupper c hc, hupper d hd, hlower c hc, hlower d hd] at h
  obtain heq | hup | hlow := h
  · rw [heq]
  · rw [← hlower c hc, hup, hlower d hd]
  · exact hlow

theorem toLower_of_equalsIgnoreCase {s t : List Char} (hs : ∀ c ∈ s, c.toNat < 128)
    (ht : ∀ c ∈ t, c.toNat < 128) (h : equalsIgnoreCase java s t = true) :
    s.map Char.toLower = t.map Char.toLower := by
  induction s generalizing t with
  | nil =>
    cases t with
    | nil => rfl
    | cons d t => cases h
  | cons c s ih =>
    cases t with
    | nil => cases h
    | cons d t =>
      rw [equalsIgnoreCase, Bool.and_eq_true] at h
      obtain ⟨hc, hs⟩ := List.forall_mem_cons.mp hs
      obtain ⟨hd, ht⟩ := List.forall_mem_cons.mp ht
      rw [List.map_cons, List.map_cons, sameIgnoringCase_ascii hc hd h.1, ih hs ht h.2]

theorem character_ascii {b : UInt8} (h : b.toNat < 0x80) :
    character (.ofNat b.toNat) = some (.ofNat b.toNat) := by
  rw [character, toNat_widen, if_pos (by omega)]

theorem sameUnit_ascii {b c : UInt8} (hb : b.toNat < 0x80) (hc : c.toNat < 0x80) :
    sameUnit java (.ofNat b.toNat) (.ofNat c.toNat) =
      sameIgnoringCase java (.ofNat b.toNat) (.ofNat c.toNat) := by
  rw [sameUnit, character_ascii hb, character_ascii hc]
  by_cases h : (UInt16.ofNat b.toNat) = .ofNat c.toNat
  · rw [widen_inj h]
    simp [sameIgnoringCase]
  · rw [decide_eq_false h, Bool.false_or]

theorem equalUnits_ascii {s t : List UInt8} (hs : ∀ b ∈ s, b.toNat < 0x80)
    (ht : ∀ b ∈ t, b.toNat < 0x80) : equalUnits java (widen s) (widen t) =
      equalsIgnoreCase java (asciiChars s) (asciiChars t) := by
  induction s generalizing t with
  | nil => cases t <;> rfl
  | cons b s ih =>
    cases t with
    | nil => rfl
    | cons c t =>
      obtain ⟨hb, hs⟩ := List.forall_mem_cons.mp hs
      obtain ⟨hc, ht⟩ := List.forall_mem_cons.mp ht
      change (sameUnit java _ _ && equalUnits java (widen s) (widen t)) =
        (sameIgnoringCase java _ _ && equalsIgnoreCase java (asciiChars s) (asciiChars t))
      rw [sameUnit_ascii hb hc, ih hs ht]

theorem exists_sameUnit {a b t : List UInt16} {u : UInt16}
    (h : equalUnits java (a ++ u :: b) t = true) : ∃ v ∈ t, sameUnit java u v = true := by
  induction a generalizing t with
  | nil =>
    cases t with
    | nil => cases h
    | cons v t =>
      rw [List.nil_append, equalUnits, Bool.and_eq_true] at h
      exact ⟨v, List.mem_cons_self, h.1⟩
  | cons x a ih =>
    cases t with
    | nil => cases h
    | cons y t =>
      rw [List.cons_append, equalUnits, Bool.and_eq_true] at h
      obtain ⟨v, hv, hsame⟩ := ih h.2
      exact ⟨v, List.mem_cons_of_mem y hv, hsame⟩

theorem tracerPid_ascii {b : UInt8} (h : b ∈ ascii tracerPid) :
    b.toNat < 0x80 ∧ ':'.toLower ≠ (Char.ofNat b.toNat).toLower := by
  have hall : (ascii tracerPid).all
      (fun b => b.toNat < 0x80 ∧ ':'.toLower ≠ (Char.ofNat b.toNat).toLower) = true := by
    decide
  exact of_decide_eq_true (List.all_eq_true.mp hall b h)

theorem asciiChars_lt {s : List UInt8} (hs : ∀ b ∈ s, b.toNat < 0x80) {c : Char}
    (h : c ∈ asciiChars s) : c.toNat < 128 := by
  obtain ⟨b, hb, rfl⟩ := List.mem_map.mp h
  have hlt := hs b hb
  have htoNat : (Char.ofNat b.toNat).toNat = b.toNat := toNat_val_ofNat (Or.inl (by omega))
  rwa [htoNat]

theorem key_lt (line : StatusLine) : ∀ b ∈ line.key, b.toNat < 0x80 :=
  fun b hb => (line.key_ascii b hb).1

theorem not_namesTracer (line : StatusLine) (t : List UInt16) :
    namesTracer java (widen line.key ++ 58 :: t) = false := by
  apply Bool.eq_false_of_not_eq_true
  intro h
  rw [namesTracer, Bool.and_eq_true] at h
  obtain ⟨_, hequal⟩ := h
  have hname : encode tracerPid.toList = widen (ascii tracerPid) := rfl
  have htracer : ∀ b ∈ ascii tracerPid, b.toNat < 0x80 := fun b hb => (tracerPid_ascii hb).1
  rw [hname] at hequal
  by_cases hkey : (widen line.key).length < tracerPid.length
  · obtain ⟨k, hk⟩ := Nat.exists_eq_add_of_lt hkey
    rw [hk, Nat.add_assoc, List.take_length_add_append, List.take_succ_cons] at hequal
    obtain ⟨v, hv, hsame⟩ := exists_sameUnit hequal
    obtain ⟨b, hb, rfl⟩ := List.mem_map.mp hv
    obtain ⟨hlt, hne⟩ := tracerPid_ascii hb
    have hcolon : sameUnit java (.ofNat (58 : UInt8).toNat) (.ofNat b.toNat) = true := hsame
    rw [sameUnit_ascii (by decide) hlt] at hcolon
    have hlt' : (Char.ofNat b.toNat).toNat < 128 :=
      asciiChars_lt htracer (List.mem_map.mpr ⟨b, hb, rfl⟩)
    exact hne (sameIgnoringCase_ascii (by decide) hlt' hcolon)
  · have hfront : (widen line.key ++ 58 :: t).take tracerPid.length =
        widen (line.key.take tracerPid.length) := by
      rw [List.take_append_of_le_length (by omega), widen, ← List.map_take]
      rfl
    have htake : ∀ b ∈ line.key.take tracerPid.length, b.toNat < 0x80 :=
      fun b hb => key_lt line b (List.mem_of_mem_take hb)
    rw [hfront, equalUnits_ascii htake htracer] at hequal
    apply line.key_other
    have hlower := toLower_of_equalsIgnoreCase (fun c => asciiChars_lt htake)
      (fun c => asciiChars_lt htracer) hequal
    have hname : "tracerpid".toList = (asciiChars (ascii tracerPid)).map Char.toLower := by decide
    rw [hname, ← hlower]
    exact ((List.take_prefix _ _).map _).map Char.toLower

def StatusLine.shown (line : StatusLine) : List UInt16 :=
  widen line.key ++ 58 :: 9 :: chars line.value

/-- A mark that is in neither part of a line is not shown in it. -/
theorem not_mem_shown {line : StatusLine} {b : UInt8} (hb : b.toNat < 0x80)
    (hmarks : b ≠ 0 ∧ b ≠ 58 ∧ b ≠ 9) (hkey : ∀ x ∈ line.key, x ≠ b) (hvalue : b ∉ line.value) :
    .ofNat b.toNat ∉ line.shown := by
  obtain ⟨h0, hcolon, htab⟩ := hmarks
  intro hmem
  rw [StatusLine.shown, List.mem_append, List.mem_cons, List.mem_cons] at hmem
  obtain hkeyb | hmark | hmark | hval := hmem
  · exact not_mem_widen hkey hkeyb
  · exact hcolon (widen_inj (c := 58) hmark)
  · exact htab (widen_inj (c := 9) hmark)
  · have hchar := mem_of_mem_encode (by rw [toNat_widen]; omega) hval
    have htoNat : (Char.ofNat b.toNat).toNat = b.toNat :=
      toNat_val_ofNat (Or.inl (by omega))
    rw [toNat_widen] at hchar
    have hne : Char.ofNat b.toNat ≠ '\x00' := by
      intro hzero
      rw [hzero] at htoNat
      exact h0 (UInt8.toNat_inj.mp htoNat.symm)
    obtain ⟨x, hx, hxb⟩ := Utf8Replacing.mem_of_mem_decode (by omega) hne hchar
    rw [htoNat] at hxb
    rw [UInt8.toNat_inj.mp hxb] at hx
    exact hvalue hx

theorem mark_ascii (line : StatusLine) : ∀ b ∈ line.key ++ [58, 9], b.toNat < 0x80 := by
  intro b hb
  obtain hkey | hb := List.mem_append.mp hb
  · exact key_lt line b hkey
  · obtain rfl | hb := List.mem_cons.mp hb
    · decide
    · rw [List.mem_singleton.mp hb]
      decide

theorem chars_text (line : StatusLine) (rest : List UInt8) :
    chars (line.text ++ rest) = line.shown ++ 10 :: chars rest := by
  have hnl : newline.toNat < 0x80 := by decide
  rw [StatusLine.text, StatusLine.body, List.append_assoc, List.append_assoc,
    chars_ascii (mark_ascii line), List.singleton_append, chars_append_ascii line.value hnl,
    widen_append, List.append_assoc, StatusLine.shown, List.append_assoc]
  rfl

theorem shownLines_line {line : StatusLine} (h : 13 ∉ line.value) (rest : List UInt8) :
    shownLines (line.text ++ rest) = line.shown :: shownLines rest := by
  have hnl : 10 ∉ line.shown := not_mem_shown (b := newline) (by decide) (by decide)
    (fun x hx => (line.key_ascii x hx).2.2.1) line.value_line
  have hcr : 13 ∉ line.shown := not_mem_shown (b := 13) (by decide) (by decide)
    (fun x hx => (line.key_ascii x hx).2.2.2) h
  rw [shownLines, chars_text, readLines_of_ne_nil (by simp), readLine_of_not_mem hnl hcr]
  rfl

/-- Only a value with a carriage return can hide the line of the tracer from the Kotlin check. -/
theorem shadow_eq_none {s : Status} (h : ∀ line ∈ s.before, 13 ∉ line.value) :
    s.shadow java = none := by
  rw [Status.shadow, List.find?_eq_none]
  generalize s.before = lines at h
  induction lines with
  | nil =>
    intro line hline
    cases hline
  | cons line lines ih =>
    obtain ⟨hline, hlines⟩ := List.forall_mem_cons.mp h
    rw [linesText, List.flatMap_cons, shownLines_line hline]
    intro shown hshown
    obtain rfl | hrest := List.mem_cons.mp hshown
    · rw [StatusLine.shown, not_namesTracer]
      exact Bool.false_ne_true
    · exact ih hlines shown hrest

/-! ### The two checks -/

/-- Both checks say whether the process is traced. -/
def Agree (java : JavaText) (status : Option Status) : Prop :=
  nativeReadTracerPid (status.map Status.content) =
      isReadTracerPid java (status.map Status.content) ∧
    (nativeReadTracerPid (status.map Status.content) = true ↔ ∃ s, status = some s ∧ s.pid ≠ 0)

/-- No line that the Kotlin check reads first says something else than the line of the tracer. -/
def Status.Unhidden (java : JavaText) (s : Status) : Prop :=
  ∀ line, s.shadow java = some line → (positive java line = true ↔ 0 < s.pid)

theorem isReadTracerPid_iff (s : Status) :
    isReadTracerPid java (some s.content) = decide (s.pid ≠ 0) ↔ s.Unhidden java := by
  have hpos : decide (0 < s.pid) = decide (s.pid ≠ 0) := decide_eq_decide.mpr Nat.pos_iff_ne_zero
  rw [isReadTracerPid_content, Status.Unhidden, ← hpos]
  cases s.shadow java with
  | none => simp
  | some line =>
    constructor
    · rintro h _ ⟨⟩
      have hline : positive java line = decide (0 < s.pid) := h
      rw [hline, decide_eq_true_eq]
    · intro h
      change positive java line = decide (0 < s.pid)
      rw [Bool.eq_iff_iff, h line rfl, decide_eq_true_eq]

theorem checks_agree_iff (java : JavaText) (status : Option Status) :
    Agree java status ↔ ∃ s, status = some s ∧ s.Unhidden java := by
  cases status with
  | none =>
    refine iff_of_false ?_ (by simp)
    rintro ⟨h, _⟩
    have hnative : nativeReadTracerPid none = true := by decide
    change nativeReadTracerPid none = false at h
    rw [hnative] at h
    cases h
  | some s =>
    rw [Agree, Option.map_some, nativeReadTracerPid_content, eq_comm, isReadTracerPid_iff]
    simp

theorem unopened_disagree : ¬ Agree asciiText none := by
  rintro ⟨h, _⟩
  revert h
  decide

end TracerPid

end EnvironmentCheck
