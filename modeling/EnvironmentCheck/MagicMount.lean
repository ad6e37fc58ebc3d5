import EnvironmentCheck.CommonFiles
import EnvironmentCheck.Library.Fields
import EnvironmentCheck.Scanning

namespace EnvironmentCheck

namespace MagicMount

open LineReading Numerals Scanning StringConversion

/-- The static variables. -/
structure Statics where
  major : ℤ
  minor : ℤ
deriving DecidableEq

/-- What stays from one call to the next: with the static variables, the descriptors that no call
has closed. -/
structure Process where
  statics : Statics
  leaked : ℕ

def fresh : Process :=
  ⟨⟨-1, -1⟩, 0⟩

/-- `sys_open` where so many descriptors are open. -/
def sysOpen {α : Type} (limit opened : ℕ) (file : Option α) : Option α :=
  if opened < limit then file else none

/-- `sscanf(line, "%*d %*d %d:%d", ..)` -/
def readMount (s : Statics) (line : List UInt8) : Statics :=
  match (scanInt line).bind fun r => (scanInt r.2).bind fun r => scanInt r.2 with
  | none => s
  | some (major, 58 :: rest) => ⟨major, match scanInt rest with
    | some (minor, _) => minor
    | none => s.minor⟩
  | some (major, _) => ⟨major, s.minor⟩

def scanMountLine (s : Statics) (line : List UInt8) : Statics :=
  if strstr line "/ /data " then readMount s (terminated line) else s

def scanMountinfo (s : Statics) (file : Option (List UInt8)) : Statics :=
  match file with
  | none => s
  | some content => (pieces newline (4096 - 1 - 1) content).foldl scanMountLine s

def protectedPaths : List String :=
  ["/system/", "/vendor/", "/product/", "/system_ext/"]

def marked (line : List UInt8) : Bool :=
  47 ∈ terminated line && protectedPaths.any fun path => strstr line (" " ++ path)

/-- `sscanf(line, "%*s %*s %*s %x:%x %*s %s", ..)`; what is not assigned stays uninitialised. -/
def readDevice (line : List UInt8) : Option ℤ × Option ℤ :=
  match ((skipString line).bind fun r => (skipString r).bind skipString).bind scanHex with
  | none => (none, none)
  | some (f, 58 :: rest) => (some f, (scanHex rest).map Prod.fst)
  | some (f, _) => (some f, none)

/-- Whether the line is on the device; `none` where that reads an uninitialised variable. -/
def sameDevice (s : Statics) (line : List UInt8) : Option Bool :=
  match (readDevice (terminated line)).1 with
  | none => none
  | some f =>
    if f = s.major then (readDevice (terminated line)).2.map fun n => n = s.minor else some false

def scanParts (s : Statics) : List (List UInt8) → Option ℤ
  | [] => some 0
  | line :: rest =>
    if marked line then
      match sameDevice s line with
      | none => none
      | some true => some 1
      | some false => scanParts s rest
    else scanParts s rest

def scanMaps (s : Statics) (file : Option (List UInt8)) : Option ℤ :=
  match file with
  | none => some (-1)
  | some content => scanParts s (pieces newline (4096 - 1 - 1) content)

/-- The result, if it is defined, and the process afterwards; `others` are the descriptors that the
rest of the process has open. -/
def haveMagicMount (limit : ℕ) (p : Process) (others : ℕ) (mountinfo maps : Option (List UInt8)) :
    Option ℤ × Process :=
  let opened := p.leaked + others
  let s := scanMountinfo p.statics (sysOpen limit opened mountinfo)
  let result :=
    if s.minor = -1 ∨ s.major = -1 then some (-1) else scanMaps s (sysOpen limit opened maps)
  -- `return 1` passes by `fclose` and `close`
  (result, ⟨s, if result = some 1 then p.leaked + 1 else p.leaked⟩)

/-! ### What the kernel writes -/

/-- Text of a field, in which blanks and ends of lines are escaped. -/
def Plain (field : List UInt8) : Prop :=
  32 ∉ field ∧ newline ∉ field ∧ 0 ∉ field

structure MountLine where
  id : ℕ
  parent : ℕ
  major : ℕ
  minor : ℕ
  root : List UInt8
  mountPoint : List UInt8
  options : List UInt8
  tags : List (List UInt8)
  fstype : List UInt8
  source : List UInt8
  superOptions : List UInt8
  id_lt : id < 2 ^ 31
  parent_lt : parent < 2 ^ 31
  major_lt : major < 2 ^ 12
  minor_lt : minor < 2 ^ 20
  plain : ∀ f ∈ root :: mountPoint :: options :: fstype :: source :: superOptions :: tags, Plain f
  root_path : root.getLast? = some 47 → root = [47]
  options_head : options.head? ≠ some 47
  tags_head : ∀ tag ∈ tags, tag.head? ≠ some 47
  fstype_name : 47 ∉ fstype

def MountLine.device (line : MountLine) : List UInt8 :=
  decimal line.major ++ 58 :: decimal line.minor

def MountLine.fields (line : MountLine) : List (List UInt8) :=
  [decimal line.id, decimal line.parent, line.device, line.root, line.mountPoint, line.options] ++
    (line.tags ++ [[45], line.fstype, line.source, line.superOptions])

def MountLine.body (line : MountLine) : List UInt8 :=
  [32].intercalate line.fields

def MountLine.text (line : MountLine) : List UInt8 :=
  line.body ++ [newline]

def mountText (lines : List MountLine) : List UInt8 :=
  lines.flatMap MountLine.text

/-- A mountinfo with a mount at /data; the last one counts. -/
structure Mounts where
  before : List MountLine
  data : MountLine
  after : List MountLine
  data_point : data.mountPoint = ascii "/data"
  after_point : ∀ line ∈ after, line.mountPoint ≠ ascii "/data"

def Mounts.lines (mounts : Mounts) : List MountLine :=
  mounts.before ++ mounts.data :: mounts.after

structure Mapping where
  start : ℕ
  stop : ℕ
  perms : List UInt8
  offset : ℕ
  major : ℕ
  minor : ℕ
  inode : ℕ
  pad : ℕ
  name : List UInt8
  start_lt : start < 2 ^ 64
  stop_lt : stop < 2 ^ 64
  perms_length : perms.length = 4
  perms_letters : ∀ b ∈ perms, b ∈ ascii "rwxps-"
  offset_lt : offset < 2 ^ 64
  major_lt : major < 2 ^ 12
  minor_lt : minor < 2 ^ 20
  inode_lt : inode < 2 ^ 64
  pad_le : pad ≤ 73
  name_line : newline ∉ name ∧ 0 ∉ name

def Mapping.device (m : Mapping) : List UInt8 :=
  hexadecimal 2 m.major ++ 58 :: hexadecimal 2 m.minor

def Mapping.address (m : Mapping) : List UInt8 :=
  hexadecimal 8 m.start ++ 45 :: hexadecimal 8 m.stop

/-- A line up to the blank before its name. -/
def Mapping.front (m : Mapping) : List UInt8 :=
  m.address ++ 32 :: (m.perms ++ 32 :: (hexadecimal 8 m.offset ++ 32 :: (m.device ++
    32 :: (decimal m.inode ++ List.replicate m.pad 32))))

def Mapping.body (m : Mapping) : List UInt8 :=
  m.front ++ 32 :: m.name

def Mapping.text (m : Mapping) : List UInt8 :=
  m.body ++ [newline]

def mapsText (maps : List Mapping) : List UInt8 :=
  maps.flatMap Mapping.text

/-- The path begins with one of those that a module may replace. -/
def Mapping.Protected (m : Mapping) : Prop :=
  ∃ path ∈ protectedPaths, ascii path <+: m.name

/-- A protected path stands after a blank. -/
def Spells (text : List UInt8) : Prop :=
  ∃ path ∈ protectedPaths, 32 :: ascii path <:+: text

def MountLine.statics (line : MountLine) : Statics :=
  ⟨line.major, line.minor⟩

def Shown (s : Statics) (part : List UInt8) : Prop :=
  Spells part ∧ readDevice part = (some s.major, some s.minor)

def Unread (s : Statics) (part : List UInt8) : Prop :=
  Spells part ∧
    ((readDevice part).1 = none ∨
      (readDevice part).1 = some s.major ∧ (readDevice part).2 = none)

/-- A part that spells a protected path and has no device to compare stands only after one that is
shown on the device. -/
def Readable (s : Statics) : List (List UInt8) → Prop
  | [] => True
  | part :: rest => ¬ Unread s part ∧ (Shown s part ∨ Readable s rest)

/-! ### Scanning the maps -/

theorem ascii_append (s t : String) : ascii (s ++ t) = ascii s ++ ascii t := by
  rw [ascii, String.toList_append, List.map_append]
  rfl

theorem protectedPath_facts {path : String} (h : path ∈ protectedPaths) :
    (∃ rest, ascii path = 47 :: rest) ∧ newline ∉ ascii path ∧ (ascii path).length ≤ 12 := by
  have hall : protectedPaths.all (fun path => (ascii path).head? = some 47 ∧ newline ∉ ascii path ∧
      (ascii path).length ≤ 12) = true := by
    decide
  obtain ⟨hhead, hline, hlen⟩ := of_decide_eq_true (List.all_eq_true.mp hall path h)
  exact ⟨List.head?_eq_some_iff.mp hhead, hline, hlen⟩

theorem marked_iff {part : List UInt8} (hnul : 0 ∉ part) : marked part = true ↔ Spells part := by
  rw [marked, terminated_of_nulFree hnul, Bool.and_eq_true, List.any_eq_true]
  constructor
  · rintro ⟨_, path, hpath, hstr⟩
    rw [strstr_iff hnul, ascii_append] at hstr
    exact ⟨path, hpath, hstr⟩
  · rintro ⟨path, hpath, hsub⟩
    refine ⟨?_, path, hpath, ?_⟩
    · obtain ⟨⟨rest, hrest⟩, _⟩ := protectedPath_facts hpath
      have hslash : 47 ∈ ascii path := by rw [hrest]; exact List.mem_cons_self
      exact decide_eq_true (hsub.subset (List.mem_cons_of_mem 32 hslash))
    · rw [strstr_iff hnul, ascii_append]
      exact hsub

theorem sameDevice_eq_true {s : Statics} {part : List UInt8} (hnul : 0 ∉ part) :
    sameDevice s part = some true ↔ readDevice part = (some s.major, some s.minor) := by
  rw [sameDevice, terminated_of_nulFree hnul]
  match readDevice part with
  | (none, _) => simp
  | (some f, none) => simp
  | (some f, some n) => by_cases hf : f = s.major <;> simp [hf]

theorem sameDevice_eq_none {s : Statics} {part : List UInt8} (hnul : 0 ∉ part) :
    sameDevice s part = none ↔ (readDevice part).1 = none ∨
      (readDevice part).1 = some s.major ∧ (readDevice part).2 = none := by
  rw [sameDevice, terminated_of_nulFree hnul]
  match readDevice part with
  | (none, _) => simp
  | (some f, none) => by_cases hf : f = s.major <;> simp [hf]
  | (some f, some n) => by_cases hf : f = s.major <;> simp [hf]

theorem scanParts_eq_iff (s : Statics) {parts : List (List UInt8)} (hnul : ∀ p ∈ parts, 0 ∉ p)
    (p : Prop) [Decidable p] : scanParts s parts = some (if p then 1 else 0) ↔
      Readable s parts ∧ ((∃ part ∈ parts, Shown s part) ↔ p) := by
  induction parts with
  | nil =>
    have hnil : scanParts s [] = some 0 := rfl
    rw [hnil, Readable]
    by_cases hp : p <;> simp [hp]
  | cons part rest ih =>
    obtain ⟨hpart, hrest⟩ := List.forall_mem_cons.mp hnul
    rw [scanParts, Readable, Unread, Shown, ← marked_iff hpart, ← sameDevice_eq_none hpart,
      ← sameDevice_eq_true hpart]
    simp only [List.exists_mem_cons_iff]
    rw [Shown, ← marked_iff hpart, ← sameDevice_eq_true hpart]
    by_cases hmarked : marked part = true
    · match hsame : sameDevice s part with
      | none => simp [hmarked]
      | some true => by_cases hp : p <;> simp [hmarked, hp]
      | some false => simpa [hmarked] using ih hrest
    · simpa [hmarked] using ih hrest

/-! ### A line of the maps -/

theorem not_isspace_hexadecimal {width n : ℕ} {b : UInt8} (h : b ∈ hexadecimal width n) :
    isspace b = false := by
  obtain ⟨d, hd, rfl⟩ := List.mem_map.mp h
  exact (digitByte_facts (lt_of_mem_hexadecimal hd)).1

theorem hexadecimal_ne_nil (width n : ℕ) : hexadecimal width n ≠ [] := by
  obtain ⟨d, ds, h⟩ := exists_hexadecimal_eq_cons (width - (numeral 16 n).length) n
  rw [hexadecimal, h]
  exact List.cons_ne_nil _ _

theorem not_isspace_address (m : Mapping) {b : UInt8} (h : b ∈ m.address) : isspace b = false := by
  rw [Mapping.address, List.mem_append, List.mem_cons] at h
  obtain hstart | rfl | hstop := h
  · exact not_isspace_hexadecimal hstart
  · rfl
  · exact not_isspace_hexadecimal hstop

theorem readDevice_words {address perms offset rest : List UInt8} {f n : ℕ}
    (haddress : (∀ b ∈ address, isspace b = false) ∧ address ≠ [])
    (hperms : (∀ b ∈ perms, isspace b = false) ∧ perms ≠ [])
    (hoffset : (∀ b ∈ offset, isspace b = false) ∧ offset ≠ []) (hf : f < 2 ^ 31)
    (hn : n < 2 ^ 31) :
    readDevice (address ++ 32 :: (perms ++ 32 :: (offset ++
      32 :: (hexadecimal 2 f ++ 58 :: (hexadecimal 2 n ++ 32 :: rest))))) =
        (some (f : ℤ), some (n : ℤ)) := by
  have hmajor := scanHex_hexadecimal [32] (by simp [isspace]) 2 hf (b := 58) rfl (by decide)
    (hexadecimal 2 n ++ 32 :: rest)
  have hminor := scanHex_hexadecimal [] (by simp) 2 hn (b := 32) rfl (by decide) rest
  rw [List.singleton_append] at hmajor
  rw [List.nil_append] at hminor
  rw [readDevice, skipString_first haddress.1 haddress.2, Option.bind_some,
    skipString_next hperms.1 hperms.2, Option.bind_some, skipString_next hoffset.1 hoffset.2,
    Option.bind_some, hmajor]
  simp only [hminor, Option.map_some]

theorem perms_facts (m : Mapping) :
    ∀ b ∈ m.perms, isspace b = false ∧ b ≠ newline ∧ b ≠ 0 ∧ b ≠ 47 := by
  have hall : (ascii "rwxps-").all
      (fun b => isspace b = false ∧ b ≠ newline ∧ b ≠ 0 ∧ b ≠ 47) = true := by
    decide
  intro b hb
  exact of_decide_eq_true (List.all_eq_true.mp hall b (m.perms_letters b hb))

/-- The device of a part that has the front of its line. -/
theorem readDevice_front (m : Mapping) (t : List UInt8) :
    readDevice (m.front ++ 32 :: t) = (some (m.major : ℤ), some (m.minor : ℤ)) := by
  have hmajor : m.major < 2 ^ 31 := m.major_lt.trans (by decide)
  have hminor : m.minor < 2 ^ 31 := m.minor_lt.trans (by decide)
  have hperms : m.perms ≠ [] := by
    intro h
    have hlen := m.perms_length
    rw [h] at hlen
    cases hlen
  have haddress : m.address ≠ [] :=
    List.append_ne_nil_of_left_ne_nil (hexadecimal_ne_nil 8 m.start) _
  have hfront : m.front ++ 32 :: t = m.address ++ 32 :: (m.perms ++ 32 :: (hexadecimal 8 m.offset ++
      32 :: (hexadecimal 2 m.major ++ 58 :: (hexadecimal 2 m.minor ++ 32 ::
        (decimal m.inode ++ List.replicate m.pad 32 ++ 32 :: t))))) := by
    simp only [Mapping.front, Mapping.device, List.append_assoc, List.cons_append]
  rw [hfront]
  exact readDevice_words ⟨fun b hb => not_isspace_address m hb, haddress⟩
    ⟨fun b hb => (perms_facts m b hb).1, hperms⟩
    ⟨fun b hb => not_isspace_hexadecimal hb, hexadecimal_ne_nil 8 m.offset⟩ hmajor hminor

theorem mem_front {m : Mapping} {b : UInt8} (h : b ∈ m.front) :
    b ≠ newline ∧ b ≠ 0 ∧ b ≠ 47 := by
  have hdigit (b : UInt8) (hb : 48 ≤ b.toNat) : b ≠ newline ∧ b ≠ 0 ∧ b ≠ 47 := by
    refine ⟨?_, ?_, ?_⟩
    · rintro rfl
      exact absurd hb (by decide)
    · rintro rfl
      exact absurd hb (by decide)
    · rintro rfl
      exact absurd hb (by decide)
  simp only [Mapping.front, Mapping.address, Mapping.device, List.mem_append, List.mem_cons,
    List.mem_replicate] at h
  obtain ((h | rfl | h) | rfl | h | rfl | h | rfl | ((h | rfl | h) | rfl | h | ⟨_, rfl⟩)) := h
  · exact hdigit b (le_of_mem_hexadecimal h)
  · decide
  · exact hdigit b (le_of_mem_hexadecimal h)
  · decide
  · exact (perms_facts m b h).2
  · decide
  · exact hdigit b (le_of_mem_hexadecimal h)
  · decide
  · exact hdigit b (le_of_mem_hexadecimal h)
  · decide
  · exact hdigit b (le_of_mem_hexadecimal h)
  · decide
  · exact hdigit b (le_of_mem_decimal h)
  · decide

theorem mem_body {m : Mapping} {b : UInt8} (h : b ∈ m.body) : b ≠ newline ∧ b ≠ 0 := by
  rw [Mapping.body, List.mem_append, List.mem_cons] at h
  obtain hfront | rfl | hname := h
  · obtain ⟨hline, hzero, _⟩ := mem_front hfront
    exact ⟨hline, hzero⟩
  · decide
  · constructor
    · rintro rfl
      exact m.name_line.1 hname
    · rintro rfl
      exact m.name_line.2 hname

theorem nulFree_text (m : Mapping) : 0 ∉ m.text := by
  intro h
  obtain hbody | hend := List.mem_append.mp h
  · exact (mem_body hbody).2 rfl
  · revert hend
    decide

theorem length_front_le (m : Mapping) : m.front.length ≤ 200 := by
  have hstart := length_hexadecimal_le 8 (k := 16) (by decide) (by decide)
    (m.start_lt.trans_le (by decide))
  have hstop := length_hexadecimal_le 8 (k := 16) (by decide) (by decide)
    (m.stop_lt.trans_le (by decide))
  have hoffset := length_hexadecimal_le 8 (k := 16) (by decide) (by decide)
    (m.offset_lt.trans_le (by decide))
  have hmajor := length_hexadecimal_le 2 (k := 5) (by decide) (by decide)
    (m.major_lt.trans_le (by decide))
  have hminor := length_hexadecimal_le 2 (k := 5) (by decide) (by decide)
    (m.minor_lt.trans_le (by decide))
  have hinode := length_decimal_le (k := 20) (by decide) (m.inode_lt.trans_le (by decide))
  have hperms := m.perms_length
  have hpad := m.pad_le
  simp only [Mapping.front, Mapping.address, Mapping.device, List.length_append, List.length_cons,
    List.length_replicate]
  omega

def Mapping.parts (m : Mapping) : List (List UInt8) :=
  pieces newline 4094 m.text

/-- What the first part of a line shows of its name, after the blank before it. -/
def Mapping.firstName (m : Mapping) : List UInt8 :=
  (32 :: m.name).take (4094 - m.front.length)

def Mapping.further (m : Mapping) : List (List UInt8) :=
  pieces newline 4094 (m.text.drop 4094)

/-- The mapping is on the device and its name has a protected path after a blank, or a further part
of its line has one and reads as the device. -/
def Mapping.Shows (d : MountLine) (m : Mapping) : Prop :=
  Spells m.firstName ∧ m.major = d.major ∧ m.minor = d.minor ∨
    ∃ part ∈ m.further, Shown d.statics part

theorem fgets_text (m : Mapping) :
    fgets newline 4094 m.text = (m.text.take 4094, m.text.drop 4094) := by
  have hbody : newline ∉ m.body := fun h => (mem_body h).1 rfl
  have hlen : m.text.length = m.body.length + 1 := List.length_append
  obtain hlt | hle := Nat.lt_or_ge m.body.length 4094
  · have hall : m.text.length ≤ 4094 := by omega
    rw [List.take_of_length_le hall, List.drop_eq_nil_of_le hall]
    exact fgets_line hbody hlt []
  · rw [Mapping.text, List.take_append_of_le_length hle, List.drop_append_of_le_length hle]
    exact fgets_within hbody hle [newline]

theorem parts_eq (m : Mapping) : m.parts = m.text.take 4094 :: m.further := by
  have hne : m.text ≠ [] := List.append_ne_nil_of_right_ne_nil _ (List.cons_ne_nil _ _)
  rw [Mapping.parts, pieces_of_ne_nil newline (by decide) hne, fgets_text, Mapping.further]

theorem take_text (m : Mapping) : m.text.take 4094 =
    m.front ++ (32 :: (m.name ++ [newline])).take (4094 - m.front.length) := by
  have hfront := length_front_le m
  have htext : m.text = m.front ++ 32 :: (m.name ++ [newline]) := by
    rw [Mapping.text, Mapping.body, List.append_assoc, List.cons_append]
  rw [htext, List.take_append, List.take_of_length_le (by omega)]

/-- A path after a blank is not in what has no slash. -/
theorem infix_after {front rest word : List UInt8} (hfront : 47 ∉ front) :
    32 :: 47 :: word <:+: front ++ 32 :: rest ↔ 32 :: 47 :: word <:+: 32 :: rest := by
  constructor
  · rintro ⟨a, b, h⟩
    rw [List.append_assoc] at h
    obtain ⟨c, hc, hrest⟩ | ⟨c, _, hrest⟩ := List.append_eq_append_iff.mp h
    · match c with
      | [] => exact ⟨[], b, hrest⟩
      | [x] => cases hrest
      | x :: y :: c =>
        simp only [List.cons_append, List.cons.injEq] at hrest
        obtain ⟨_, rfl, _⟩ := hrest
        apply absurd _ hfront
        rw [hc]
        exact List.mem_append_right a (List.mem_cons_of_mem x List.mem_cons_self)
    · exact ⟨c, b, by rw [hrest, List.append_assoc]⟩
  · intro h
    exact h.trans (List.suffix_append front _).isInfix

theorem infix_take_line {word text : List UInt8} (hword : newline ∉ word) (k : ℕ) :
    word <:+: (text ++ [newline]).take k ↔ word <:+: text.take k := by
  obtain hlt | hle := Nat.lt_or_ge text.length k
  · have hall : (text ++ [newline]).length ≤ k := by
      rw [List.length_append, List.length_singleton]
      omega
    rw [List.take_of_length_le hall, List.take_of_length_le hlt.le, ← infix_dropNewline_iff hword,
      dropNewline_append]
  · rw [List.take_append_of_le_length hle]

theorem spells_first (m : Mapping) : Spells (m.text.take 4094) ↔ Spells m.firstName := by
  have hlen := length_front_le m
  have hslash : 47 ∉ m.front := fun h => (mem_front h).2.2 rfl
  obtain ⟨k, hk⟩ : ∃ k, 4094 - m.front.length = k + 1 := ⟨4093 - m.front.length, by omega⟩
  rw [Spells, Spells, take_text, Mapping.firstName, hk]
  apply exists_congr
  intro path
  apply and_congr_right
  intro hpath
  obtain ⟨⟨word, hword⟩, hline, _⟩ := protectedPath_facts hpath
  have hnl : newline ∉ 32 :: ascii path := by
    rw [List.mem_cons, not_or]
    exact ⟨by decide, hline⟩
  rw [← infix_take_line hnl, hword, List.take_succ_cons, infix_after hslash, List.cons_append,
    List.take_succ_cons]

theorem readDevice_first (m : Mapping) :
    readDevice (m.text.take 4094) = (some (m.major : ℤ), some (m.minor : ℤ)) := by
  have hlen := length_front_le m
  obtain ⟨k, hk⟩ : ∃ k, 4094 - m.front.length = k + 1 := ⟨4093 - m.front.length, by omega⟩
  rw [take_text, hk, List.take_succ_cons]
  exact readDevice_front m _

theorem shown_first (d : MountLine) (m : Mapping) : Shown d.statics (m.text.take 4094) ↔
    Spells m.firstName ∧ m.major = d.major ∧ m.minor = d.minor := by
  rw [Shown, spells_first, readDevice_first, Prod.mk.injEq, MountLine.statics, Option.some.injEq,
    Option.some.injEq, Nat.cast_inj, Nat.cast_inj]

theorem exists_shown_iff (d : MountLine) (maps : List Mapping) :
    (∃ part ∈ maps.flatMap Mapping.parts, Shown d.statics part) ↔ ∃ m ∈ maps, m.Shows d := by
  have hline (m : Mapping) : (∃ part ∈ m.parts, Shown d.statics part) ↔ m.Shows d := by
    rw [parts_eq, List.exists_mem_cons_iff, shown_first, Mapping.Shows]
  constructor
  · rintro ⟨part, hpart, hshown⟩
    obtain ⟨m, hm, hparts⟩ := List.mem_flatMap.mp hpart
    exact ⟨m, hm, (hline m).mp ⟨part, hparts, hshown⟩⟩
  · rintro ⟨m, hm, hshows⟩
    obtain ⟨part, hpart, hshown⟩ := (hline m).mpr hshows
    exact ⟨part, List.mem_flatMap.mpr ⟨m, hm, hpart⟩, hshown⟩

/-- A name is read where a protected path stands after one of its first blanks. -/
theorem spells_of_blank_path {m : Mapping} (before : List UInt8) {path : String}
    (hpath : path ∈ protectedPaths) (hname : before ++ 32 :: ascii path <+: 32 :: m.name)
    (hlen : before.length ≤ 3800) : Spells m.firstName := by
  have hfront := length_front_le m
  obtain ⟨_, _, hshort⟩ := protectedPath_facts hpath
  have htake : before ++ 32 :: ascii path <+: m.firstName := by
    rw [Mapping.firstName, List.prefix_take_iff]
    refine ⟨hname, ?_⟩
    rw [List.length_append, List.length_cons]
    omega
  exact ⟨path, hpath, (List.suffix_append before _).isInfix.trans htake.isInfix⟩

theorem shows_of_protected {d : MountLine} {m : Mapping} (h : m.Protected)
    (hdevice : m.major = d.major ∧ m.minor = d.minor) : m.Shows d := by
  obtain ⟨path, hpath, hname⟩ := h
  exact Or.inl ⟨spells_of_blank_path [] hpath ((List.prefix_cons_inj 32).mpr hname)
    (Nat.zero_le _), hdevice⟩

theorem pieces_mapsText (maps : List Mapping) :
    pieces newline 4094 (mapsText maps) = maps.flatMap Mapping.parts := by
  induction maps with
  | nil => rfl
  | cons m maps ih =>
    have hbody : newline ∉ m.body := fun h => (mem_body h).1 rfl
    have htext : mapsText (m :: maps) = m.body ++ newline :: mapsText maps := by
      rw [mapsText, List.flatMap_cons, Mapping.text, List.append_assoc]
      rfl
    rw [htext, pieces_line (by decide) hbody, ih, List.flatMap_cons, Mapping.parts, Mapping.text]

/-! ### A line of the mountinfo -/

theorem mem_device {line : MountLine} {b : UInt8} (h : b ∈ line.device) : 48 ≤ b.toNat := by
  rw [MountLine.device, List.mem_append, List.mem_cons] at h
  obtain hmajor | rfl | hminor := h
  · exact le_of_mem_decimal hmajor
  · decide
  · exact le_of_mem_decimal hminor

theorem plain_of_digits {f : List UInt8} (h : ∀ b ∈ f, 48 ≤ b.toNat) : Plain f ∧ 47 ∉ f := by
  have hnot (b : UInt8) (hb : b.toNat < 48) : b ∉ f := fun hmem => absurd (h b hmem) (by omega)
  exact ⟨⟨hnot 32 (by decide), hnot newline (by decide), hnot 0 (by decide)⟩, hnot 47 (by decide)⟩

theorem plain_fields (line : MountLine) : ∀ f ∈ line.fields, Plain f := by
  intro f hf
  have hplain := line.plain
  simp only [MountLine.fields, List.mem_append, List.mem_cons, List.not_mem_nil, or_false] at hf
  obtain ((rfl | rfl | rfl | rfl | rfl | rfl) | htag | rfl | rfl | rfl | rfl) := hf
  · exact (plain_of_digits fun b hb => le_of_mem_decimal hb).1
  · exact (plain_of_digits fun b hb => le_of_mem_decimal hb).1
  · exact (plain_of_digits fun b hb => mem_device hb).1
  · exact hplain _ (by simp)
  · exact hplain _ (by simp)
  · exact hplain _ (by simp)
  · exact hplain f (by simp [htag])
  · unfold Plain
    decide
  · exact hplain _ (by simp)
  · exact hplain _ (by simp)
  · exact hplain _ (by simp)

/-- After the options only the source may be /data with a field behind it. -/
theorem tail_fields {line : MountLine} {tags a b : List (List UInt8)}
    (htags : ∀ tag ∈ tags, tag.head? ≠ some 47) (hb : b ≠ [])
    (h : tags ++ [[45], line.fstype, line.source, line.superOptions] =
      a ++ ascii "/data" :: b) : a = tags ++ [[45], line.fstype] := by
  induction tags generalizing a with
  | nil =>
    have hfstype : line.fstype ≠ ascii "/data" := by
      intro heq
      apply line.fstype_name
      rw [heq]
      decide
    match a with
    | [] =>
      cases (List.cons.inj h).1
    | [x] =>
      exact absurd (List.cons.inj (List.cons.inj h).2).1 hfstype
    | [x, y] =>
      obtain ⟨hx, h⟩ := List.cons.inj h
      obtain ⟨hy, _⟩ := List.cons.inj h
      rw [hx, hy]
      rfl
    | [x, y, z] =>
      have hlast := (List.cons.inj (List.cons.inj (List.cons.inj h).2).2).2
      exact absurd (List.cons.inj hlast).2.symm hb
    | x :: y :: z :: w :: a =>
      have hlen := congrArg List.length h
      simp only [List.length_append, List.length_cons, List.length_nil] at hlen
      omega
  | cons tag tags ih =>
    obtain ⟨htag, htags⟩ := List.forall_mem_cons.mp htags
    cases a with
    | nil =>
      obtain ⟨rfl, _⟩ := List.cons.inj h
      exact absurd rfl htag
    | cons x a =>
      obtain ⟨rfl, hrest⟩ := List.cons.inj h
      rw [ih htags hrest]
      rfl

/-- Only a root and a mount point can be `/` with /data and one more field behind it. -/
theorem fields_cases {line : MountLine} {init b : List (List UInt8)} {f : List UInt8} (hb : b ≠ [])
    (h : line.fields = init ++ [f ++ [47]] ++ ascii "/data" :: b) :
    init ++ [f ++ [47]] =
        [decimal line.id, decimal line.parent, line.device, line.root] ∧
      line.root = f ++ [47] ∧ line.mountPoint = ascii "/data" := by
  have hdigits (g : List UInt8) (hg : ∀ b ∈ g, 48 ≤ b.toNat) : g ≠ f ++ [47] ∧ g ≠ ascii "/data" := by
    have hslash := (plain_of_digits hg).2
    constructor
    · rintro rfl
      exact hslash (by simp)
    · rintro rfl
      exact hslash (by decide)
  have hparent := hdigits (decimal line.parent) fun b hb => le_of_mem_decimal hb
  have hdevice := hdigits line.device fun b hb => mem_device hb
  rw [MountLine.fields, List.append_assoc, List.singleton_append] at h
  match init with
  | [] =>
    simp only [List.cons_append, List.nil_append, List.cons.injEq] at h
    exact absurd h.2.1 hparent.2
  | [x] =>
    simp only [List.cons_append, List.nil_append, List.cons.injEq] at h
    exact absurd h.2.2.1 hdevice.2
  | [x, y] =>
    simp only [List.cons_append, List.nil_append, List.cons.injEq] at h
    exact absurd h.2.2.1 hdevice.1
  | [x, y, z] =>
    simp only [List.cons_append, List.nil_append, List.cons.injEq] at h
    obtain ⟨hx, hy, hz, hroot, hpoint, _⟩ := h
    refine ⟨?_, hroot, hpoint⟩
    rw [hx, hy, hz, hroot]
    rfl
  | [x, y, z, u] =>
    simp only [List.cons_append, List.nil_append, List.cons.injEq] at h
    obtain ⟨_, _, _, _, _, hoptions, _⟩ := h
    have hhead := line.options_head
    rw [hoptions] at hhead
    exact absurd rfl hhead
  | [x, y, z, u, v] =>
    simp only [List.cons_append, List.nil_append, List.cons.injEq] at h
    obtain ⟨_, _, _, _, _, _, htail⟩ := h
    have ha := tail_fields (a := []) line.tags_head hb htail
    exact absurd ha.symm (List.append_ne_nil_of_right_ne_nil _ (List.cons_ne_nil _ _))
  | x :: y :: z :: u :: v :: w :: init =>
    simp only [List.cons_append, List.nil_append, List.cons.injEq] at h
    obtain ⟨_, _, _, _, _, _, htail⟩ := h
    have ha := tail_fields (a := init ++ [f ++ [47]]) line.tags_head hb
      (by rw [htail, List.append_assoc, List.singleton_append])
    have hend : init ++ [f ++ [47]] = (line.tags ++ [[45]]) ++ [line.fstype] := by
      rw [ha, List.append_assoc]
      rfl
    have hfstype : f ++ [47] = line.fstype := List.cons.inj (List.append_inj_right' hend rfl) |>.1
    have hslash := line.fstype_name
    rw [← hfstype] at hslash
    exact absurd (List.mem_append_right f List.mem_cons_self) hslash

/-- The line is the one that `scan_mountinfo` looks for. -/
def MountLine.DataRoot (line : MountLine) : Prop :=
  line.root = [47] ∧ line.mountPoint = ascii "/data"

instance (line : MountLine) : Decidable line.DataRoot :=
  inferInstanceAs (Decidable (_ ∧ _))

def dataWord : List UInt8 :=
  ascii "/ /data "

theorem length_device_le (line : MountLine) : line.device.length ≤ 12 := by
  have hmajor := length_decimal_le (k := 4) (by decide) (line.major_lt.trans_le (by decide))
  have hminor := length_decimal_le (k := 7) (by decide) (line.minor_lt.trans_le (by decide))
  simp only [MountLine.device, List.length_append, List.length_cons]
  omega

theorem word_in_body {line : MountLine} {pre post : List UInt8}
    (h : pre ++ (dataWord ++ post) = line.body) : line.DataRoot ∧ pre.length ≤ 50 := by
  have hfields : ∀ f ∈ line.fields, 32 ∉ f := fun f hf => (plain_fields line f hf).1
  have hword : (pre ++ [47]) ++ 32 :: (ascii "/data" ++ 32 :: post) = [32].intercalate line.fields := by
    rw [List.append_assoc]
    exact h
  have hsplit := Fields.fields_of_append_eq hfields (List.cons_ne_nil _ _) (by decide) hword
  have hslash : (47 : UInt8) ≠ 32 := by decide
  obtain ⟨init, f, hinit⟩ := Fields.exists_splitOn_concat hslash pre
  have hback := @List.intercalate_splitOn _ (pre ++ [47]) _ _ (32 : UInt8)
  rw [hinit] at hsplit hback
  obtain ⟨hfour, hroot, hpoint⟩ := fields_cases (List.splitOn_ne_nil 32 post) hsplit
  have hself : line.root = [47] := line.root_path (by rw [hroot, List.getLast?_concat])
  refine ⟨⟨hself, hpoint⟩, ?_⟩
  rw [hfour, hself] at hback
  have hlen := congrArg List.length hback
  have hid := length_decimal_le (k := 10) (by decide) (line.id_lt.trans_le (by decide))
  have hparent := length_decimal_le (k := 10) (by decide) (line.parent_lt.trans_le (by decide))
  have hdevice := length_device_le line
  simp only [List.intercalate_cons_cons, List.intercalate_singleton, List.length_append,
    List.length_singleton] at hlen
  omega

theorem word_in_text {line : MountLine} {pre post : List UInt8}
    (h : pre ++ (dataWord ++ post) = line.text) : line.DataRoot ∧ pre.length ≤ 50 := by
  obtain rfl | ⟨post, b, rfl⟩ := List.eq_nil_or_concat post
  · have hlast := congrArg List.getLast? h
    have hword : pre ++ (dataWord ++ []) = (pre ++ ascii "/ /data") ++ [32] := by
      rw [List.append_nil, List.append_assoc]
      rfl
    rw [hword, MountLine.text, List.getLast?_concat, List.getLast?_concat] at hlast
    cases hlast
  · rw [MountLine.text, List.concat_eq_append, ← List.append_assoc dataWord,
      ← List.append_assoc pre] at h
    exact word_in_body (List.append_inj_left' h rfl)

theorem mem_mountBody {line : MountLine} {b : UInt8} (h : b ∈ line.body) :
    b ≠ newline ∧ b ≠ 0 := by
  obtain rfl | ⟨f, hf, hb⟩ := Fields.mem_of_mem_intercalate h
  · decide
  · obtain ⟨_, hline, hzero⟩ := plain_fields line f hf
    exact ⟨ne_of_mem_of_not_mem hb hline, ne_of_mem_of_not_mem hb hzero⟩

theorem nulFree_mountText (line : MountLine) : 0 ∉ line.text := by
  intro h
  obtain hbody | hend := List.mem_append.mp h
  · exact (mem_mountBody hbody).2 rfl
  · revert hend
    decide

theorem readMount_front {id parent major minor : ℕ} (s : Statics) (hid : id < 2 ^ 31)
    (hparent : parent < 2 ^ 31) (hmajor : major < 2 ^ 31) (hminor : minor < 2 ^ 31)
    (rest : List UInt8) :
    readMount s (decimal id ++ 32 :: (decimal parent ++ 32 :: (decimal major ++ 58 ::
      (decimal minor ++ 32 :: rest)))) = ⟨major, minor⟩ := by
  have hblank (t : List UInt8) : ∀ b ∈ (32 :: t).head?, byteDigit b = none := by
    rintro b ⟨⟩
    rfl
  have hcolon (t : List UInt8) : ∀ b ∈ (58 :: t).head?, byteDigit b = none := by
    rintro b ⟨⟩
    rfl
  have hfirst := scanInt_decimal [] (by simp) hid (hblank (decimal parent ++ 32 ::
    (decimal major ++ 58 :: (decimal minor ++ 32 :: rest))))
  have hnext := scanInt_decimal [32] (by simp [isspace]) hparent
    (hblank (decimal major ++ 58 :: (decimal minor ++ 32 :: rest)))
  have hf := scanInt_decimal [32] (by simp [isspace]) hmajor
    (hcolon (decimal minor ++ 32 :: rest))
  have hn := scanInt_decimal [] (by simp) hminor (hblank rest)
  rw [List.nil_append] at hfirst hn
  rw [List.singleton_append] at hnext hf
  simp only [readMount, hfirst, Option.bind_some, hnext, hf, hn]

theorem body_of_dataRoot {line : MountLine} (h : line.DataRoot) :
    ∃ rest, line.body = decimal line.id ++ 32 :: (decimal line.parent ++ 32 ::
      (decimal line.major ++ 58 :: (decimal line.minor ++ 32 :: (dataWord ++ rest)))) := by
  obtain ⟨hroot, hpoint⟩ := h
  refine ⟨[32].intercalate (line.options ::
    (line.tags ++ [[45], line.fstype, line.source, line.superOptions])), ?_⟩
  have hword : dataWord = [47, 32] ++ (ascii "/data" ++ [32]) := rfl
  rw [MountLine.body, MountLine.fields, hroot, hpoint, hword]
  simp only [List.cons_append, List.nil_append, List.intercalate_cons_cons, MountLine.device,
    List.append_assoc]

theorem foldl_of_no_word {parts : List (List UInt8)} (hnul : ∀ p ∈ parts, 0 ∉ p)
    (h : ∀ p ∈ parts, ¬ dataWord <:+: p) (s : Statics) : parts.foldl scanMountLine s = s := by
  induction parts with
  | nil => rfl
  | cons p parts ih =>
    obtain ⟨hp, hparts⟩ := List.forall_mem_cons.mp h
    obtain ⟨hpnul, hnul⟩ := List.forall_mem_cons.mp hnul
    have hstr : ¬ strstr p "/ /data " = true := by
      rw [strstr_iff hpnul]
      exact hp
    rw [List.foldl_cons, scanMountLine, if_neg hstr, ih hnul hparts]

/-- The parts of a line after the first one do not have the word. -/
theorem no_word_after {line : MountLine} {p : List UInt8}
    (hp : p ∈ pieces newline 4094 (fgets newline 4094 line.text).2) : ¬ dataWord <:+: p := by
  intro hword
  have hbody : newline ∉ line.body := fun h => (mem_mountBody h).1 rfl
  have happend := fgets_append newline 4094 line.text
  have hin : dataWord <:+: (fgets newline 4094 line.text).2 := by
    rw [← flatten_pieces newline (by decide : 0 < 4094) (fgets newline 4094 line.text).2]
    exact hword.trans (List.infix_of_mem_flatten hp)
  by_cases hlen : line.body.length < 4094
  · rw [MountLine.text, fgets_line hbody hlen] at hin
    exact absurd (List.eq_nil_of_infix_nil hin) (by decide)
  · obtain ⟨a, b, hab⟩ := hin
    have hfirst : (fgets newline 4094 line.text).1.length = 4094 := by
      rw [MountLine.text, fgets_within hbody (by omega), List.length_take]
      omega
    have hsplit : (fgets newline 4094 line.text).1 ++ a ++ (dataWord ++ b) = line.text := by
      rw [List.append_assoc, ← List.append_assoc a, hab, happend]
    have hpos := (word_in_text hsplit).2
    rw [List.length_append] at hpos
    omega

theorem first_of_dataRoot {line : MountLine} (h : line.DataRoot) :
    ∃ t, (fgets newline 4094 line.text).1 = decimal line.id ++ 32 :: (decimal line.parent ++ 32 ::
      (decimal line.major ++ 58 :: (decimal line.minor ++ 32 :: (dataWord ++ t)))) := by
  have hbody : newline ∉ line.body := fun h => (mem_mountBody h).1 rfl
  obtain ⟨rest, hrest⟩ := body_of_dataRoot h
  have hid := length_decimal_le (k := 10) (by decide) (line.id_lt.trans_le (by decide))
  have hparent := length_decimal_le (k := 10) (by decide) (line.parent_lt.trans_le (by decide))
  have hdevice := length_device_le line
  rw [MountLine.device] at hdevice
  have hword : dataWord.length = 8 := rfl
  have hlen : (decimal line.id ++ 32 :: (decimal line.parent ++ 32 :: (decimal line.major ++
      58 :: (decimal line.minor ++ 32 :: dataWord)))).length ≤ 4094 := by
    simp only [List.length_append, List.length_cons] at hdevice ⊢
    omega
  have hfront : decimal line.id ++ 32 :: (decimal line.parent ++ 32 :: (decimal line.major ++
      58 :: (decimal line.minor ++ 32 :: dataWord))) <+: line.body :=
    ⟨rest, by simp only [hrest, List.append_assoc, List.cons_append]⟩
  obtain ⟨t, ht⟩ := prefix_fgets hbody hfront hlen []
  refine ⟨t, ?_⟩
  rw [MountLine.text, ← ht]
  simp only [List.append_assoc, List.cons_append]

theorem scanMountLine_first {line : MountLine} (h : line.DataRoot) (s : Statics) :
    scanMountLine s (fgets newline 4094 line.text).1 = ⟨line.major, line.minor⟩ := by
  obtain ⟨t, ht⟩ := first_of_dataRoot h
  have hnul : 0 ∉ (fgets newline 4094 line.text).1 := by
    intro hmem
    apply nulFree_mountText line
    rw [← fgets_append newline 4094 line.text]
    exact List.mem_append_left _ hmem
  have hword : dataWord <:+: (fgets newline 4094 line.text).1 := by
    refine ⟨decimal line.id ++ 32 :: (decimal line.parent ++ 32 :: (decimal line.major ++ 58 ::
      (decimal line.minor ++ [32]))), t, ?_⟩
    rw [ht]
    simp only [List.append_assoc, List.cons_append, List.nil_append]
  have hstr : strstr (fgets newline 4094 line.text).1 "/ /data " = true :=
    (strstr_iff hnul _).mpr hword
  rw [scanMountLine, if_pos hstr, terminated_of_nulFree hnul, ht]
  exact readMount_front s line.id_lt line.parent_lt (line.major_lt.trans (by decide))
    (line.minor_lt.trans (by decide)) _

theorem scan_mountLine (s : Statics) (line : MountLine) :
    (pieces newline 4094 line.text).foldl scanMountLine s =
      if line.DataRoot then ⟨line.major, line.minor⟩ else s := by
  have hne : line.text ≠ [] := List.append_ne_nil_of_right_ne_nil _ (List.cons_ne_nil _ _)
  have hpieces := pieces_of_ne_nil newline (by decide : 0 < 4094) hne
  have hnul (p : List UInt8) (hp : p ∈ pieces newline 4094 line.text) : 0 ∉ p :=
    fun h => nulFree_mountText line (mem_of_mem_pieces (by decide) hp h)
  rw [hpieces] at hnul ⊢
  by_cases hdata : line.DataRoot
  · rw [if_pos hdata, List.foldl_cons, scanMountLine_first hdata]
    exact foldl_of_no_word (fun p hp => hnul p (List.mem_cons_of_mem _ hp))
      (fun p hp => no_word_after hp) _
  · rw [if_neg hdata]
    apply foldl_of_no_word hnul
    intro p hp hword
    obtain rfl | hrest := List.mem_cons.mp hp
    · obtain ⟨a, b, hab⟩ := hword
      have happend := fgets_append newline 4094 line.text
      rw [← hab, List.append_assoc, List.append_assoc] at happend
      exact hdata (word_in_text happend).1
    · exact no_word_after hrest hword

/-! ### Calls -/

/-- The last line that `scan_mountinfo` takes for the one of /data. -/
def remembered (lines : List MountLine) : Option MountLine :=
  (lines.filter fun line => line.DataRoot).getLast?

theorem scanMountinfo_lines (s : Statics) (lines : List MountLine) :
    scanMountinfo s (some (mountText lines)) = ((remembered lines).map MountLine.statics).getD s := by
  change (pieces newline 4094 (mountText lines)).foldl scanMountLine s = _
  induction lines generalizing s with
  | nil => rfl
  | cons line lines ih =>
    have hbody : newline ∉ line.body := fun h => (mem_mountBody h).1 rfl
    have htext : mountText (line :: lines) = line.body ++ newline :: mountText lines := by
      rw [mountText, List.flatMap_cons, MountLine.text, List.append_assoc]
      rfl
    rw [htext, pieces_line (by decide) hbody, List.foldl_append, ih, ← MountLine.text,
      scan_mountLine, remembered, remembered, List.filter_cons]
    by_cases hdata : line.DataRoot
    · rw [if_pos hdata, if_pos (decide_eq_true hdata), List.getLast?_cons]
      cases (lines.filter fun line => line.DataRoot).getLast? <;> rfl
    · rw [if_neg hdata, if_neg (by simpa using hdata)]

theorem remembered_append (xs ys : List MountLine) :
    remembered (xs ++ ys) = (remembered ys).or (remembered xs) := by
  rw [remembered, List.filter_append, List.getLast?_append]
  rfl

/-- What an earlier call found; `finds` is the answer where it reads an uninitialised variable. -/
structure Call where
  others : ℕ
  mountinfo : Option (List MountLine)
  maps : Option (List UInt8)
  finds : Bool

section History

variable (limit : ℕ)

def Call.run (p : Process) (call : Call) : Process :=
  let r := haveMagicMount limit p call.others (call.mountinfo.map mountText) call.maps
  if r.1 = none ∧ call.finds then { r.2 with leaked := r.2.leaked + 1 } else r.2

/-- The process after earlier calls. -/
def processAfter (history : List Call) : Process :=
  history.foldl (Call.run limit) fresh

/-- The lines of the mountinfo that a call can open. -/
def linesOpened (p : Process) (others : ℕ) (mountinfo : Option (List MountLine)) :
    List MountLine :=
  (sysOpen limit (p.leaked + others) mountinfo).getD []

def linesRead : Process → List Call → List MountLine
  | _, [] => []
  | p, call :: history =>
    linesOpened limit p call.others call.mountinfo ++ linesRead (call.run limit p) history

theorem scanMountinfo_opened (p : Process) (others : ℕ) (mountinfo : Option (List MountLine)) :
    scanMountinfo p.statics (sysOpen limit (p.leaked + others) (mountinfo.map mountText)) =
      ((remembered (linesOpened limit p others mountinfo)).map MountLine.statics).getD
        p.statics := by
  rw [linesOpened, sysOpen, sysOpen]
  split
  · cases mountinfo with
    | none => rfl
    | some lines => exact scanMountinfo_lines p.statics lines
  · rfl

theorem statics_run (p : Process) (call : Call) : (call.run limit p).statics =
    ((remembered (linesOpened limit p call.others call.mountinfo)).map MountLine.statics).getD
      p.statics := by
  rw [← scanMountinfo_opened, Call.run]
  dsimp only
  split <;> rfl

theorem statics_foldl (history : List Call) (p : Process) :
    (history.foldl (Call.run limit) p).statics =
      ((remembered (linesRead limit p history)).map MountLine.statics).getD p.statics := by
  induction history generalizing p with
  | nil => rfl
  | cons call history ih =>
    rw [List.foldl_cons, ih, statics_run, linesRead, remembered_append]
    cases remembered (linesRead limit (call.run limit p) history) <;> rfl

end History

/-! ### The result -/

instance (m : Mapping) : Decidable m.Protected :=
  inferInstanceAs (Decidable (∃ path ∈ protectedPaths, ascii path <+: m.name))

/-- A protected path lies on the device of the mount at /data. -/
def OnData (mounts : Mounts) (maps : List Mapping) : Prop :=
  ∃ m ∈ maps, m.Protected ∧ m.major = mounts.data.major ∧ m.minor = mounts.data.minor

instance (mounts : Mounts) (maps : List Mapping) : Decidable (OnData mounts maps) :=
  inferInstanceAs (Decidable (∃ m ∈ maps, _))

def Exact (limit : ℕ) (history : List Call) (others : ℕ) (mounts : Mounts)
    (maps : List Mapping) : Prop :=
  (haveMagicMount limit (processAfter limit history) others (some (mountText mounts.lines))
    (some (mapsText maps))).1 = some (if OnData mounts maps then 1 else 0)

/-- A descriptor is free, and some line was taken for the one of /data. Where a protected path lies
on the device of /data, that is the line's or some mapping shows the line's; where none does, no
mapping shows it. -/
def Conclusive (limit : ℕ) (history : List Call) (others : ℕ) (mounts : Mounts)
    (maps : List Mapping) : Prop :=
  (processAfter limit history).leaked + others < limit ∧
    ∃ line, remembered (linesRead limit fresh history ++ mounts.lines) = some line ∧
      Readable line.statics (maps.flatMap Mapping.parts) ∧
      (OnData mounts maps ∧
          (line.statics = mounts.data.statics ∨ ∃ m ∈ maps, m.Shows line) ∨
        ¬ OnData mounts maps ∧ ∀ m ∈ maps, ¬ m.Shows line)

theorem shows_of_onData {mounts : Mounts} {maps : List Mapping} (h : OnData mounts maps)
    {line : MountLine} (hline : line.statics = mounts.data.statics) : ∃ m ∈ maps, m.Shows line := by
  obtain ⟨m, hm, hprotected, hmajor, hminor⟩ := h
  simp only [MountLine.statics, Statics.mk.injEq, Nat.cast_inj] at hline
  exact ⟨m, hm, shows_of_protected hprotected
    ⟨hmajor.trans hline.1.symm, hminor.trans hline.2.symm⟩⟩

theorem nulFree_parts (maps : List Mapping) : ∀ p ∈ maps.flatMap Mapping.parts, 0 ∉ p := by
  intro p hp h
  obtain ⟨m, _, hparts⟩ := List.mem_flatMap.mp hp
  exact nulFree_text m (mem_of_mem_pieces (by decide) hparts h)

/-- Where no descriptor is free, no file is read. -/
theorem haveMagicMount_of_full {limit others : ℕ} {p : Process} (h : ¬ p.leaked + others < limit)
    (mountinfo maps : Option (List UInt8)) :
    (haveMagicMount limit p others mountinfo maps).1 = some (-1) := by
  have hmaps : sysOpen limit (p.leaked + others) maps = none := if_neg h
  rw [haveMagicMount]
  dsimp only
  rw [hmaps]
  split <;> rfl

theorem haveMagicMount_eq {limit others : ℕ} {history : List Call}
    (h : (processAfter limit history).leaked + others < limit) (lines : List MountLine)
    (maps : List Mapping) :
    (haveMagicMount limit (processAfter limit history) others (some (mountText lines))
      (some (mapsText maps))).1 =
      match remembered (linesRead limit fresh history ++ lines) with
      | none => some (-1)
      | some line => scanParts line.statics (maps.flatMap Mapping.parts) := by
  have hopens {α : Type} (file : Option α) :
      sysOpen limit ((processAfter limit history).leaked + others) file = file := if_pos h
  have hstatics : scanMountinfo (processAfter limit history).statics (some (mountText lines)) =
      ((remembered (linesRead limit fresh history ++ lines)).map MountLine.statics).getD
        fresh.statics := by
    rw [scanMountinfo_lines, processAfter, statics_foldl, remembered_append]
    cases remembered lines <;> rfl
  rw [haveMagicMount]
  dsimp only
  rw [hopens, hopens, hstatics]
  cases remembered (linesRead limit fresh history ++ lines) with
  | none => rfl
  | some line =>
    have hset : ¬ (line.statics.minor = -1 ∨ line.statics.major = -1) := by
      simp only [MountLine.statics]
      omega
    change (if line.statics.minor = -1 ∨ line.statics.major = -1 then some (-1)
      else scanMaps line.statics (some (mapsText maps))) = _
    rw [if_neg hset]
    change scanParts line.statics (pieces newline 4094 (mapsText maps)) = _
    rw [pieces_mapsText]

theorem not_exact_of_failed {p : Prop} [Decidable p] :
    (some (-1) : Option ℤ) ≠ some (if p then 1 else 0) := by
  intro h
  have hone : (-1 : ℤ) = if p then 1 else 0 := Option.some.inj h
  split at hone <;> omega

theorem haveMagicMount_exact_iff (limit : ℕ) (history : List Call) (others : ℕ) (mounts : Mounts)
    (maps : List Mapping) :
    Exact limit history others mounts maps ↔ Conclusive limit history others mounts maps := by
  rw [Exact, Conclusive]
  by_cases hfree : (processAfter limit history).leaked + others < limit
  · rw [haveMagicMount_eq hfree, and_iff_right hfree]
    cases remembered (linesRead limit fresh history ++ mounts.lines) with
    | none => exact iff_of_false not_exact_of_failed (by simp)
    | some line =>
      simp only [Option.some.injEq, exists_eq_left']
      rw [scanParts_eq_iff _ (nulFree_parts maps), exists_shown_iff]
      apply and_congr_right
      intro _
      by_cases hdata : OnData mounts maps
      · simp only [hdata, iff_true, true_and, not_true_eq_false, false_and, or_false]
        constructor
        · exact Or.inr
        · rintro (hline | hshows)
          · exact shows_of_onData hdata hline
          · exact hshows
      · simp [hdata]
  · rw [haveMagicMount_of_full hfree]
    exact iff_of_false not_exact_of_failed fun h => hfree h.1

def dataLine : MountLine where
  id := 40
  parent := 30
  major := 253
  minor := 5
  root := ascii "/"
  mountPoint := ascii "/data"
  options := ascii "rw"
  tags := []
  fstype := ascii "ext4"
  source := ascii "/dev/block/dm-5"
  superOptions := ascii "rw"
  id_lt := by decide
  parent_lt := by decide
  major_lt := by decide
  minor_lt := by decide
  plain := by simp only [Plain]; decide
  root_path := by decide
  options_head := by decide
  tags_head := by decide
  fstype_name := by decide

theorem perms_ascii : ∀ b ∈ ascii "r--p", b ∈ ascii "rwxps-" := by
  have hall : (ascii "r--p").all (fun b => b ∈ ascii "rwxps-") = true := by decide
  intro b hb
  exact of_decide_eq_true (List.all_eq_true.mp hall b hb)

def spacedMapping : Mapping where
  start := 4096
  stop := 8192
  perms := ascii "r--p"
  offset := 0
  major := 253
  minor := 5
  inode := 77
  pad := 30
  name := ascii "/data/my /system/x.so"
  start_lt := by decide
  stop_lt := by decide
  perms_length := by decide
  perms_letters := perms_ascii
  offset_lt := by decide
  major_lt := by decide
  minor_lt := by decide
  inode_lt := by decide
  pad_le := by decide
  name_line := by decide

def dataMounts : Mounts where
  before := []
  data := dataLine
  after := []
  data_point := rfl
  after_point := by decide

/-- A file of an app whose path has a protected one after a blank. -/
theorem spaced_path_reported : ¬ Exact 1024 [] 0 dataMounts [spacedMapping] := by
  have hfree : (processAfter 1024 []).leaked + 0 < 1024 := by decide
  have hline : remembered (linesRead 1024 fresh [] ++ dataMounts.lines) = some dataLine := rfl
  rw [Exact, haveMagicMount_eq hfree]
  simp only [hline]
  rw [scanParts_eq_iff _ (nulFree_parts _), exists_shown_iff]
  rintro ⟨_, h⟩
  have hsystem : "/system/" ∈ protectedPaths := List.mem_cons_self
  have hspells : Spells spacedMapping.firstName :=
    spells_of_blank_path (ascii " /data/my") hsystem (by decide) (by decide)
  have hdata : ¬ OnData dataMounts [spacedMapping] := by decide
  exact hdata (h.mp ⟨spacedMapping, List.mem_singleton_self _, Or.inl ⟨hspells, rfl, rfl⟩⟩)

end MagicMount

end EnvironmentCheck
