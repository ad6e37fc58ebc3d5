import EnvironmentCheck.JavaText
import EnvironmentCheck.Library.Fields

namespace EnvironmentCheck

namespace MountTable

def pathsThatShouldNotBeWritable : List String :=
  ["/system", "/system/bin", "/system/sbin", "/system/xbin", "/vendor/bin", "/sbin", "/etc"]

variable (java : JavaText)

/-- `"rw".equals(option, ignoreCase = true)` for one of the options. -/
def hasRw (options : List (List Char)) : Bool :=
  options.any (equalsIgnoreCase java "rw".toList)

/-- The paths that one line adds; it is skipped where it has less than four words. -/
def lineRWPaths (line : List Char) : List String :=
  match line.splitOn ' ' with
  | _ :: mountPoint :: _ :: mountOptions :: _ =>
    pathsThatShouldNotBeWritable.filter fun pathToCheck =>
      equalsIgnoreCase java mountPoint pathToCheck.toList && hasRw java (mountOptions.splitOn ',')
  | _ => []

/-- `existingRWPaths` where `mount` prints this. -/
def existingRWPaths (output : List Char) : List String :=
  (output.splitOn '\n').flatMap (lineRWPaths java)

/-! ### What `mount` prints -/

/-- A text without these characters. -/
def Free (marks : List Char) (s : List Char) : Prop :=
  ∀ c ∈ marks, c ∉ s

/-- What both formats show of a mount. -/
structure Mount where
  device : List Char
  mountPoint : List Char
  fstype : List Char
  options : List (List Char)
  options_ne : options ≠ []
  options_free : ∀ option ∈ options, Free [',', '\n'] option

def Mount.optionsText (m : Mount) : List Char :=
  [','].intercalate m.options

structure Toolbox extends Mount where
  more : List (List Char)
  free : ∀ field ∈ device :: mountPoint :: fstype :: more, Free [' ', '\n'] field
  options_unblank : ∀ option ∈ options, ' ' ∉ option

structure Toybox extends Mount where
  device_line : '\n' ∉ device
  point_line : '\n' ∉ mountPoint
  fstype_line : '\n' ∉ fstype

inductive Line where
  | toolbox (m : Toolbox)
  | toybox (m : Toybox)

def Toolbox.text (m : Toolbox) : List Char :=
  [' '].intercalate (m.device :: m.mountPoint :: m.fstype :: m.optionsText :: m.more)

def Toybox.text (m : Toybox) : List Char :=
  m.device ++ " on ".toList ++ m.mountPoint ++ " type ".toList ++ m.fstype ++ " (".toList ++
    m.optionsText ++ ")".toList

def Line.mount : Line → Mount
  | .toolbox m => m.toMount
  | .toybox m => m.toMount

def Line.text : Line → List Char
  | .toolbox m => m.text
  | .toybox m => m.text

def tableText (lines : List Line) : List Char :=
  lines.flatMap fun line => line.text ++ ['\n']

/-- The mount makes the path writable. -/
def Mount.Grants (m : Mount) (path : String) : Prop :=
  equalsIgnoreCase java m.mountPoint path.toList = true ∧ hasRw java m.options = true

/-- The list is, as a set, the protected paths that some line makes writable. -/
def Exact (lines : List Line) : Prop :=
  ∀ path, path ∈ existingRWPaths java (tableText lines) ↔
    path ∈ pathsThatShouldNotBeWritable ∧ ∃ line ∈ lines, line.mount.Grants java path

/-- The words of a line of the newer format that stand where the older one has the mount point and
the options are the path and have rw. -/
def Toybox.Misread (m : Toybox) (path : String) : Prop :=
  ∃ word0 word1 word2 word3 more,
    m.text.splitOn ' ' = word0 :: word1 :: word2 :: word3 :: more ∧
      equalsIgnoreCase java word1 path.toList = true ∧ hasRw java (word3.splitOn ',') = true

/-- What the newer lines grant is granted or misread in others, and nothing else is misread. -/
def Parsed (lines : List Line) : Prop :=
  ∀ path ∈ pathsThatShouldNotBeWritable,
    ((∃ m, .toybox m ∈ lines ∧ m.Grants java path) →
      (∃ m, .toolbox m ∈ lines ∧ m.Grants java path) ∨
        ∃ m, .toybox m ∈ lines ∧ m.Misread java path) ∧
    ((∃ m, .toybox m ∈ lines ∧ m.Misread java path) → ∃ line ∈ lines, line.mount.Grants java path)

/-! ### One line -/

variable {java}

theorem not_mem_intercalate {sep c : Char} (hc : c ≠ sep) {fields : List (List Char)}
    (h : ∀ f ∈ fields, c ∉ f) : c ∉ [sep].intercalate fields := by
  intro hmem
  obtain hsep | ⟨f, hf, hcf⟩ := Fields.mem_of_mem_intercalate hmem
  · exact hc hsep
  · exact h f hf hcf

theorem splitOn_optionsText (m : Mount) : m.optionsText.splitOn ',' = m.options := by
  apply List.splitOn_intercalate ',' _ m.options_ne
  intro option hoption
  exact m.options_free option hoption ',' (by decide)

theorem mem_toolbox (m : Toolbox) : ∀ field ∈ m.device :: m.mountPoint :: m.fstype ::
    m.optionsText :: m.more, ' ' ∉ field ∧ '\n' ∉ field := by
  intro field hfield
  have hfree (f : List Char) (h : f ∈ m.device :: m.mountPoint :: m.fstype :: m.more) :
      ' ' ∉ f ∧ '\n' ∉ f :=
    ⟨m.free f h ' ' (by decide), m.free f h '\n' (by decide)⟩
  have hoptions : ' ' ∉ m.optionsText ∧ '\n' ∉ m.optionsText :=
    ⟨not_mem_intercalate (by decide) m.options_unblank,
      not_mem_intercalate (by decide) fun o ho => m.options_free o ho '\n' (by decide)⟩
  simp only [List.mem_cons] at hfield hfree
  obtain h | h | h | rfl | h := hfield
  · exact hfree field (Or.inl h)
  · exact hfree field (Or.inr (Or.inl h))
  · exact hfree field (Or.inr (Or.inr (Or.inl h)))
  · exact hoptions
  · exact hfree field (Or.inr (Or.inr (Or.inr h)))

theorem mem_lineRWPaths_toolbox (m : Toolbox) (path : String) : path ∈ lineRWPaths java m.text ↔
    path ∈ pathsThatShouldNotBeWritable ∧ m.Grants java path := by
  have hsplit : m.text.splitOn ' ' =
      m.device :: m.mountPoint :: m.fstype :: m.optionsText :: m.more :=
    List.splitOn_intercalate ' ' (fun f hf => (mem_toolbox m f hf).1) (List.cons_ne_nil _ _)
  simp only [lineRWPaths, hsplit, splitOn_optionsText, List.mem_filter, Bool.and_eq_true,
    Mount.Grants]

theorem length_ne_two {path : String} (h : path ∈ pathsThatShouldNotBeWritable) :
    path.toList.length ≠ 2 := by
  have hall : pathsThatShouldNotBeWritable.all (fun path => path.toList.length ≠ 2) = true := by
    decide
  exact of_decide_eq_true (List.all_eq_true.mp hall path h)

theorem mem_lineRWPaths_toybox (m : Toybox) (path : String) : path ∈ lineRWPaths java m.text ↔
    path ∈ pathsThatShouldNotBeWritable ∧ m.Misread java path := by
  rw [lineRWPaths]
  split
  · next word0 word1 word2 word3 more hwords =>
    rw [List.mem_filter, Bool.and_eq_true]
    apply and_congr_right
    intro _
    constructor
    · rintro ⟨hpoint, hrw⟩
      exact ⟨word0, word1, word2, word3, more, hwords, hpoint, hrw⟩
    · rintro ⟨_, _, _, _, _, hsplit, hpoint, hrw⟩
      rw [hwords] at hsplit
      simp only [List.cons.injEq] at hsplit
      obtain ⟨_, rfl, _, rfl, _⟩ := hsplit
      exact ⟨hpoint, hrw⟩
  · next hwords =>
    refine iff_of_false List.not_mem_nil ?_
    rintro ⟨_, word0, word1, word2, word3, more, hsplit, _⟩
    exact hwords word0 word1 word2 word3 more hsplit

/-- The second word of a newer line is `on`, unless its device has a blank. -/
theorem blank_of_misread {m : Toybox} {path : String} (hpath : path ∈ pathsThatShouldNotBeWritable)
    (h : m.Misread java path) : ' ' ∈ m.device := by
  by_contra hblank
  have htext : m.text = m.device ++ ' ' :: ("on".toList ++ ' ' :: (m.mountPoint ++
      (" type ".toList ++ (m.fstype ++ (" (".toList ++ (m.optionsText ++ ")".toList)))))) := by
    simp only [Toybox.text, List.append_assoc]
    rfl
  have hon : ' ' ∉ "on".toList := by decide
  obtain ⟨word0, word1, word2, word3, more, hwords, hpoint, _⟩ := h
  rw [htext, List.splitOn_append_cons_self_of_not_mem hblank,
    List.splitOn_append_cons_self_of_not_mem hon] at hwords
  simp only [List.cons.injEq] at hwords
  obtain ⟨_, rfl, _⟩ := hwords
  exact length_ne_two hpath (length_eq_of_equalsIgnoreCase hpoint).symm

/-! ### The whole table -/

theorem line_not_mem (line : Line) : '\n' ∉ line.text := by
  cases line with
  | toolbox m => exact not_mem_intercalate (by decide) fun f hf => (mem_toolbox m f hf).2
  | toybox m =>
    have hoptions : '\n' ∉ m.optionsText :=
      not_mem_intercalate (by decide) fun o ho => m.options_free o ho '\n' (by decide)
    have hwords : '\n' ∉ " on ".toList ∧ '\n' ∉ " type ".toList ∧ '\n' ∉ " (".toList ∧
        '\n' ∉ ")".toList := by decide
    simp only [Line.text, Toybox.text, List.mem_append, m.device_line, m.point_line, m.fstype_line,
      hoptions, hwords, or_self, not_false_eq_true]

theorem splitOn_tableText (lines : List Line) :
    (tableText lines).splitOn '\n' = lines.map Line.text ++ [[]] := by
  induction lines with
  | nil => rfl
  | cons line lines ih =>
    have htext : tableText (line :: lines) = line.text ++ '\n' :: tableText lines := by
      rw [tableText, List.flatMap_cons, List.append_assoc]
      rfl
    rw [htext, List.splitOn_append_cons_self_of_not_mem (line_not_mem line), ih]
    rfl

theorem mem_existingRWPaths (lines : List Line) (path : String) :
    path ∈ existingRWPaths java (tableText lines) ↔
      ∃ line ∈ lines, path ∈ lineRWPaths java line.text := by
  have hnil : lineRWPaths java [] = [] := rfl
  rw [existingRWPaths, splitOn_tableText, List.flatMap_append, List.flatMap_singleton, hnil,
    List.append_nil, List.flatMap_map, List.mem_flatMap]

theorem existingRWPaths_exact_iff (java : JavaText) (lines : List Line) :
    Exact java lines ↔ Parsed java lines := by
  constructor
  · intro hexact path hpath
    constructor
    · rintro ⟨m, hm, hgrants⟩
      have hmem := (hexact path).mpr ⟨hpath, .toybox m, hm, hgrants⟩
      obtain ⟨line, hline, hadds⟩ := (mem_existingRWPaths lines path).mp hmem
      cases line with
      | toolbox m' => exact Or.inl ⟨m', hline, ((mem_lineRWPaths_toolbox m' path).mp hadds).2⟩
      | toybox m' => exact Or.inr ⟨m', hline, ((mem_lineRWPaths_toybox m' path).mp hadds).2⟩
    · rintro ⟨m, hm, hmisread⟩
      have hadds := (mem_lineRWPaths_toybox m path).mpr ⟨hpath, hmisread⟩
      exact ((hexact path).mp ((mem_existingRWPaths lines path).mpr ⟨.toybox m, hm, hadds⟩)).2
  · intro hparsed path
    rw [mem_existingRWPaths]
    constructor
    · rintro ⟨line, hline, hadds⟩
      cases line with
      | toolbox m =>
        obtain ⟨hpath, hgrants⟩ := (mem_lineRWPaths_toolbox m path).mp hadds
        exact ⟨hpath, .toolbox m, hline, hgrants⟩
      | toybox m =>
        obtain ⟨hpath, hmisread⟩ := (mem_lineRWPaths_toybox m path).mp hadds
        exact ⟨hpath, (hparsed path hpath).2 ⟨m, hline, hmisread⟩⟩
    · rintro ⟨hpath, line, hline, hgrants⟩
      cases line with
      | toolbox m => exact ⟨.toolbox m, hline, (mem_lineRWPaths_toolbox m path).mpr ⟨hpath, hgrants⟩⟩
      | toybox m =>
        obtain ⟨m', hm', hgrants'⟩ | ⟨m', hm', hmisread⟩ :=
          (hparsed path hpath).1 ⟨m, hline, hgrants⟩
        · exact ⟨.toolbox m', hm', (mem_lineRWPaths_toolbox m' path).mpr ⟨hpath, hgrants'⟩⟩
        · exact ⟨.toybox m', hm', (mem_lineRWPaths_toybox m' path).mpr ⟨hpath, hmisread⟩⟩

theorem systemOptions_free :
    ∀ option ∈ ["rw".toList, "seclabel".toList], Free [',', '\n'] option := by
  simp [Free]

theorem systemOptions_ne : ["rw".toList, "seclabel".toList] ≠ [] :=
  List.cons_ne_nil _ _

theorem systemDevice_line : '\n' ∉ "/dev/block/dm-0".toList := by
  decide

theorem systemPoint_line : '\n' ∉ "/system".toList := by
  decide

theorem systemType_line : '\n' ∉ "ext4".toList := by
  decide

def writableSystem : Toybox where
  device := "/dev/block/dm-0".toList
  mountPoint := "/system".toList
  fstype := "ext4".toList
  options := ["rw".toList, "seclabel".toList]
  options_ne := systemOptions_ne
  options_free := systemOptions_free
  device_line := systemDevice_line
  point_line := systemPoint_line
  fstype_line := systemType_line

/-- `/dev/block/dm-0 on /system type ext4 (rw,seclabel)` -/
theorem writableSystem_unseen : ¬ Exact asciiText [.toybox writableSystem] := by
  intro h
  have hgrants : writableSystem.Grants asciiText "/system" := by
    unfold Mount.Grants
    decide
  have hmem := (h "/system").mpr
    ⟨List.mem_cons_self, .toybox writableSystem, List.mem_singleton_self _, hgrants⟩
  obtain ⟨line, hline, hadds⟩ := (mem_existingRWPaths _ _).mp hmem
  rw [List.mem_singleton.mp hline] at hadds
  obtain ⟨hpath, hmisread⟩ := (mem_lineRWPaths_toybox _ _).mp hadds
  exact absurd (blank_of_misread hpath hmisread) (by decide)

end MountTable

end EnvironmentCheck
