import EnvironmentCheck.Library.LineReading
import EnvironmentCheck.StringConversion

namespace EnvironmentCheck

open LineReading StringConversion

def newline : UInt8 := 10

def ascii (s : String) : List UInt8 :=
  s.toList.map fun c => c.toNat.toUInt8

def strstr (s : List UInt8) (needle : String) : Bool :=
  ascii needle <:+: terminated s

def dropNewline (s : List UInt8) : List UInt8 :=
  if s.getLast? = some newline then s.dropLast else s

/-- What a loop over `fgets` with a buffer of `size` appends, without the last end of a line. -/
def readStream (size : ℕ) (content : List UInt8) : List UInt8 :=
  dropNewline ((pieces newline (size - 1) content).flatMap terminated)

/-- `COMMON::readFile`; there is no content where the file does not open. -/
def readFile (file : Option (List UInt8)) : List UInt8 :=
  match file with
  | none => []
  | some content => readStream 512 content

/-- `COMMON::shellExecute` of a command that prints this. -/
def shellExecute (output : List UInt8) : List UInt8 :=
  readStream 128 output

theorem terminated_of_nulFree {s : List UInt8} (h : 0 ∉ s) : terminated s = s := by
  rw [terminated, List.takeWhile_eq_self_iff]
  intro b hb
  simpa using ne_of_mem_of_not_mem hb h

theorem strstr_iff {s : List UInt8} (h : 0 ∉ s) (needle : String) :
    strstr s needle = true ↔ ascii needle <:+: s := by
  rw [strstr, terminated_of_nulFree h, decide_eq_true_eq]

theorem dropNewline_append (s : List UInt8) : dropNewline (s ++ [newline]) = s := by
  rw [dropNewline, List.getLast?_concat, if_pos rfl, List.dropLast_concat]

theorem dropNewline_of_ne {s : List UInt8} (h : s.getLast? ≠ some newline) : dropNewline s = s :=
  if_neg h

/-- A text ends with the end of a line, which is dropped, or it stays as it is. -/
theorem dropNewline_cases (s : List UInt8) :
    (∃ t, s = t ++ [newline] ∧ dropNewline s = t) ∨ dropNewline s = s := by
  by_cases h : s.getLast? = some newline
  · obtain ⟨t, rfl⟩ := List.getLast?_eq_some_iff.mp h
    exact Or.inl ⟨t, rfl, dropNewline_append t⟩
  · exact Or.inr (dropNewline_of_ne h)

theorem dropNewline_eq_nil_iff (s : List UInt8) : dropNewline s = [] ↔ s = [] ∨ s = [newline] := by
  obtain ⟨t, rfl, ht⟩ | hs := dropNewline_cases s
  · rw [ht]
    simp
  · rw [hs]
    constructor
    · exact Or.inl
    · rintro (rfl | rfl)
      · rfl
      · cases hs

theorem mem_of_mem_dropNewline {s : List UInt8} {b : UInt8} (h : b ∈ dropNewline s) : b ∈ s := by
  obtain ⟨t, rfl, ht⟩ | hs := dropNewline_cases s
  · rw [ht] at h
    exact List.mem_append_left _ h
  · rwa [hs] at h

theorem infix_dropNewline_iff {word : List UInt8} (hword : newline ∉ word) (s : List UInt8) :
    word <:+: dropNewline s ↔ word <:+: s := by
  obtain ⟨t, rfl, ht⟩ | hs := dropNewline_cases s
  · rw [ht]
    constructor
    · intro h
      exact h.trans (List.prefix_append t [newline]).isInfix
    · rintro ⟨a, b, hab⟩
      obtain rfl | ⟨b, c, rfl⟩ := List.eq_nil_or_concat b
      · obtain rfl | ⟨w, c, rfl⟩ := List.eq_nil_or_concat word
        · exact List.nil_infix
        · rw [List.append_nil, List.concat_eq_append, ← List.append_assoc] at hab
          obtain ⟨_, hc⟩ := List.append_inj' hab rfl
          rw [List.concat_eq_append, hc] at hword
          exact absurd (List.mem_append_right w (List.mem_singleton_self newline)) hword
      · refine ⟨a, b, ?_⟩
        rw [List.concat_eq_append, ← List.append_assoc] at hab
        exact (List.append_inj' hab rfl).1
  · rw [hs]

theorem readStream_of_nulFree {size : ℕ} (hsize : 1 < size) {content : List UInt8}
    (h : 0 ∉ content) : readStream size content = dropNewline content := by
  have hpieces : (pieces newline (size - 1) content).flatMap terminated =
      (pieces newline (size - 1) content).flatten := by
    rw [List.flatMap_def, List.map_congr_left (g := id), List.map_id]
    intro p hp
    exact terminated_of_nulFree fun h0 => h (mem_of_mem_pieces (by omega) hp h0)
  rw [readStream, hpieces, flatten_pieces newline (by omega)]

end EnvironmentCheck
