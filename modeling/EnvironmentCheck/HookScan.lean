import EnvironmentCheck.CommonFiles
import Mathlib.Algebra.Order.Ring.Int

namespace EnvironmentCheck

open LineReading

namespace HookScan

/-- A call of `fclose` with no stream. -/
structure NullStream where

def markers : List String :=
  ["frida", "com.saurik.substrate", "XposedBridge.jar"]

def frameCheck (maps : Option (List UInt8)) : Except NullStream ℕ :=
  match maps with
  | none => throw {}
  | some content =>
    if (pieces newline 511 content).any fun buf =>
        strstr buf "frida" || strstr buf "com.saurik.substrate" || strstr buf "XposedBridge.jar"
    then pure 1 else pure 0

def checkHookByMap (maps : Option (List UInt8)) (output : List UInt8) :
    Except NullStream String := do
  let _ ← frameCheck maps
  let mapsStr := if readFile maps = [] then shellExecute output else readFile maps
  if mapsStr = [] then return ""
  return (if strstr mapsStr "frida" then "frida" else "") ++
    (if strstr mapsStr "com.saurik.substrate" then "substrate" else "") ++
    if strstr mapsStr "XposedBridge.jar" then "xposed" else ""

structure MapsFile where
  bytes : List UInt8
  ne : bytes ≠ []
  nulFree : 0 ∉ bytes

def Agree (maps : Option MapsFile) (output : List UInt8) : Prop :=
  match maps with
  | none => frameCheck none = .ok 0 ∧ checkHookByMap none output = .ok ""
  | some file => ∃ r data, frameCheck (some file.bytes) = .ok r ∧
      checkHookByMap (some file.bytes) output = .ok data ∧ (r = 1 ↔ data ≠ "")

/-- A file with a marker has one that no buffer cuts, and nothing else is searched for one. -/
structure MapsFile.Scannable (file : MapsFile) (output : List UInt8) : Prop where
  uncut : (∃ marker ∈ markers, ascii marker <:+: file.bytes) →
    ∃ marker ∈ markers, Uncut newline 511 (ascii marker) file.bytes
  shell : file.bytes = [newline] → ∀ marker ∈ markers, strstr (shellExecute output) marker = false

theorem markers_fit : ∀ marker ∈ markers, ascii marker ≠ [] ∧ newline ∉ ascii marker := by
  decide

theorem frameCheck_eq (content : List UInt8) : frameCheck (some content) =
    if ∃ buf ∈ pieces newline 511 content, ∃ marker ∈ markers, strstr buf marker = true
    then .ok 1 else .ok 0 := by
  simp [frameCheck, markers, or_assoc]
  rfl

def found (maps : List UInt8) : String :=
  (if strstr maps "frida" then "frida" else "") ++
    (if strstr maps "com.saurik.substrate" then "substrate" else "") ++
    if strstr maps "XposedBridge.jar" then "xposed" else ""

theorem found_ne_iff (maps : List UInt8) :
    found maps ≠ "" ↔ ∃ marker ∈ markers, strstr maps marker = true := by
  simp only [found, markers, List.mem_cons, List.not_mem_nil, or_false, exists_eq_or_imp,
    exists_eq_left]
  cases strstr maps "frida" <;> cases strstr maps "com.saurik.substrate" <;>
    cases strstr maps "XposedBridge.jar" <;> decide

theorem found_nil : found [] = "" := by
  decide

theorem frameCheck_returns (content : List UInt8) : ∃ r, frameCheck (some content) = .ok r := by
  rw [frameCheck_eq]
  split
  · exact ⟨1, rfl⟩
  · exact ⟨0, rfl⟩

theorem checkHookByMap_eq (content output : List UInt8) :
    checkHookByMap (some content) output = .ok (found (if readFile (some content) = []
      then shellExecute output else readFile (some content))) := by
  obtain ⟨r, hr⟩ := frameCheck_returns content
  generalize hmaps : (if readFile (some content) = [] then shellExecute output
    else readFile (some content)) = mapsStr
  change (frameCheck (some content)).bind (fun _ =>
    if (if readFile (some content) = [] then shellExecute output
      else readFile (some content)) = [] then pure "" else pure (found _)) = _
  rw [hr, hmaps]
  change (if mapsStr = [] then Except.ok "" else Except.ok (found mapsStr)) = _
  split
  · next h =>
    rw [h, found_nil]
  · rfl

/-- What the second scanner searches holds the markers of the file, or it is the shell's. -/
theorem searched_iff (file : MapsFile) (output : List UInt8) :
    (∃ marker ∈ markers, strstr (if readFile (some file.bytes) = [] then shellExecute output
      else readFile (some file.bytes)) marker = true) ↔
      if file.bytes = [newline] then ∃ marker ∈ markers, strstr (shellExecute output) marker = true
      else ∃ marker ∈ markers, ascii marker <:+: file.bytes := by
  have hread : readFile (some file.bytes) = dropNewline file.bytes :=
    readStream_of_nulFree (by decide) file.nulFree
  have hempty : readFile (some file.bytes) = [] ↔ file.bytes = [newline] := by
    rw [hread, dropNewline_eq_nil_iff, or_iff_right file.ne]
  by_cases h : file.bytes = [newline]
  · rw [if_pos (hempty.mpr h), if_pos h]
  · rw [if_neg (fun h' => h (hempty.mp h')), if_neg h, hread]
    have hnul : 0 ∉ dropNewline file.bytes := fun h0 => file.nulFree (mem_of_mem_dropNewline h0)
    apply exists_congr
    intro marker
    apply and_congr_right
    intro hmarker
    rw [strstr_iff hnul, infix_dropNewline_iff (markers_fit marker hmarker).2]

theorem uncut_iff (file : MapsFile) :
    (∃ buf ∈ pieces newline 511 file.bytes, ∃ marker ∈ markers, strstr buf marker = true) ↔
      ∃ marker ∈ markers, Uncut newline 511 (ascii marker) file.bytes := by
  have hbuf : ∀ buf ∈ pieces newline 511 file.bytes, 0 ∉ buf := fun buf hbuf h0 =>
    file.nulFree (mem_of_mem_pieces (by decide) hbuf h0)
  constructor
  · rintro ⟨buf, hmem, marker, hmarker, hfound⟩
    obtain ⟨hne, hnl⟩ := markers_fit marker hmarker
    refine ⟨marker, hmarker, (exists_mem_pieces_infix_iff (by decide) hne hnl _).mp ?_⟩
    exact ⟨buf, hmem, (strstr_iff (hbuf buf hmem) marker).mp hfound⟩
  · rintro ⟨marker, hmarker, huncut⟩
    obtain ⟨hne, hnl⟩ := markers_fit marker hmarker
    obtain ⟨buf, hmem, hinfix⟩ :=
      (exists_mem_pieces_infix_iff (by decide) hne hnl _).mpr huncut
    exact ⟨buf, hmem, marker, hmarker, (strstr_iff (hbuf buf hmem) marker).mpr hinfix⟩

theorem infix_of_uncut {word s : List UInt8} (h : Uncut newline 511 word s) : word <:+: s := by
  obtain ⟨before, pre, after, rfl, _⟩ := h
  exact ⟨before ++ pre, after, rfl⟩

theorem not_infix_newline : ∀ marker ∈ markers, ¬ ascii marker <:+: [newline] := by
  decide

theorem frameCheck_one_iff {file : MapsFile} {r : ℕ} (h : frameCheck (some file.bytes) = .ok r) :
    r = 1 ↔ ∃ marker ∈ markers, Uncut newline 511 (ascii marker) file.bytes := by
  rw [← uncut_iff]
  rw [frameCheck_eq] at h
  split at h
  · next hfound =>
    cases h
    exact iff_of_true rfl hfound
  · next hfound =>
    cases h
    exact iff_of_false zero_ne_one hfound

theorem agree_some_iff (file : MapsFile) (output : List UInt8) : Agree (some file) output ↔
    ((∃ marker ∈ markers, Uncut newline 511 (ascii marker) file.bytes) ↔
      if file.bytes = [newline] then ∃ marker ∈ markers, strstr (shellExecute output) marker = true
      else ∃ marker ∈ markers, ascii marker <:+: file.bytes) := by
  rw [← searched_iff, ← found_ne_iff]
  have hmap := checkHookByMap_eq file.bytes output
  constructor
  · rintro ⟨r, data, hr, hdata, hagree⟩
    rw [hmap] at hdata
    cases hdata
    rw [← frameCheck_one_iff hr]
    exact hagree
  · intro h
    obtain ⟨r, hr⟩ := frameCheck_returns file.bytes
    exact ⟨r, _, hr, hmap, (frameCheck_one_iff hr).trans h⟩

theorem scanners_agree_iff (maps : Option MapsFile) (output : List UInt8) :
    Agree maps output ↔ ∃ file, maps = some file ∧ file.Scannable output := by
  cases maps with
  | none =>
    refine iff_of_false ?_ ?_
    · rintro ⟨h, _⟩
      cases h
    · rintro ⟨file, h, _⟩
      cases h
  | some file =>
    simp only [Option.some.injEq, exists_eq_left', agree_some_iff]
    have huncut : (∃ marker ∈ markers, Uncut newline 511 (ascii marker) file.bytes) →
        ∃ marker ∈ markers, ascii marker <:+: file.bytes := by
      rintro ⟨marker, hmarker, h⟩
      exact ⟨marker, hmarker, infix_of_uncut h⟩
    by_cases hnl : file.bytes = [newline]
    · have hnone : ¬ ∃ marker ∈ markers, ascii marker <:+: file.bytes := by
        rintro ⟨marker, hmarker, h⟩
        rw [hnl] at h
        exact not_infix_newline marker hmarker h
      rw [if_pos hnl, iff_false_left (mt huncut hnone)]
      constructor
      · intro h
        refine ⟨fun hm => absurd hm hnone, fun _ marker hmarker => ?_⟩
        by_contra hfound
        exact h ⟨marker, hmarker, by simpa using hfound⟩
      · rintro ⟨_, hshell⟩ ⟨marker, hmarker, hfound⟩
        rw [hshell hnl marker hmarker] at hfound
        cases hfound
    · rw [if_neg hnl]
      constructor
      · intro h
        exact ⟨h.mpr, fun hm => absurd hm hnl⟩
      · rintro ⟨hwhole, _⟩
        exact ⟨huncut, hwhole⟩

theorem unreadable_disagree : ¬ Agree none [] := by
  rintro ⟨h, _⟩
  cases h

end HookScan

end EnvironmentCheck
