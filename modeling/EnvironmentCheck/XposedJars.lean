import EnvironmentCheck.CaseMapping
import EnvironmentCheck.Library.LineReading
import Mathlib.Data.List.DropRight

namespace EnvironmentCheck

namespace XposedJars

open LineReading

structure Beans where
  isCheckXposedJars : Bool
  isCheckSubstrateJars : Bool
  isCheckFridaJars : Bool
  deriving DecidableEq

structure State where
  beans : Beans
  libraries : List (List Char)
  logged : List (List Char)

structure NullPointerException where

abbrev Action := EStateM NullPointerException State

/-- The check that Kotlin makes where `it`, which may be null, is stored in a `String`. -/
def assign : Option (List Char) → Action (List Char)
  | none => throw {}
  | some line => pure line

def EndsLikeLibrary (line : List Char) : Prop :=
  ".so".toList <:+ line ∨ ".jar".toList <:+ line

instance (line : List Char) : Decidable (EndsLikeLibrary line) :=
  inferInstanceAs (Decidable (_ ∨ _))

/-- What follows the last blank of a line. -/
def library (line : List Char) : List Char :=
  line.rtakeWhile (· ≠ ' ')

def hasFrida (fold : Char → Char) (locale : Locale) (line : List Char) : Prop :=
  "frida".toList <:+: lowercase fold locale line

instance (fold : Char → Char) (locale : Locale) (line : List Char) :
    Decidable (hasFrida fold locale line) :=
  inferInstanceAs (Decidable (_ <:+: _))

def visit (fold : Char → Char) (locale : Locale) (line : List Char) (s : State) : State :=
  { s with
    beans := if hasFrida fold locale line then { s.beans with isCheckFridaJars := true }
      else s.beans
    libraries := if EndsLikeLibrary line then s.libraries.insert (library line)
      else s.libraries }

-- the loop's condition comes after the assignment, which the end of the file does not pass
def readLoop (fold : Char → Char) (locale : Locale) : List (List Char) → Action Unit
  | [] => do
    let _ ← assign none
    pure ()
  | next :: rest => do
    let line ← assign (some next)
    modify (visit fold locale line)
    readLoop fold locale rest

def classify (beans : Beans) (library : List Char) : Beans :=
  let beans := if "com.saurik.substrate".toList <:+: library then
    { beans with isCheckSubstrateJars := true } else beans
  if "XposedBridge.jar".toList <:+: library then
    { beans with isCheckXposedJars := true } else beans

/-- `CheckHook.chargeXposedJars` where the file has this content. -/
def chargeXposedJars (fold : Char → Char) (locale : Locale) (content : List Char) :
    Action Unit := do
  tryCatch
    (do
      readLoop fold locale (readLines '\n' '\r' content)
      modify fun s => { s with beans := s.libraries.foldl classify s.beans })
    fun _ => pure ()
  modify fun s => { s with logged := s.libraries }

def fresh : State := ⟨⟨false, false, false⟩, [], []⟩

def Names (word : String) (content : List Char) : Prop :=
  ∃ line ∈ readLines '\n' '\r' content,
    EndsLikeLibrary line ∧ word.toList <:+: library line

/-- The call ends, and each flag is set exactly where a line of the file asks for it. -/
def ChargesRight (fold : Char → Char) (locale : Locale) (content : List Char) : Prop :=
  ∃ s, chargeXposedJars fold locale content fresh = .ok () s ∧
    (s.beans.isCheckXposedJars = true ↔ Names "XposedBridge.jar" content) ∧
    (s.beans.isCheckSubstrateJars = true ↔ Names "com.saurik.substrate" content) ∧
    (s.beans.isCheckFridaJars = true ↔
      ∃ line ∈ readLines '\n' '\r' content, hasFrida fold locale line)

variable {fold : Char → Char} {locale : Locale}

/-- The loop never comes to its end. -/
theorem readLoop_throws (lines : List (List Char)) (s : State) :
    readLoop fold locale lines s =
      .error {} (lines.foldl (fun s line => visit fold locale line s) s) := by
  induction lines generalizing s with
  | nil => rfl
  | cons line lines ih => exact ih (visit fold locale line s)

theorem visitAll_beans (lines : List (List Char)) (s : State) :
    (lines.foldl (fun s line => visit fold locale line s) s).beans = { s.beans with
      isCheckFridaJars := s.beans.isCheckFridaJars ||
        decide (∃ line ∈ lines, hasFrida fold locale line) } := by
  induction lines generalizing s with
  | nil => simp
  | cons line lines ih =>
    rw [List.foldl_cons, ih]
    by_cases h : hasFrida fold locale line
    · simp [visit, h]
    · simp [visit, h]

theorem chargeXposedJars_ends (content : List Char) (s : State) :
    ∃ t, chargeXposedJars fold locale content s = .ok () t ∧
      t.beans = ((readLines '\n' '\r' content).foldl
        (fun s line => visit fold locale line s) s).beans := by
  have hloop := @readLoop_throws fold locale (readLines '\n' '\r' content) s
  change ∃ t, EStateM.bind (EStateM.tryCatch
    (EStateM.bind (readLoop fold locale (readLines '\n' '\r' content)) _) _) _ s = _ ∧ _
  simp only [EStateM.bind, EStateM.tryCatch, hloop]
  exact ⟨_, rfl, rfl⟩

theorem chargeXposedJars_right_iff (fold : Char → Char) (locale : Locale) (content : List Char) :
    ChargesRight fold locale content ↔
      ¬ Names "XposedBridge.jar" content ∧ ¬ Names "com.saurik.substrate" content := by
  obtain ⟨s, hrun, hbeans⟩ := @chargeXposedJars_ends fold locale content fresh
  rw [visitAll_beans] at hbeans
  rw [ChargesRight, hrun]
  simp [hbeans, fresh]

theorem xposedBridge_unseen :
    ¬ ChargesRight Char.toLower ⟨"en"⟩ "7f00 r-xp /system/framework/XposedBridge.jar".toList := by
  have hnames : Names "XposedBridge.jar" "7f00 r-xp /system/framework/XposedBridge.jar".toList :=
    ⟨"7f00 r-xp /system/framework/XposedBridge.jar".toList, by decide⟩
  obtain ⟨s, hrun, hbeans⟩ := @chargeXposedJars_ends Char.toLower ⟨"en"⟩
    "7f00 r-xp /system/framework/XposedBridge.jar".toList fresh
  rw [visitAll_beans] at hbeans
  rintro ⟨t, hrun', hright, _⟩
  rw [hrun] at hrun'
  cases hrun'
  have hflag := hright.mpr hnames
  rw [hbeans] at hflag
  cases hflag

end XposedJars

end EnvironmentCheck
