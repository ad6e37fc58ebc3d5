import EnvironmentCheck.Library.Transition
import EnvironmentCheck.TracerPid

namespace EnvironmentCheck

namespace TracerPidRuns

open TracerPid Transition

structure Pid where
  number : ℕ
  pos : 0 < number
  lt : number < 2 ^ 31

inductive Tracer where
  | parent
  | outside (pid : Pid)

/-- What the kernel knows of the process. -/
structure Process where
  parentPid : Pid
  tracer : Option Tracer

def fresh (parentPid : Pid) : Process :=
  ⟨parentPid, none⟩

def Process.tracerNumber (s : Process) : ℕ :=
  match s.tracer with
  | none => 0
  | some .parent => s.parentPid.number
  | some (.outside pid) => pid.number

def Process.OutsideAttached (s : Process) : Prop :=
  ∃ pid, s.tracer = some (.outside pid)

theorem tracerNumber_lt (s : Process) : s.tracerNumber < 2 ^ 31 := by
  unfold Process.tracerNumber
  split
  · decide
  · exact s.parentPid.lt
  · next pid _ => exact pid.lt

/-- `/proc/self/status`, with the other lines that it has at the time. -/
def Process.status (s : Process) (before after : List StatusLine) : Status :=
  ⟨before, s.tracerNumber, tracerNumber_lt s, after⟩

/-! ### Steps -/

/-- `ptrace(PTRACE_TRACEME)` -/
def traceMe (s : Process) : ℤ × Process :=
  match s.tracer with
  | none => (0, { s with tracer := some .parent })
  | some _ => (-1, s)

-- the result is only logged
def ptraceCheck (s : Process) : Process :=
  (traceMe s).2

inductive Outside where
  | attach (pid : Pid)
  | detach

/-- An outside tracer attaches to a process that nobody traces, or fails. -/
def act (s : Process) : Outside → Process
  | .attach pid =>
    match s.tracer with
    | none => { s with tracer := some (.outside pid) }
    | some _ => s
  | .detach =>
    match s.tracer with
    | some (.outside _) => { s with tracer := none }
    | _ => s

/-- A native call makes its request, and reads the file after what happens meanwhile. -/
inductive Event where
  | outside (action : Outside)
  | nativeReadTracerPid (meanwhile : List Outside) (before after : List StatusLine)
  | isReadTracerPid (before after : List StatusLine)

def next (s : Process) : Event → Option Process
  | .outside action => some (act s action)
  | .nativeReadTracerPid meanwhile _ _ => some (meanwhile.foldl act (ptraceCheck s))
  | .isReadTracerPid _ _ => some s

/-- A call returns true exactly where an outside tracer is attached when it reads the file. -/
def Right (java : JavaText) (s : Process) : Event → Prop
  | .outside _ => True
  | .nativeReadTracerPid meanwhile before after =>
    let reading := meanwhile.foldl act (ptraceCheck s)
    nativeReadTracerPid (some (reading.status before after).content) = true ↔
      reading.OutsideAttached
  | .isReadTracerPid before after =>
    isReadTracerPid java (some (s.status before after).content) = true ↔ s.OutsideAttached

/-- A native call finds an outside tracer, and the Kotlin one reads the line of the tracer. -/
def Sound (java : JavaText) (s : Process) : Event → Prop
  | .outside _ => True
  | .nativeReadTracerPid _ _ _ => s.OutsideAttached
  | .isReadTracerPid before after => (s.status before after).Unhidden java

/-! ### What a step does to the tracer -/

/-- The process did not ask its parent to trace it. -/
def NotSelfTraced (s : Process) : Prop :=
  s.tracer ≠ some .parent

theorem notSelfTraced_act {s : Process} (h : NotSelfTraced s) (action : Outside) :
    NotSelfTraced (act s action) := by
  cases action with
  | attach pid =>
    unfold act
    dsimp only
    split
    · rintro ⟨⟩
    · exact h
  | detach =>
    unfold act
    dsimp only
    split
    · rintro ⟨⟩
    · exact h

theorem notSelfTraced_foldl {s : Process} (h : NotSelfTraced s) (actions : List Outside) :
    NotSelfTraced (actions.foldl act s) := by
  induction actions generalizing s with
  | nil => exact h
  | cons action actions ih => exact ih (notSelfTraced_act h action)

theorem act_of_parent {s : Process} (h : s.tracer = some .parent) (action : Outside) :
    act s action = s := by
  cases action with
  | attach pid => simp only [act, h]
  | detach => simp only [act, h]

theorem foldl_of_parent {s : Process} (h : s.tracer = some .parent) (actions : List Outside) :
    actions.foldl act s = s := by
  induction actions with
  | nil => rfl
  | cons action actions ih => rw [List.foldl_cons, act_of_parent h, ih]

theorem ptraceCheck_of_none {s : Process} (h : s.tracer = none) :
    ptraceCheck s = { s with tracer := some .parent } := by
  simp only [ptraceCheck, traceMe, h]

theorem ptraceCheck_of_outside {s : Process} (h : s.OutsideAttached) : ptraceCheck s = s := by
  obtain ⟨pid, h⟩ := h
  simp only [ptraceCheck, traceMe, h]

theorem tracerNumber_pos {s : Process} {tracer : Tracer} (h : s.tracer = some tracer) :
    s.tracerNumber ≠ 0 := by
  cases tracer with
  | parent =>
    simp only [Process.tracerNumber, h]
    exact s.parentPid.pos.ne'
  | outside pid =>
    simp only [Process.tracerNumber, h]
    exact pid.pos.ne'

/-- Where the process did not ask for a tracer, the number tells of an outside one. -/
theorem tracerNumber_ne_zero_iff {s : Process} (h : NotSelfTraced s) :
    s.tracerNumber ≠ 0 ↔ s.OutsideAttached := by
  constructor
  · intro hne
    match htracer : s.tracer with
    | none => exact absurd (by simp only [Process.tracerNumber, htracer]) hne
    | some .parent => exact absurd htracer h
    | some (.outside pid) => exact ⟨pid, htracer⟩
  · rintro ⟨pid, htracer⟩
    exact tracerNumber_pos htracer

/-! ### Runs -/

variable {java : JavaText}

/-- A native call that finds no tracer makes the parent one, and reads its number. -/
theorem not_right_of_untraced {s : Process} (h : s.tracer = none) (meanwhile : List Outside)
    (before after : List StatusLine) :
    ¬ Right java s (.nativeReadTracerPid meanwhile before after) := by
  intro hright
  have hparent : (meanwhile.foldl act (ptraceCheck s)).tracer = some .parent := by
    rw [ptraceCheck_of_none h, foldl_of_parent rfl]
  rw [Right, nativeReadTracerPid_content, decide_eq_true_eq] at hright
  obtain ⟨pid, hpid⟩ := hright.mp (tracerNumber_pos hparent)
  rw [hparent] at hpid
  cases hpid

theorem right_iff_sound {s : Process} (h : NotSelfTraced s) (e : Event) :
    Right java s e ↔ Sound java s e := by
  cases e with
  | outside action => exact Iff.rfl
  | nativeReadTracerPid meanwhile before after =>
    constructor
    · intro hright
      match htracer : s.tracer with
      | none => exact absurd hright (not_right_of_untraced htracer meanwhile before after)
      | some .parent => exact absurd htracer h
      | some (.outside pid) => exact ⟨pid, htracer⟩
    · intro hattached
      rw [Right, ptraceCheck_of_outside hattached, nativeReadTracerPid_content, decide_eq_true_eq]
      exact tracerNumber_ne_zero_iff (notSelfTraced_foldl h meanwhile)
  | isReadTracerPid before after =>
    have hread : isReadTracerPid java (some (s.status before after).content) =
        decide (s.tracerNumber ≠ 0) ↔ (s.status before after).Unhidden java :=
      isReadTracerPid_iff (s.status before after)
    have hbool (b : Bool) :
        (b = true ↔ s.tracerNumber ≠ 0) ↔ b = decide (s.tracerNumber ≠ 0) := by
      cases b <;> simp
    rw [Right, Sound, ← hread, ← tracerNumber_ne_zero_iff h]
    exact hbool _

theorem notSelfTraced_next {s t : Process} {e : Event} (h : NotSelfTraced s)
    (hsound : Sound java s e) (ht : next s e = some t) : NotSelfTraced t := by
  cases e with
  | outside action =>
    cases ht
    exact notSelfTraced_act h action
  | nativeReadTracerPid meanwhile before after =>
    cases ht
    rw [ptraceCheck_of_outside hsound]
    exact notSelfTraced_foldl h meanwhile
  | isReadTracerPid before after =>
    cases ht
    exact h

theorem calls_right_iff (java : JavaText) (parentPid : Pid) (es : List Event) :
    Meets next (Right java) (fresh parentPid) es ↔
      Meets next (Sound java) (fresh parentPid) es := by
  have hfresh : NotSelfTraced (fresh parentPid) := by
    rintro ⟨⟩
  refine meets_congr NotSelfTraced ?_ (fun s e h => right_iff_sound h e) hfresh
  intro s e t h hright ht
  exact notSelfTraced_next h ((right_iff_sound h e).mp hright) ht

theorem first_call_wrong :
    ¬ ∀ parentPid es, Meets next (Right asciiText) (fresh parentPid) es := by
  intro h
  have hright := (h ⟨1, by decide, by decide⟩ [.nativeReadTracerPid [] [] []]).1
  exact not_right_of_untraced rfl [] [] [] hright

end TracerPidRuns

end EnvironmentCheck
