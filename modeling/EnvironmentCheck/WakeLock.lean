import EnvironmentCheck.Library.Transition
import Mathlib.Data.Int.Notation

namespace EnvironmentCheck

namespace WakeLock

open Transition

/-! The blocks of `withWakeLock` over one node, each a coroutine of its own. -/

inductive Outcome where
  | returned
  | threw
  | cancelled
  deriving DecidableEq

/-- Where one call of `withWakeLock` stands. Without a node in the context it only runs its
block. -/
inductive Phase where
  | waiting
  | entered
  | body
  | finishing (outcome : Outcome)
  | ended (outcome : Outcome)
  | unlocked
  | left (outcome : Outcome)
  deriving DecidableEq

/-- The acquire call was made. -/
def Phase.called : Phase → Bool
  | .body | .finishing _ | .ended _ => true
  | _ => false

/-- The release call was made. -/
def Phase.finished : Phase → Bool
  | .ended _ => true
  | _ => false

def Phase.idle : Phase → Bool
  | .waiting | .ended _ | .left _ => true
  | _ => false

theorem Phase.called_of_idle {phase : Phase} (h : phase.idle) : phase.called = phase.finished := by
  cases phase <;> first | rfl | cases h

theorem Phase.idle_of_finished {phase : Phase} (h : phase.finished) : phase.idle := by
  cases phase <;> first | rfl | cases h

variable {β : Type*}

/-- The lock's hold count, and the blocks by what became of their calls. -/
structure State (β : Type*) where
  count : ℤ
  phase : β → Phase
  acquired : List β
  failed : List β
  released : List β
  /-- Release was called on a lock that is not held. -/
  unheld : Bool

def start (n : ℕ) : State β where
  count := n
  phase := fun _ => .waiting
  acquired := []
  failed := []
  released := []
  unheld := false

inductive Event (β : Type*) where
  | enter (b : β) (hasNode : Bool)
  | acquire (b : β) (succeeds : Bool)
  | leave (b : β) (outcome : Outcome)
  | release (b : β)
  deriving DecidableEq

variable [DecidableEq β]

def State.goto (s : State β) (b : β) (phase : Phase) : State β :=
  { s with phase := Function.update s.phase b phase }

/-- What an acquire that throws leaves of the hold count is up to the platform. -/
def acquire (afterFailure : ℤ → ℤ) (s : State β) (b : β) (succeeds : Bool) : State β :=
  if succeeds then
    { s.goto b .body with
      count := s.count + 1
      acquired := s.acquired ++ [b] }
  else
    -- the exception leaves the guarded region, whose `finally` comes next
    { s.goto b (.finishing .threw) with
      count := afterFailure s.count
      failed := s.failed ++ [b] }

def release (s : State β) (b : β) (outcome : Outcome) : State β :=
  { s.goto b (.ended outcome) with
    count := s.count - 1
    released := s.released ++ [b]
    unheld := s.unheld || decide (s.count ≤ 0) }

/-- One step of the block that the event names. -/
def next (afterFailure : ℤ → ℤ) (s : State β) : Event β → Option (State β)
  | .enter b hasNode =>
    match s.phase b with
    | .waiting => some (s.goto b (if hasNode then .entered else .unlocked))
    | _ => none
  | .acquire b succeeds =>
    match s.phase b with
    | .entered => some (acquire afterFailure s b succeeds)
    | _ => none
  | .leave b outcome =>
    match s.phase b with
    | .body => some (s.goto b (.finishing outcome))
    | .unlocked => some (s.goto b (.left outcome))
    | _ => none
  | .release b =>
    match s.phase b with
    | .finishing outcome => some (release s b outcome)
    | _ => none

variable {afterFailure : ℤ → ℤ} {s t : State β} {e : Event β} {es : List (Event β)} {b : β} {n : ℕ}

/-- What a step can do. The first kind makes no call on the lock. -/
theorem next_cases (h : next afterFailure s e = some t) :
    (∃ b phase, t = s.goto b phase ∧ phase.called = (s.phase b).called ∧
      phase.finished = (s.phase b).finished ∧ (∀ c, e ≠ .acquire c false) ∧
        (∀ c, e ≠ .acquire c true) ∧ ∀ c, e ≠ .release c) ∨
    (∃ b, e = .acquire b true ∧ s.phase b = .entered ∧ t = acquire afterFailure s b true) ∨
    (∃ b, e = .acquire b false ∧ s.phase b = .entered ∧ t = acquire afterFailure s b false) ∨
    ∃ b outcome, e = .release b ∧ s.phase b = .finishing outcome ∧ t = release s b outcome := by
  cases e with
  | enter b hasNode =>
    simp only [next] at h
    split at h
    case h_1 heq =>
      refine Or.inl ⟨b, _, (Option.some.inj h).symm, ?_, ?_, by simp⟩ <;>
        cases hasNode <;> rw [heq] <;> rfl
    case h_2 => cases h
  | acquire b succeeds =>
    simp only [next] at h
    split at h
    case h_1 heq =>
      have ht := (Option.some.inj h).symm
      cases succeeds with
      | true => exact Or.inr (Or.inl ⟨b, rfl, heq, ht⟩)
      | false => exact Or.inr (Or.inr (Or.inl ⟨b, rfl, heq, ht⟩))
    case h_2 => cases h
  | leave b outcome =>
    simp only [next] at h
    split at h
    case h_1 heq =>
      refine Or.inl ⟨b, _, (Option.some.inj h).symm, ?_, ?_, by simp⟩ <;> rw [heq] <;> rfl
    case h_2 heq =>
      refine Or.inl ⟨b, _, (Option.some.inj h).symm, ?_, ?_, by simp⟩ <;> rw [heq] <;> rfl
    case h_3 => cases h
  | release b =>
    simp only [next] at h
    split at h
    case h_1 outcome heq =>
      exact Or.inr (Or.inr (Or.inr ⟨b, outcome, rfl, heq, (Option.some.inj h).symm⟩))
    case h_2 => cases h

theorem failed_next (h : next afterFailure s e = some t) :
    b ∈ t.failed ↔ b ∈ s.failed ∨ e = .acquire b false := by
  obtain ⟨c, phase, rfl, _, _, hf, _, _⟩ | ⟨c, rfl, _, rfl⟩ | ⟨c, rfl, _, rfl⟩ |
    ⟨c, outcome, rfl, _, rfl⟩ := next_cases h
  · simp [State.goto, hf b]
  · simp [acquire, State.goto]
  · simp [acquire, eq_comm]
  · simp [release, State.goto]

theorem released_next (h : next afterFailure s e = some t) :
    b ∈ t.released ↔ b ∈ s.released ∨ e = .release b := by
  obtain ⟨c, phase, rfl, _, _, _, _, hr⟩ | ⟨c, rfl, _, rfl⟩ | ⟨c, rfl, _, rfl⟩ |
    ⟨c, outcome, rfl, _, rfl⟩ := next_cases h
  · simp [State.goto, hr b]
  · simp [acquire, State.goto]
  · simp [acquire, State.goto]
  · simp [release, eq_comm]

theorem failed_run (h : run (next afterFailure) s es = some t) :
    b ∈ t.failed ↔ b ∈ s.failed ∨ .acquire b false ∈ es :=
  run_records (p := fun s => b ∈ s.failed) (fun _ _ _ hn => failed_next hn) h

theorem released_run (h : run (next afterFailure) s es = some t) :
    b ∈ t.released ↔ b ∈ s.released ∨ .release b ∈ es :=
  run_records (p := fun s => b ∈ s.released) (fun _ _ _ hn => released_next hn) h

/-! ### Every block makes each call once -/

structure Tracked (s : State β) (b : β) : Prop where
  called : s.acquired.count b + s.failed.count b = if (s.phase b).called then 1 else 0
  finished : s.released.count b = if (s.phase b).finished then 1 else 0

theorem tracked_start : Tracked (start n : State β) b := ⟨rfl, rfl⟩

theorem tracked_goto {phase : Phase} {c : β} (hb : Tracked s b)
    (hcalled : phase.called = (s.phase c).called)
    (hfinished : phase.finished = (s.phase c).finished) : Tracked (s.goto c phase) b := by
  by_cases hne : b = c
  · subst hne
    constructor
    · simpa [State.goto, hcalled] using hb.called
    · simpa [State.goto, hfinished] using hb.finished
  · constructor
    · simpa [State.goto, hne] using hb.called
    · simpa [State.goto, hne] using hb.finished

theorem tracked_acquire {c : β} (hb : Tracked s b) (hc : s.phase c = .entered) (succeeds : Bool) :
    Tracked (acquire afterFailure s c succeeds) b := by
  obtain ⟨hcalled, hfinished⟩ := hb
  by_cases hne : b = c
  · subst hne
    rw [hc] at hcalled hfinished
    constructor <;> cases succeeds <;>
      simp_all [acquire, State.goto, Phase.called, Phase.finished]
  · have hne' : c ≠ b := Ne.symm hne
    constructor <;> cases succeeds <;>
      simp_all [acquire, State.goto]

theorem tracked_release {c : β} {outcome : Outcome} (hb : Tracked s b)
    (hc : s.phase c = .finishing outcome) : Tracked (release s c outcome) b := by
  obtain ⟨hcalled, hfinished⟩ := hb
  by_cases hne : b = c
  · subst hne
    rw [hc] at hcalled hfinished
    constructor <;> simp_all [release, State.goto, Phase.called, Phase.finished]
  · have hne' : c ≠ b := Ne.symm hne
    constructor <;> simp_all [release, State.goto]

theorem tracked_next (hs : ∀ b, Tracked s b) (h : next afterFailure s e = some t) (b : β) :
    Tracked t b := by
  obtain ⟨c, phase, rfl, hcalled, hfinished, _⟩ | ⟨c, rfl, hc, rfl⟩ | ⟨c, rfl, hc, rfl⟩ |
    ⟨c, outcome, rfl, hc, rfl⟩ := next_cases h
  · exact tracked_goto (hs b) hcalled hfinished
  · exact tracked_acquire (hs b) hc true
  · exact tracked_acquire (hs b) hc false
  · exact tracked_release (hs b) hc

theorem tracked_run (hs : ∀ b, Tracked s b) (h : run (next afterFailure) s es = some t) :
    ∀ b, Tracked t b :=
  run_keeps (p := fun s => ∀ b, Tracked s b) (fun _ _ _ hs hn => tracked_next hs hn) hs h

theorem Tracked.not_failed (h : Tracked s b) (hb : b ∈ s.acquired) : b ∉ s.failed := by
  intro hf
  have ha := List.one_le_count_iff.mpr hb
  have hf := List.one_le_count_iff.mpr hf
  have hcalled := h.called
  split at hcalled <;> omega

/-! ### The balance -/

/-- Release was called once for each ended block that acquired, and never for another. -/
structure Balanced (n : ℕ) (s : State β) : Prop where
  paired : ∀ b, s.released.count b = if b ∈ s.acquired ∧ (s.phase b).idle then 1 else 0
  settled : (∀ b, (s.phase b).idle) → s.count = n
  held : s.unheld = false

/-- What stands behind the balance as long as no failed block has come to its release. -/
structure Sound (n : ℕ) (s : State β) : Prop where
  tracked : ∀ b, Tracked s b
  paired : s.released ⊆ s.acquired
  held : s.unheld = false
  enough : n + s.acquired.length ≤ s.count + s.released.length
  settled : s.failed = [] → s.count + s.released.length = n + s.acquired.length

theorem sound_start : Sound n (start n : State β) where
  tracked _ := tracked_start
  paired := List.Subset.refl _
  held := rfl
  enough := Int.le_refl _
  settled _ := rfl

theorem Sound.released_nodup (h : Sound n s) : s.released.Nodup := by
  refine List.nodup_iff_count.mpr fun b => ?_
  rw [(h.tracked b).finished]
  split <;> omega

theorem sound_acquire (hkeeps : ∀ c, c ≤ afterFailure c) (h : Sound n s)
    (hb : s.phase b = .entered) (succeeds : Bool) :
    Sound n (acquire afterFailure s b succeeds) := by
  obtain ⟨htracked, hpaired, hheld, henough, hsettled⟩ := h
  have htracked' : ∀ c, Tracked (acquire afterFailure s b succeeds) c :=
    fun c => tracked_acquire (htracked c) hb succeeds
  cases succeeds with
  | true =>
    refine ⟨htracked', List.subset_append_of_subset_left _ hpaired, hheld, ?_, ?_⟩
    · simp only [acquire, if_true, State.goto, List.length_append, List.length_singleton]
      omega
    · intro hf
      have hs := hsettled hf
      simp only [acquire, if_true, State.goto, List.length_append, List.length_singleton]
      omega
  | false =>
    refine ⟨htracked', hpaired, hheld, Int.le_trans henough ?_, fun hf => by simp [acquire] at hf⟩
    exact Int.add_le_add_right (hkeeps s.count) _

theorem sound_release {outcome : Outcome} (h : Sound n s) (hb : s.phase b = .finishing outcome)
    (hf : b ∉ s.failed) : Sound n (release s b outcome) := by
  have hcalled := (h.tracked b).called
  have hfinished := (h.tracked b).finished
  rw [hb] at hcalled hfinished
  have hacquired : b ∈ s.acquired := by
    rw [List.count_eq_zero.mpr hf] at hcalled
    exact List.count_pos_iff.mp (by simp [Phase.called] at hcalled; omega)
  have hnew : b ∉ s.released := List.count_eq_zero.mp hfinished
  -- the block's own hold has not been given back yet
  have hless : s.released.length + 1 ≤ s.acquired.length := by
    have hnodup : (b :: s.released).Nodup := List.nodup_cons.mpr ⟨hnew, h.released_nodup⟩
    have hsubset : b :: s.released ⊆ s.acquired := List.cons_subset.mpr ⟨hacquired, h.paired⟩
    exact hnodup.length_le_of_subset hsubset
  have henough := h.enough
  refine ⟨fun c => tracked_release (h.tracked c) hb, ?_, ?_, ?_, fun hnone => ?_⟩
  · exact List.append_subset.mpr ⟨h.paired, List.cons_subset.mpr ⟨hacquired, List.nil_subset _⟩⟩
  · have hpos : ¬ s.count ≤ 0 := by omega
    simp [release, h.held, hpos]
  · simp only [release, State.goto, List.length_append, List.length_singleton]
    omega
  · have hs := h.settled hnone
    simp only [release, State.goto, List.length_append, List.length_singleton]
    omega

theorem sound_next (hkeeps : ∀ c, c ≤ afterFailure c) (hs : Sound n s)
    (h : next afterFailure s e = some t) (hc : ∀ b, e = .release b → b ∉ s.failed) :
    Sound n t := by
  obtain ⟨b, phase, rfl, hcalled, hfinished, _⟩ | ⟨b, rfl, hb, rfl⟩ | ⟨b, rfl, hb, rfl⟩ |
    ⟨b, outcome, rfl, hb, rfl⟩ := next_cases h
  · exact ⟨fun c => tracked_goto (hs.tracked c) hcalled hfinished, hs.paired, hs.held, hs.enough,
      hs.settled⟩
  · exact sound_acquire hkeeps hs hb true
  · exact sound_acquire hkeeps hs hb false
  · exact sound_release hs hb (hc b rfl)

theorem sound_run (hkeeps : ∀ c, c ≤ afterFailure c)
    (h : run (next afterFailure) (start n) es = some s)
    (hc : ∀ b, .acquire b false ∈ es → .release b ∉ es) : Sound n s := by
  induction es using List.reverseRecOn generalizing s with
  | nil =>
    cases h
    exact sound_start
  | append_singleton es e ih =>
    obtain ⟨u, hu, hnext⟩ := run_snoc_iff.mp h
    have hsu := ih hu fun b hb hr => hc b (List.mem_append_left _ hb) (List.mem_append_left _ hr)
    refine sound_next hkeeps hsu hnext ?_
    rintro b rfl hb
    have hfailed := (failed_run hu).mp hb
    simp only [start, List.not_mem_nil, false_or] at hfailed
    exact hc b (List.mem_append_left _ hfailed) (by simp)

theorem Tracked.finished_iff (h : Tracked s b) : b ∈ s.released ↔ (s.phase b).finished := by
  rw [← List.one_le_count_iff, h.finished]
  split <;> simp_all

theorem Tracked.called_iff (h : Tracked s b) :
    b ∈ s.acquired ∨ b ∈ s.failed ↔ (s.phase b).called := by
  have hcalled := h.called
  rw [← List.one_le_count_iff, ← List.one_le_count_iff]
  split at hcalled
  case isTrue hphase => exact iff_of_true (by omega) hphase
  case isFalse hphase => exact iff_of_false (by omega) hphase

theorem Tracked.released_of_idle (h : Tracked s b) (hb : (s.phase b).idle)
    (hcalled : b ∈ s.acquired ∨ b ∈ s.failed) : b ∈ s.released := by
  rw [h.finished_iff, ← Phase.called_of_idle hb, ← h.called_iff]
  exact hcalled

theorem Sound.not_failed (h : Sound n s) (hb : (s.phase b).idle) : b ∉ s.failed := by
  intro hf
  have hreleased := (h.tracked b).released_of_idle hb (Or.inr hf)
  exact (h.tracked b).not_failed (h.paired hreleased) hf

theorem Sound.paired_once (h : Sound n s) (b : β) :
    s.released.count b = if b ∈ s.acquired ∧ (s.phase b).idle then 1 else 0 := by
  have hiff : b ∈ s.released ↔ b ∈ s.acquired ∧ (s.phase b).idle := by
    constructor
    · intro hb
      exact ⟨h.paired hb, Phase.idle_of_finished ((h.tracked b).finished_iff.mp hb)⟩
    · rintro ⟨hb, hidle⟩
      exact (h.tracked b).released_of_idle hidle (Or.inl hb)
  rw [(h.tracked b).finished]
  exact if_congr ((h.tracked b).finished_iff.symm.trans hiff) rfl rfl

theorem Sound.balanced (h : Sound n s) : Balanced n s := by
  refine ⟨h.paired_once, fun hidle => ?_, h.held⟩
  have hnone : s.failed = [] := List.eq_nil_iff_forall_not_mem.mpr fun b => h.not_failed (hidle b)
  have hperm : s.released.Perm s.acquired := by
    refine List.perm_iff_count.mpr fun b => ?_
    have hcalled := (h.tracked b).called
    rw [hnone, List.count_nil, Nat.add_zero, Phase.called_of_idle (hidle b)] at hcalled
    rw [hcalled, (h.tracked b).finished]
  have hs := h.settled hnone
  rw [hperm.length_eq] at hs
  omega

/-- A block whose acquire call failed has come to its release: then that release has no acquire. -/
theorem not_balanced (hs : Tracked s b) (hf : b ∈ s.failed) (hr : b ∈ s.released) :
    ¬ Balanced n s := by
  intro h
  have hpaired := h.paired b
  rw [hs.finished, if_pos (hs.finished_iff.mp hr)] at hpaired
  split at hpaired
  case isTrue hb => exact hs.not_failed hb.1 hf
  case isFalse => cases hpaired

theorem wakeLock_balanced_iff (afterFailure : ℤ → ℤ) (hkeeps : ∀ c, c ≤ afterFailure c) (n : ℕ)
    (es : List (Event β)) (s : State β) (h : run (next afterFailure) (start n) es = some s) :
    (Always (next afterFailure) (Balanced n) (start n) es ↔
      ∀ b, .acquire b false ∈ es → .release b ∉ es) ∧
    ((∀ b, (s.phase b).idle) →
      (Always (next afterFailure) (Balanced n) (start n) es ↔ ∀ b, .acquire b false ∉ es)) := by
  have htracked : ∀ b, Tracked s b := tracked_run (fun _ => tracked_start) h
  have hfailed : ∀ b, b ∈ s.failed ↔ .acquire b false ∈ es := by
    intro b
    rw [failed_run h]
    simp [start]
  have hreleased : ∀ b, b ∈ s.released ↔ .release b ∈ es := by
    intro b
    rw [released_run h]
    simp [start]
  have hiff : Always (next afterFailure) (Balanced n) (start n) es ↔
      ∀ b, .acquire b false ∈ es → .release b ∉ es := by
    constructor
    · intro hall b hf hr
      have hbalanced := hall es (List.prefix_refl es) s h
      exact not_balanced (htracked b) ((hfailed b).mpr hf) ((hreleased b).mpr hr) hbalanced
    · intro hc front hfront u hu
      refine (sound_run hkeeps hu fun b hf hr => ?_).balanced
      exact hc b (hfront.subset hf) (hfront.subset hr)
  refine ⟨hiff, fun hidle => hiff.trans ?_⟩
  constructor
  · intro hc b hf
    have hb := (htracked b).released_of_idle (hidle b) (Or.inr ((hfailed b).mpr hf))
    exact hc b hf ((hreleased b).mp hb)
  · intro hc b hf
    exact absurd hf (hc b)

/-- An outer block is cancelled while one nested in it and another one run. -/
theorem wakeLock_balanced_nested :
    Always (next fun c => c + 1) (Balanced 0) (start 0)
      [.enter 0 true, .acquire 0 true, .enter 1 true, .acquire 1 true, .enter 2 true,
        .leave 1 .cancelled, .acquire 2 true, .release 1, .leave 0 .cancelled, .release 0,
        .leave 2 .returned, .release (2 : ℕ)] := by
  refine (wakeLock_balanced_iff (fun c => c + 1) (by omega) 0 _ _ rfl).1.mpr ?_
  simp

/-- The platform counts an acquire before it fails. -/
theorem wakeLock_unbalanced :
    ∃ s, run (next fun c => c + 1) (start 0)
        [.enter 0 true, .acquire 0 false, .release (0 : ℕ)] = some s ∧
      (∀ b, (s.phase b).idle) ∧ s.acquired = [] ∧ s.released = [0] ∧ ¬ Balanced 0 s := by
  refine ⟨_, rfl, ?_, rfl, rfl, ?_⟩
  · intro b
    by_cases hb : b = 0 <;> simp [release, acquire, State.goto, start, hb, Phase.idle]
  · intro h
    have hpaired := h.paired 0
    simp [release, acquire, State.goto, start] at hpaired

end WakeLock

end EnvironmentCheck
