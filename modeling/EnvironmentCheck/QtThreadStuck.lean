import EnvironmentCheck.QtThreadTasks

namespace EnvironmentCheck.QtThread

open Transition

/-- `exit()` waits in `join` for a loop that waits for a notification, and no call is left that would
give one; or a caller of `run` waits for a thread that has ended. -/
def Stuck (s : QtThread) : Prop :=
  s.exitCall = .joining ∧ s.qtThread = .waiting ∧ (∀ c ∈ s.clients, c.hasAdded = true) ∨
    s.qtThread = .ended ∧ .acquiring 0 ∈ s.clients

instance (s : QtThread) : Decidable s.Stuck := inferInstanceAs (Decidable (_ ∧ _ ∧ _ ∨ _ ∧ _))

/-- The loop does not start to wait once `exit()` has given its notification, unless a call is to
add a runnable, and does not end while a runnable of `run` is pending; `run` adds none to a thread
that has ended. The last notification goes to a loop that waits. -/
def Awaited (s : QtThread) : QtThreadStep → Prop
  | .loop =>
    (s.qtThread = .entering → s.pendingRunnables = [] → s.exitCall = .joining →
      ¬ ∀ c ∈ s.clients, c.hasAdded = true) ∧
    (s.qtThread = .test → s.exit = true → ∀ r ∈ s.pendingRunnables, r.semaphore = false)
  | .add call toJoin =>
    (s.qtThread = .ended → s.clients[call]? ≠ some .running) ∧
    (s.qtThread = .waiting → toJoin = true →
      ¬ ∀ c ∈ s.clients.set call .returned, c.hasAdded = true)
  | _ => True

instance (s : QtThread) (step : QtThreadStep) : Decidable (s.Awaited step) :=
  match step with
  | .loop => inferInstanceAs (Decidable ((_ → _ → _ → ¬ _) ∧ (_ → _ → _)))
  | .add _ _ => inferInstanceAs (Decidable ((_ → _) ∧ (_ → _ → ¬ _)))
  | .callPost | .callRun | .acquire _ | .callExit | .setExit | .notifyExit | .joined | .wake =>
    .isTrue trivial

variable {s t : QtThread} {i : ℕ} {c : ClientPoint} {r : Runnable} {toJoin : Bool}
  {step : QtThreadStep} {steps : List QtThreadStep}

theorem not_stuck_of_moving (hwaiting : t.qtThread ≠ .waiting) (hended : t.qtThread ≠ .ended) :
    ¬ t.Stuck := by
  rintro (⟨-, hp, -⟩ | ⟨hp, -⟩)
  · exact hwaiting hp
  · exact hended hp

theorem not_stuck_of_exit (hs : ¬ s.Stuck) (hp : t.qtThread = .ended → s.qtThread = .ended)
    (hclients : t.clients = s.clients) (hexit : t.exitCall = .joining → t.qtThread ≠ .waiting) :
    ¬ t.Stuck := by
  rintro (⟨hcall, hp', -⟩ | ⟨hended, hmem⟩)
  · exact hexit hcall hp'
  · rw [hclients] at hmem
    exact hs (.inr ⟨hp hended, hmem⟩)

theorem call_not_stuck (hs : ¬ s.Stuck) (hc : c = .posting ∨ c = .running) :
    ¬ Stuck { s with clients := s.clients ++ [c] } := by
  rintro (⟨-, -, hall⟩ | ⟨hended, hmem⟩)
  · have hadded := hall c (List.mem_append_right _ (List.mem_singleton_self c))
    obtain rfl | rfl := hc <;> cases hadded
  · obtain hmem | hmem := List.mem_append.mp hmem
    · exact hs (.inr ⟨hended, hmem⟩)
    · obtain rfl := List.mem_singleton.mp hmem
      obtain hc | hc := hc <;> cases hc

theorem acquire_not_stuck (hs : ¬ s.Stuck) {permits : ℕ}
    (hc : s.clients[i]? = some (.acquiring (permits + 1))) :
    ¬ Stuck { s with clients := s.clients.set i .returned } := by
  rintro (⟨hcall, hp, hall⟩ | ⟨hended, hmem⟩)
  · apply hs
    refine .inl ⟨hcall, hp, fun c hmem => ?_⟩
    obtain ⟨j, hj⟩ := List.getElem?_of_mem hmem
    by_cases hij : i = j
    · subst hij
      cases hc.symm.trans hj
      rfl
    · apply hall
      apply @List.mem_of_getElem? _ _ j
      rw [List.getElem?_set_ne hij, hj]
  · obtain hmem | heq := List.mem_or_eq_of_mem_set hmem
    · exact hs (.inr ⟨hended, hmem⟩)
    · cases heq

theorem add_waiting (hs : (s.add r c toJoin).qtThread = .waiting) :
    s.qtThread = .waiting ∧ toJoin = true := by
  cases toJoin with
  | true => exact ⟨hs, rfl⟩
  | false => exact absurd hs (LoopPoint.notify_ne_waiting _)

theorem hasAdded_set (c : ClientPoint) (hc : c.hasAdded = true) :
    (∀ c' ∈ s.clients.set i c, c'.hasAdded = true) ↔
      ∀ c' ∈ s.clients.set i .returned, c'.hasAdded = true := by
  have himp : ∀ d e : ClientPoint, e.hasAdded = true →
      (∀ c' ∈ s.clients.set i d, c'.hasAdded = true) →
        ∀ c' ∈ s.clients.set i e, c'.hasAdded = true := by
    intro d e he hall c' hmem
    obtain ⟨j, hj⟩ := List.getElem?_of_mem hmem
    by_cases hij : i = j
    · subst hij
      rw [List.getElem?_set_self'] at hj
      obtain ⟨-, -, rfl⟩ := Option.map_eq_some_iff.mp hj
      exact he
    · apply hall
      apply @List.mem_of_getElem? _ _ j
      rwa [List.getElem?_set_ne hij] at hj ⊢
  exact ⟨himp c .returned rfl, himp .returned c hc⟩

theorem add_stuck_iff (hs : ¬ s.Stuck) (hjoin : toJoin = true → s.exitCall = .joining)
    (hlt : r.call < s.clients.length) (hc : c.hasAdded = true) :
    ¬ (s.add r c toJoin).Stuck ↔
      (s.qtThread = .ended → c ≠ .acquiring 0) ∧
        (s.qtThread = .waiting → toJoin = true →
          ¬ ∀ c' ∈ s.clients.set r.call .returned, c'.hasAdded = true) := by
  constructor
  · intro hnot
    refine ⟨fun hended hacquiring => hnot (.inr ⟨add_ended.mpr hended, ?_⟩), ?_⟩
    · change _ ∈ s.clients.set r.call c
      rw [hacquiring]
      exact List.mem_set hlt _
    · rintro hwaiting rfl hall
      exact hnot (.inl ⟨hjoin rfl, hwaiting, (hasAdded_set c hc).mpr hall⟩)
  · rintro ⟨hended, hwaiting⟩ (⟨-, hp, hall⟩ | ⟨hp, hmem⟩)
    · obtain ⟨hp, hto⟩ := add_waiting hp
      exact hwaiting hp hto ((hasAdded_set c hc).mp hall)
    · have hp := add_ended.mp hp
      obtain hmem | heq := List.mem_or_eq_of_mem_set hmem
      · exact hs (.inr ⟨hp, hmem⟩)
      · exact hended hp heq.symm

theorem Inv.acquiring_iff (hi : s.Inv) (hs : s.qtThread = .test) :
    .acquiring 0 ∉ s.clients ↔ ∀ r ∈ s.pendingRunnables, r.semaphore = false := by
  have hacquiring := hi.acquiring
  rw [hs] at hacquiring
  constructor
  · intro hnot r hr
    cases hsem : r.semaphore with
    | false => rfl
    | true =>
      have heq : (⟨r.call, true⟩ : Runnable) = r := by rw [← hsem]
      exact absurd (List.mem_of_getElem? ((hacquiring r.call).mpr (heq ▸ hr))) hnot
  · intro hall hmem
    obtain ⟨i, hi'⟩ := List.getElem?_of_mem hmem
    cases hall _ ((hacquiring i).mp hi')

theorem Inv.test_stuck_iff (hi : s.Inv) (hp : s.qtThread = .test) :
    ¬ Stuck { s with qtThread := if s.exit = true then .ended else .entering } ↔
      (s.exit = true → ∀ r ∈ s.pendingRunnables, r.semaphore = false) := by
  rw [← hi.acquiring_iff hp]
  split_ifs with hexit
  · constructor
    · intro hnot _ hmem
      exact hnot (.inr ⟨rfl, hmem⟩)
    · rintro hnot (⟨-, hp', -⟩ | ⟨-, hmem⟩)
      · cases hp'
      · exact hnot hexit hmem
  · exact iff_of_true (not_stuck_of_moving nofun nofun) fun h => absurd h hexit

theorem entering_stuck_iff :
    ¬ Stuck (if s.pendingRunnables = [] then { s with qtThread := .waiting } else s.takeBatch) ↔
      (s.pendingRunnables = [] → s.exitCall = .joining → ¬ ∀ c ∈ s.clients, c.hasAdded = true) := by
  split_ifs with hempty
  · constructor
    · intro hnot _ hcall hall
      exact hnot (.inl ⟨hcall, rfl, hall⟩)
    · rintro hnot (⟨hcall, -, hall⟩ | ⟨hp, -⟩)
      · exact hnot hempty hcall hall
      · cases hp
  · exact iff_of_true (not_stuck_of_moving nofun nofun) fun h => absurd h hempty

theorem Inv.resume_stuck_iff (hi : s.Inv) (h : s.resume s.qtThread = some t) :
    ¬ t.Stuck ↔ s.Awaited .loop := by
  unfold Awaited
  cases hp : s.qtThread with
  | test =>
    rw [hp] at h
    cases h
    rw [hi.test_stuck_iff hp]
    simp
  | entering =>
    rw [hp] at h
    cases h
    rw [entering_stuck_iff]
    simp
  | waiting =>
    rw [hp] at h
    cases h
  | woken =>
    rw [hp] at h
    cases h
    exact iff_of_true (not_stuck_of_moving nofun nofun) ⟨nofun, nofun⟩
  | running rs =>
    cases rs with
    | nil =>
      rw [hp] at h
      cases h
      exact iff_of_true (not_stuck_of_moving nofun nofun) ⟨nofun, nofun⟩
    | cons r rs =>
      rw [hp] at h
      cases h
      exact iff_of_true (not_stuck_of_moving nofun nofun) ⟨nofun, nofun⟩
  | inside r rs =>
    rw [hp] at h
    cases h
    refine iff_of_true ?_ ⟨nofun, nofun⟩
    split_ifs
    · exact not_stuck_of_moving nofun nofun
    · exact not_stuck_of_moving nofun nofun
  | releasing i rs =>
    rw [hp] at h
    cases h
    exact iff_of_true (not_stuck_of_moving nofun nofun) ⟨nofun, nofun⟩
  | ended =>
    rw [hp] at h
    cases h

theorem Inv.next_stuck_iff (hi : s.Inv) (hs : ¬ s.Stuck) (h : s.next step = some t) :
    ¬ t.Stuck ↔ s.Awaited step := by
  cases step with
  | callPost =>
    cases h
    exact iff_of_true (call_not_stuck hs (.inl rfl)) trivial
  | callRun =>
    cases h
    exact iff_of_true (call_not_stuck hs (.inr rfl)) trivial
  | add i toJoin =>
    obtain ⟨hjoin, ⟨hc, rfl⟩ | ⟨hc, rfl⟩⟩ := next_add h
    · have hlt : i < s.clients.length := (List.getElem?_eq_some_iff.mp hc).1
      rw [@add_stuck_iff s .returned ⟨i, false⟩ toJoin hs hjoin hlt rfl]
      apply and_congr_left'
      simp [hc]
    · have hlt : i < s.clients.length := (List.getElem?_eq_some_iff.mp hc).1
      rw [@add_stuck_iff s (.acquiring 0) ⟨i, true⟩ toJoin hs hjoin hlt rfl]
      apply and_congr_left'
      simp [hc]
  | acquire i =>
    obtain ⟨⟨permits, hc⟩, rfl⟩ := next_acquire h
    exact iff_of_true (acquire_not_stuck hs hc) trivial
  | callExit =>
    obtain ⟨-, h⟩ := Option.ite_none_right_eq_some.mp h
    cases h
    exact iff_of_true (not_stuck_of_exit hs id rfl nofun) trivial
  | setExit =>
    obtain ⟨-, h⟩ := Option.ite_none_right_eq_some.mp h
    cases h
    exact iff_of_true (not_stuck_of_exit hs id rfl nofun) trivial
  | notifyExit =>
    obtain ⟨-, h⟩ := Option.ite_none_right_eq_some.mp h
    cases h
    refine iff_of_true (not_stuck_of_exit hs LoopPoint.notify_eq_ended.mp rfl fun _ => ?_) trivial
    exact LoopPoint.notify_ne_waiting _
  | joined =>
    obtain ⟨-, h⟩ := Option.ite_none_right_eq_some.mp h
    cases h
    exact iff_of_true (not_stuck_of_exit hs id rfl nofun) trivial
  | loop => exact hi.resume_stuck_iff h
  | wake =>
    obtain ⟨-, h⟩ := Option.ite_none_right_eq_some.mp h
    cases h
    exact iff_of_true (not_stuck_of_moving nofun nofun) trivial

theorem neverStuck_iff (h : (run next create steps).isSome) :
    Always next (fun s => ¬ s.Stuck) create steps ↔ Meets next Awaited create steps := by
  apply always_iff_meets inv_create _ _ _ h
  · decide
  · intro s step t hi hn _ _
    exact hi.next_inv hn
  · intro s step t hi hn hs
    exact hi.next_stuck_iff hs hn

theorem neverStuck_iff_drainedExit :
    Always next (fun s => ¬ s.Stuck) create drainedExit ↔ Meets next Awaited create drainedExit :=
  @neverStuck_iff drainedExit rfl

/-- The call of `exit()` falls between the loop's test and its wait. -/
def lostNotification : List QtThreadStep := [.loop, .callExit, .setExit, .notifyExit, .loop]

/-- The thread ends with the runnable of a caller of `run` pending. -/
def abandonedCaller : List QtThreadStep := [.callRun, .add 0 false, .callExit, .setExit, .loop]

theorem exit_gets_stuck :
    (∃ s, run next create lostNotification = some s ∧ s.exitCall = .joining ∧
      s.qtThread = .waiting ∧ s.Stuck) ∧
    ∃ s, run next create abandonedCaller = some s ∧ s.qtThread = .ended ∧
      s.clients = [.acquiring 0] ∧ s.Stuck :=
  ⟨⟨_, rfl, rfl, rfl, by decide⟩, ⟨_, rfl, rfl, rfl, by decide⟩⟩

end EnvironmentCheck.QtThread
