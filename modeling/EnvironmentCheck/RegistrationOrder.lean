import EnvironmentCheck.PendingTasks

namespace EnvironmentCheck

open MessageLoopTaskQueues Transition

variable {C : Type}

/-- How many tasks were registered before it, and the target time. -/
abbrev Registration := ℕ × TimePoint

inductive RegistrationCall (C : Type) where
  | registerTask (task : Closure C) (targetTime : TimePoint) (taskSourceGrade : TaskSourceGrade)
  | getNextTaskToRun (thread : ThreadId) (fromTime : TimePoint)

structure RegistrationOrder (C : Type) where
  queues : MessageLoopTaskQueues (Registration × Closure C)
  registered : List Registration
  returned : List Registration

namespace RegistrationOrder

def create (thread : ThreadId) : RegistrationOrder C :=
  ⟨(MessageLoopTaskQueues.create thread).createTaskQueue.2, [], []⟩

def next (l : RegistrationOrder C) : RegistrationCall C → Option (RegistrationOrder C)
  | .registerTask task time grade =>
    (l.queues.registerTask 0 (some ((l.registered.length, time), task)) time grade).map fun queues =>
      { l with queues := queues, registered := l.registered ++ [(l.registered.length, time)] }
  | .getNextTaskToRun thread time =>
    (l.queues.getNextTaskToRun thread 0 time).map fun r =>
      { l with queues := r.2, returned := l.returned ++ (r.1.map Prod.fst).toList }

/-- Of two tasks for one time the one registered first is returned first. -/
structure Fifo (l : RegistrationOrder C) : Prop where
  before : ∀ a ∈ l.registered, ∀ b ∈ l.returned, a.2 = b.2 → a.1 < b.1 → a ∈ l.returned
  order : l.returned.Pairwise fun a b => a.2 = b.2 → a.1 < b.1

def InOrder (l : RegistrationOrder C) : RegistrationCall C → Prop
  | .registerTask _ time _ =>
    ∀ t ∈ l.queues.pendingTasks 0, t.targetTime = time → t.order < orderStamp l.queues.order
  | .getNextTaskToRun _ _ => True

instance (l : RegistrationOrder C) : DecidablePred l.InOrder
  | .registerTask _ time _ => inferInstanceAs (Decidable
      (∀ t ∈ l.queues.pendingTasks 0, t.targetTime = time → t.order < orderStamp l.queues.order))
  | .getNextTaskToRun _ _ => .isTrue trivial

def tag (t : DelayedTask (Registration × Closure C)) : Option Registration := t.task.map Prod.fst

structure Inv (thread : ThreadId) (l : RegistrationOrder C) : Prop where
  reachable : Reachable MessageLoopTaskQueues.next Balanced (.create thread) l.queues
  ownerOf : l.queues.ownerOf 0 = []
  unpaused : ∀ src, l.queues.source 0 = some src → src.secondaryPauseRequests = 0
  tagged : ∀ t ∈ l.queues.pendingTasks 0,
    ∃ n, n < l.registered.length ∧ tag t = some (n, t.targetTime)
  distinct : ((l.queues.pendingTasks 0).map tag).Nodup
  ascending : ∀ t ∈ l.queues.pendingTasks 0, ∀ u ∈ l.queues.pendingTasks 0,
    ∀ a b, tag t = some a → tag u = some b → a.2 = b.2 → a.1 < b.1 → t.order < u.order
  accounted : ∀ a ∈ l.registered, a ∈ l.returned ∨ some a ∈ (l.queues.pendingTasks 0).map tag
  passed : ∀ a ∈ l.returned, ∀ b, some b ∈ (l.queues.pendingTasks 0).map tag →
    a.2 = b.2 → a.1 < b.1
  issued : ∀ a ∈ l.returned, a.1 < l.registered.length
  order : l.returned.Pairwise fun a b => a.2 = b.2 → a.1 < b.1

variable {l m : RegistrationOrder C} {thread : ThreadId}

theorem Inv.fifo (h : Inv thread l) : l.Fifo where
  before a ha b hb htime hlt := by
    cases h.accounted a ha with
    | inl hret => exact hret
    | inr hpend =>
      have hgt := h.passed b hb a hpend htime.symm
      omega
  order := h.order

theorem inv_create (thread : ThreadId) : Inv thread (create (C := C) thread) := by
  have hfirst : MessageLoopTaskQueues.next (.create thread) .createTaskQueue =
      some (create (C := C) thread).queues := rfl
  constructor
  · apply Reachable.refl.step _ hfirst
    exact ⟨trivial, trivial⟩
  · rfl
  · intro src hsrc
    cases hsrc
    rfl
  · exact fun t ht => absurd ht List.not_mem_nil
  · exact List.nodup_nil
  · exact fun t ht => absurd ht List.not_mem_nil
  · exact fun a ha => absurd ha List.not_mem_nil
  · exact fun a ha => absurd ha List.not_mem_nil
  · exact fun a ha => absurd ha List.not_mem_nil
  · exact .nil

theorem visible_of_pending {s : MessageLoopTaskQueues C} {q : TaskQueueId}
    (hp : ∀ src, s.source q = some src → src.secondaryPauseRequests = 0) {t : DelayedTask C}
    (ht : t ∈ s.pendingTasks q) : (q, t) ∈ s.visible q := by
  cases hsrc : s.source q with
  | none =>
    rw [pendingTasks_none hsrc] at ht
    cases ht
  | some src =>
    rw [pendingTasks_eq hsrc] at ht
    refine ⟨.inl rfl, src, hsrc, ?_⟩
    rw [TaskSource.visible, hp src hsrc, if_neg (lt_irrefl 0)]
    exact ht

theorem Inv.of_tag (h : Inv thread l) {u : DelayedTask (Registration × Closure C)}
    (hu : u ∈ l.queues.pendingTasks 0) {a : Registration} (ha : tag u = some a) :
    a.1 < l.registered.length ∧ a.2 = u.targetTime := by
  obtain ⟨n, hlt, hn⟩ := h.tagged u hu
  obtain rfl : (n, u.targetTime) = a := Option.some.inj (hn.symm.trans ha)
  exact ⟨hlt, rfl⟩

/-- A new registration comes after those that are pending for its time. -/
theorem Inv.ascending_new (h : Inv thread l) {t : MessageLoopTaskQueues (Registration × Closure C)}
    {new : DelayedTask (Registration × Closure C)} (htag : tag new = some (l.registered.length, new.targetTime))
    (hmem : ∀ u, u ∈ t.pendingTasks 0 ↔ u = new ∨ u ∈ l.queues.pendingTasks 0)
    (hlater : ∀ u ∈ l.queues.pendingTasks 0, u.targetTime = new.targetTime → u.order < new.order) :
    ∀ u ∈ t.pendingTasks 0, ∀ w ∈ t.pendingTasks 0, ∀ a b, tag u = some a → tag w = some b →
      a.2 = b.2 → a.1 < b.1 → u.order < w.order := by
  intro u hu w hw a b ha hb htime hlt
  cases (hmem u).mp hu with
  | inl he =>
    rw [he, htag] at ha
    obtain rfl := Option.some.inj ha
    cases (hmem w).mp hw with
    | inl he' =>
      rw [he', htag] at hb
      obtain rfl := Option.some.inj hb
      exact absurd hlt (lt_irrefl _)
    | inr hw =>
      have hissued := (h.of_tag hw hb).1
      exact absurd (hlt.trans hissued) (lt_irrefl _)
  | inr hu =>
    cases (hmem w).mp hw with
    | inl he' =>
      rw [he', htag] at hb
      obtain rfl := Option.some.inj hb
      rw [he']
      exact hlater u hu ((h.of_tag hu ha).2.symm.trans htime)
    | inr hw => exact h.ascending u hu w hw a b ha hb htime hlt

theorem Inv.registerTask (h : Inv thread l) {task : Closure C} {time : TimePoint}
    {grade : TaskSourceGrade} (hc : l.InOrder (.registerTask task time grade))
    {t : MessageLoopTaskQueues (Registration × Closure C)}
    (hn : l.queues.registerTask 0 (some ((l.registered.length, time), task)) time grade = some t) :
    Inv thread { l with queues := t, registered := l.registered ++ [(l.registered.length, time)] } := by
  have hgains := gains_registerTask hn
  have hmem := fun u => (hgains.perm.mem_iff (a := u)).trans List.mem_cons
  have htags := hgains.perm.map tag
  have hlength : (l.registered ++ [(l.registered.length, time)]).length =
      l.registered.length + 1 := by simp
  constructor
  · exact h.reachable.step (e := .registerTask 0 _ time grade) ⟨trivial, trivial⟩ hn
  · exact ((sameLinks_registerTask hn).ownerOf 0).trans h.ownerOf
  · intro src hsrc
    rw [source_registerTask hn, if_pos rfl] at hsrc
    obtain ⟨src', hsrc', rfl⟩ := Option.map_eq_some_iff.mp hsrc
    rw [TaskSource.registerTask_pauses, h.unpaused src' hsrc']
  · intro u hu
    rw [hlength]
    cases (hmem u).mp hu with
    | inl he =>
      subst he
      exact ⟨l.registered.length, Nat.lt_succ_self _, rfl⟩
    | inr hu =>
      obtain ⟨n, hlt, hn⟩ := h.tagged u hu
      exact ⟨n, Nat.lt_succ_of_lt hlt, hn⟩
  · apply htags.nodup_iff.mpr
    rw [List.map_cons, List.nodup_cons]
    refine ⟨fun hin => ?_, h.distinct⟩
    obtain ⟨u, hu, htag⟩ := List.mem_map.mp hin
    exact lt_irrefl _ (h.of_tag hu htag).1
  · exact h.ascending_new rfl hmem hc
  · intro a ha
    rw [htags.mem_iff, List.map_cons]
    cases List.mem_append.mp ha with
    | inl hold =>
      cases h.accounted a hold with
      | inl hret => exact .inl hret
      | inr hpend => exact .inr (List.mem_cons_of_mem _ hpend)
    | inr hnew =>
      rw [List.mem_singleton] at hnew
      subst hnew
      exact .inr List.mem_cons_self
  · intro a ha b hb htime
    rw [htags.mem_iff, List.map_cons] at hb
    cases List.mem_cons.mp hb with
    | inl he =>
      obtain rfl : b = (l.registered.length, time) := Option.some.inj he
      exact h.issued a ha
    | inr hb => exact h.passed a ha b hb htime
  · intro a ha
    rw [hlength]
    exact Nat.lt_succ_of_lt (h.issued a ha)
  · exact h.order

theorem Inv.quiet (h : Inv thread l) {t : MessageLoopTaskQueues (Registration × Closure C)}
    {time : TimePoint} {caller : ThreadId} {c : Closure (Registration × Closure C)}
    (hn : l.queues.getNextTaskToRun caller 0 time = some (c, t))
    (hs : ∀ x, t.source x = l.queues.source x) : Inv thread { l with queues := t } := by
  have hsame := pendingTasks_congr (hs 0)
  constructor
  · exact h.reachable.step (e := .getNextTaskToRun caller 0 time) ⟨trivial, trivial⟩
      (by rw [MessageLoopTaskQueues.next, hn]; rfl)
  · exact ((sameLinks_getNextTaskToRun hn).ownerOf 0).trans h.ownerOf
  · intro src hsrc
    exact h.unpaused src ((hs 0).symm.trans hsrc)
  all_goals
    simp only [hsame]
  · exact h.tagged
  · exact h.distinct
  · exact h.ascending
  · exact h.accounted
  · exact h.passed
  · exact h.issued
  · exact h.order

theorem Inv.foremost_le (h : Inv thread l) {u w : DelayedTask (Registration × Closure C)} {n : ℕ}
    (hu : u ∈ l.queues.pendingTasks 0) (htag : tag u = some (n, u.targetTime))
    (hfirst : l.queues.Foremost 0 (0, u)) (hw : w ∈ l.queues.pendingTasks 0) {b : Registration}
    (hwb : tag w = some b) (htime : u.targetTime = b.2) : n ≤ b.1 := by
  by_contra hgt
  have hbefore := h.ascending w hw u hu b (n, u.targetTime) hwb htag htime.symm (not_le.mp hgt)
  have htarget := (h.of_tag hw hwb).2
  have hkey := hfirst.least (0, w) (visible_of_pending h.unpaused hw)
  unfold DelayedTask.key at hkey
  rw [Prod.Lex.toLex_le_toLex] at hkey
  cases hkey with
  | inl hlater => exact absurd (htime.trans htarget) hlater.ne
  | inr horder => exact absurd hbefore (not_lt.mpr horder.2)

theorem Inv.popTask (h : Inv thread l) {t : MessageLoopTaskQueues (Registration × Closure C)}
    {time : TimePoint} {caller : ThreadId} {c : Closure (Registration × Closure C)}
    (hn : l.queues.getNextTaskToRun caller 0 time = some (c, t))
    {u : DelayedTask (Registration × Closure C)} (hpop : Pops l.queues t (0, u))
    (hsrc : t.source 0 = (l.queues.source 0).map (·.popTask u.taskSourceGrade))
    (hfirst : l.queues.Foremost 0 (0, u)) :
    Inv thread { l with queues := t, returned := l.returned ++ (tag u).toList } := by
  have hperm := hpop.perm
  have htags := hperm.map tag
  have hmem : ∀ w, w ∈ t.pendingTasks 0 → w ∈ l.queues.pendingTasks 0 := by
    intro w hw
    exact hperm.mem_iff.mpr (List.mem_cons_of_mem _ hw)
  have hu : u ∈ l.queues.pendingTasks 0 := hperm.mem_iff.mpr List.mem_cons_self
  obtain ⟨n, hlt, htag⟩ := h.tagged u hu
  have hnodup := htags.nodup_iff.mp h.distinct
  rw [List.map_cons, List.nodup_cons, htag] at hnodup
  rw [htag, Option.toList_some]
  have hpassed : ∀ b, some b ∈ (t.pendingTasks 0).map tag → u.targetTime = b.2 → n < b.1 := by
    intro b hb htime
    obtain ⟨w, hw, hwb⟩ := List.mem_map.mp hb
    apply Nat.lt_of_le_of_ne (h.foremost_le hu htag hfirst (hmem w hw) hwb htime)
    rintro rfl
    apply hnodup.1
    rw [htime]
    exact hb
  constructor
  · exact h.reachable.step (e := .getNextTaskToRun caller 0 time) ⟨trivial, trivial⟩
      (by rw [MessageLoopTaskQueues.next, hn]; rfl)
  · exact ((sameLinks_getNextTaskToRun hn).ownerOf 0).trans h.ownerOf
  · intro src hs
    rw [hsrc] at hs
    obtain ⟨src', hsrc', rfl⟩ := Option.map_eq_some_iff.mp hs
    rw [TaskSource.popTask_pauses, h.unpaused src' hsrc']
  · intro w hw
    exact h.tagged w (hmem w hw)
  · exact hnodup.2
  · intro w hw w' hw'
    exact h.ascending w (hmem w hw) w' (hmem w' hw')
  · intro a ha
    cases h.accounted a ha with
    | inl hret => exact .inl (List.mem_append_left _ hret)
    | inr hpend =>
      rw [htags.mem_iff, List.map_cons, htag] at hpend
      cases List.mem_cons.mp hpend with
      | inl he =>
        obtain rfl := Option.some.inj he
        exact .inl (List.mem_append_right _ List.mem_cons_self)
      | inr hpend => exact .inr hpend
  · intro a ha b hb htime
    have hb' : some b ∈ (l.queues.pendingTasks 0).map tag := by
      rw [htags.mem_iff, List.map_cons]
      exact List.mem_cons_of_mem _ hb
    cases List.mem_append.mp ha with
    | inl hold => exact h.passed a hold b hb' htime
    | inr hnew =>
      rw [List.mem_singleton] at hnew
      subst hnew
      exact hpassed b hb htime
  · intro a ha
    cases List.mem_append.mp ha with
    | inl hold => exact h.issued a hold
    | inr hnew =>
      rw [List.mem_singleton] at hnew
      subst hnew
      exact hlt
  · rw [List.pairwise_append]
    refine ⟨h.order, List.pairwise_singleton _ _, ?_⟩
    intro a ha b hb
    rw [List.mem_singleton] at hb
    subst hb
    apply h.passed a ha
    rw [htags.mem_iff, List.map_cons, htag]
    exact List.mem_cons_self

theorem inv_next (h : Inv thread l) {c : RegistrationCall C} (hc : l.InOrder c)
    (hn : l.next c = some m) : Inv thread m := by
  cases c with
  | registerTask task time grade =>
    obtain ⟨t, ht, rfl⟩ := Option.map_eq_some_iff.mp hn
    exact h.registerTask hc ht
  | getNextTaskToRun caller time =>
    obtain ⟨⟨c, t⟩, ht, rfl⟩ := Option.map_eq_some_iff.mp hn
    obtain ⟨F, hF⟩ := represents_reachable (fun _ _ hc => hc.1) h.reachable
    have hsound := soundSources_reachable (fun _ _ hc => hc.2) h.reachable
    obtain ⟨rfl, hs, -⟩ | ⟨top, hp, htop, -, rfl, hmem, hpop⟩ :=
      getNextTaskToRun_pops hF hsound.taskQueueId ht
    · simp only [Option.map_none, Option.toList_none, List.append_nil]
      exact h.quiet ht hs
    · have hq := registered_of_hasPendingTasksUnlocked hp
      have hfirst := peekNextTaskUnlocked_foremost hF.linked hsound hq htop
      have hid : top.taskQueueId = 0 := by simpa [h.ownerOf] using hmem
      rw [hid] at hpop hfirst
      apply h.popTask ht hpop _ hfirst
      obtain ⟨hnone, -⟩ | ⟨top', -, htop', -, -, hs⟩ := source_getNextTaskToRun ht
      · have hu : top.task ∈ l.queues.pendingTasks 0 := hpop.perm.mem_iff.mpr List.mem_cons_self
        obtain ⟨n, -, htag⟩ := h.tagged _ hu
        rw [tag, hnone] at htag
        cases htag
      · obtain rfl : top = top' := Option.some.inj (htop.symm.trans htop')
        rw [hs, hid, if_pos rfl]

theorem fifo_of_inOrder (thread : ThreadId) (es : List (RegistrationCall C))
    (hm : Meets next InOrder (create thread) es) : Always next Fifo (create thread) es := by
  intro front hfront l hl
  obtain ⟨rest, rfl⟩ := hfront
  have hreach : Reachable next InOrder (create thread) l :=
    ⟨front, ((meets_append front rest).mp hm).1, hl⟩
  have hinv : Inv thread l := by
    apply hreach.invariant (inv_create thread)
    intro l c m _ hl hc hn
    exact inv_next hl hc hn
  exact hinv.fifo

def twoDeadlines : List (RegistrationCall Unit) :=
  [.registerTask (some ()) ⟨5⟩ .kUnspecified, .registerTask (some ()) ⟨3⟩ .kDartMicroTasks,
    .registerTask (some ()) ⟨5⟩ .kDartMicroTasks, .getNextTaskToRun 0 ⟨9⟩,
    .getNextTaskToRun 0 ⟨9⟩]

theorem fifo_of_inOrder_twoDeadlines :
    ∃ l, run next (create 0) twoDeadlines = some l ∧ l.returned = [(1, ⟨3⟩), (0, ⟨5⟩)] ∧ l.Fifo :=
  ⟨_, rfl, rfl, fifo_of_inOrder 0 twoDeadlines (by decide) _ (List.prefix_refl _) _ rfl⟩

end RegistrationOrder

namespace MessageLoopTaskQueues

def emptyQueue (n : ℕ) : MessageLoopTaskQueues C where
  queueEntries := Function.update (fun _ => none) 0 (some (.create 0))
  taskQueueIdCounter := 1
  order := BitVec.ofNat 32 n
  tlsTaskSourceGrade := Function.update (fun _ => none) 0 (some .kUnspecified)

def oneTask (n : ℕ) (c : Closure C) : MessageLoopTaskQueues C :=
  (emptyQueue n).addTask 0 ⟨orderStamp (BitVec.ofNat 32 n), c, ⟨0⟩, .kUnspecified⟩

theorem rearm_unset {s : MessageLoopTaskQueues C} {q : TaskQueueId} (h : s.wakeable q = none)
    (time : TimePoint) : s.rearm q time = s := by
  have hsame : Function.update s.queueEntries q ((s.queueEntries q).map fun e =>
      { e with wakeable := e.wakeable.map (·.wakeUp time) }) = s.queueEntries := by
    funext x
    by_cases hx : x = q
    · subst hx
      rw [Function.update_self]
      unfold wakeable at h
      cases he : s.queueEntries x with
      | none => rfl
      | some e =>
        rw [he, Option.bind_some] at h
        rw [Option.map_some, h, Option.map_none, ← h]
    · rw [Function.update_of_ne hx]
  simp only [rearm, modifyEntry, hsame]

theorem registerTask_emptyQueue (n : ℕ) (c : Closure C) :
    (emptyQueue n).registerTask 0 c ⟨0⟩ .kUnspecified = some (oneTask n c) := by
  have h : (emptyQueue n).registerTask 0 c ⟨0⟩ .kUnspecified =
      some ((oneTask n c).rearm 0 ⟨0⟩) := rfl
  rw [h, rearm_unset]
  rfl

theorem getNextTaskToRun_oneTask (n : ℕ) (c : Closure C) :
    (oneTask n c).getNextTaskToRun 0 0 ⟨0⟩ = some (c, emptyQueue (n + 1)) := by
  have h : (oneTask n c).getNextTaskToRun 0 0 ⟨0⟩ =
      some (c, (((oneTask n c).rearm 0 ⟨0⟩).popTask 0 .kUnspecified).setTls 0 .kUnspecified) := rfl
  rw [h, rearm_unset]
  · unfold oneTask addTask emptyQueue popTask setTls modifyEntry
    simp only [Function.update_self, Option.map_some, Function.update_idem, Option.some.injEq,
      Prod.mk.injEq, true_and, MessageLoopTaskQueues.mk.injEq]
    refine ⟨rfl, ?_, trivial⟩
    rw [BitVec.ofNat_add]
    rfl
  · rfl

def twoTasks (n : ℕ) (a b : Closure C) : MessageLoopTaskQueues C :=
  (oneTask n a).addTask 0 ⟨orderStamp (BitVec.ofNat 32 n + 1), b, ⟨0⟩, .kUnspecified⟩

theorem getNextTaskToRun_twoTasks {n : ℕ} (hlast : orderStamp (BitVec.ofNat 32 n) = 2 ^ 64 - 1)
    (hfirst : orderStamp (BitVec.ofNat 32 n + 1) = 0) (a b : Closure C) :
    (oneTask n a).registerTask 0 b ⟨0⟩ .kUnspecified = some (twoTasks n a b) ∧
      ∃ t, (twoTasks n a b).getNextTaskToRun 0 0 ⟨0⟩ = some (b, t) := by
  have hwake : (twoTasks n a b).wakeUpIfPending 0 = some ((twoTasks n a b).rearm 0 ⟨0⟩) := by
    unfold twoTasks oneTask
    rw [hlast, hfirst]
    rfl
  constructor
  · have hstep : (oneTask n a).registerTask 0 b ⟨0⟩ .kUnspecified =
        (twoTasks n a b).wakeUpIfPending 0 := rfl
    rw [hstep, hwake, rearm_unset]
    rfl
  · unfold twoTasks oneTask
    rw [hlast, hfirst]
    exact ⟨_, rfl⟩

end MessageLoopTaskQueues

namespace RegistrationOrder

def round : List (RegistrationCall Unit) :=
  [.registerTask (some ()) ⟨0⟩ .kUnspecified, .getNextTaskToRun 0 ⟨0⟩]

def rounds : ℕ → List (RegistrationCall Unit)
  | 0 => []
  | n + 1 => rounds n ++ round

def registrations (n : ℕ) : List Registration := (List.range n).map fun k => (k, ⟨0⟩)

theorem run_rounds (n : ℕ) :
    run next (create 0) (rounds n) = some ⟨emptyQueue n, registrations n, registrations n⟩ := by
  induction n with
  | zero => rfl
  | succ n ih =>
    have hlength : (registrations n).length = n := by simp [registrations]
    have hsucc : registrations (n + 1) = registrations n ++ [(n, ⟨0⟩)] := by
      simp [registrations, List.range_succ]
    rw [rounds, run_append, ih, Option.bind_some, round, run_cons, next, hlength,
      registerTask_emptyQueue, Option.map_some, Option.bind_some, run_cons, next,
      getNextTaskToRun_oneTask, Option.map_some, Option.bind_some, run_nil, hsucc]
    rfl

theorem run_overtaken {n : ℕ} {s t : MessageLoopTaskQueues (Registration × Closure Unit)}
    (hs : (oneTask n (some ((n, ⟨0⟩), some ()))).registerTask 0 (some ((n + 1, ⟨0⟩), some ())) ⟨0⟩
      .kUnspecified = some s)
    (ht : s.getNextTaskToRun 0 0 ⟨0⟩ = some (some ((n + 1, ⟨0⟩), some ()), t)) :
    run next ⟨emptyQueue n, registrations n, registrations n⟩
        [.registerTask (some ()) ⟨0⟩ .kUnspecified, .registerTask (some ()) ⟨0⟩ .kUnspecified,
          .getNextTaskToRun 0 ⟨0⟩] =
      some ⟨t, registrations n ++ [(n, ⟨0⟩)] ++ [(n + 1, ⟨0⟩)],
        registrations n ++ [(n + 1, ⟨0⟩)]⟩ := by
  have hlength : (registrations n).length = n := by simp [registrations]
  rw [run_cons, next, hlength, registerTask_emptyQueue, Option.map_some, Option.bind_some, run_cons,
    next, List.length_append, hlength, List.length_singleton, hs, Option.map_some,
    Option.bind_some, run_cons, next, ht]
  rfl

theorem not_fifo_overtaken (n : ℕ) (s : MessageLoopTaskQueues (Registration × Closure Unit)) :
    ¬ Fifo ⟨s, registrations n ++ [(n, ⟨0⟩)] ++ [(n + 1, ⟨0⟩)],
      registrations n ++ [(n + 1, ⟨0⟩)]⟩ := by
  intro h
  have hmem := h.before (n, ⟨0⟩) (by simp) (n + 1, ⟨0⟩) (by simp) rfl (Nat.lt_succ_self n)
  simp [registrations] at hmem

/-- The stamp wraps from `2 ^ 64 - 1` to `0` between the two registrations that stay pending. -/
def wrapped : List (RegistrationCall Unit) :=
  rounds (2 ^ 32 - 1) ++ [.registerTask (some ()) ⟨0⟩ .kUnspecified,
    .registerTask (some ()) ⟨0⟩ .kUnspecified, .getNextTaskToRun 0 ⟨0⟩]

theorem wrapped_not_fifo : ¬ Always next Fifo (create 0) wrapped := by
  intro h
  obtain ⟨hs, t, ht⟩ := getNextTaskToRun_twoTasks (C := Registration × Closure Unit)
    (n := 2 ^ 32 - 1) (by decide) (by decide) (some ((2 ^ 32 - 1, ⟨0⟩), some ()))
    (some ((2 ^ 32 - 1 + 1, ⟨0⟩), some ()))
  apply not_fifo_overtaken (2 ^ 32 - 1) t
  apply h wrapped (List.prefix_refl _)
  rw [wrapped, run_append, run_rounds, Option.bind_some]
  exact run_overtaken hs ht

end RegistrationOrder

end EnvironmentCheck
