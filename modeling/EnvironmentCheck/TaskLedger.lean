import EnvironmentCheck.Drain
import EnvironmentCheck.PendingTasks

namespace EnvironmentCheck

open MessageLoopTaskQueues Transition

variable {C : Type}

/-- The queue a task was registered on, and how many were registered before it anywhere. -/
abbrev Ticket := TaskQueueId × ℕ

def QueueCall.stamp (n : ℕ) : QueueCall C → QueueCall (Ticket × C)
  | .createTaskQueue => .createTaskQueue
  | .dispose q => .dispose q
  | .disposeTasks q => .disposeTasks q
  | .registerTask q task time grade => .registerTask q (task.map ((q, n), ·)) time grade
  | .getNextTaskToRun thread q time => .getNextTaskToRun thread q time
  | .addTaskObserver q key callback => .addTaskObserver q key (callback.map ((q, n), ·))
  | .removeTaskObserver q key => .removeTaskObserver q key
  | .setWakeable q wakeable => .setWakeable q wakeable
  | .merge o x => .merge o x
  | .unmerge o x => .unmerge o x
  | .pauseSecondarySource q => .pauseSecondarySource q
  | .resumeSecondarySource q => .resumeSecondarySource q

def ticket (t : DelayedTask (Ticket × C)) : Option Ticket := t.task.map Prod.fst

def pendingTickets (s : MessageLoopTaskQueues (Ticket × C)) (q : TaskQueueId) : List Ticket :=
  (s.heap q .primary ++ s.heap q .secondary).filterMap ticket

def issues (n : ℕ) : QueueCall C → List Ticket
  | .registerTask q (some _) _ _ => [(q, n)]
  | _ => []

def returns (s : MessageLoopTaskQueues (Ticket × C)) : QueueCall C → List Ticket
  | .getNextTaskToRun thread q time =>
    match s.getNextTaskToRun thread q time with
    | some (some (tk, _), _) => [tk]
    | _ => []
  | _ => []

def drops (s : MessageLoopTaskQueues (Ticket × C)) : QueueCall C → List Ticket
  | .dispose q => (q :: s.ownerOf q).flatMap (pendingTickets s)
  | .disposeTasks q => (q :: s.ownerOf q).flatMap (pendingTickets s)
  | _ => []

structure TaskLedger (C : Type) where
  queues : MessageLoopTaskQueues (Ticket × C)
  issued : List Ticket
  returned : List Ticket
  dropped : List Ticket

namespace TaskLedger

def create (thread : ThreadId) : TaskLedger C := ⟨.create thread, [], [], []⟩

def next (l : TaskLedger C) (c : QueueCall C) : Option (TaskLedger C) :=
  (l.queues.next (c.stamp l.issued.length)).map fun queues =>
    { queues := queues
      issued := l.issued ++ issues l.issued.length c
      returned := l.returned ++ returns l.queues c
      dropped := l.dropped ++ drops l.queues c }

def Balanced (l : TaskLedger C) (c : QueueCall C) : Prop :=
  l.queues.Balanced (c.stamp l.issued.length)

instance (l : TaskLedger C) (c : QueueCall C) : Decidable (l.Balanced c) :=
  inferInstanceAs (Decidable (l.queues.Balanced (c.stamp l.issued.length)))

structure Accounted (l : TaskLedger C) (tk : Ticket) : Prop where
  once : (pendingTickets l.queues tk.1).count tk + l.returned.count tk + l.dropped.count tk = 1
  home : ∀ x, tk ∈ pendingTickets l.queues x → x = tk.1

structure Conserves (l : TaskLedger C) : Prop where
  home : ∀ x, ∀ tk ∈ pendingTickets l.queues x, tk.1 = x
  total : ∀ tk, (pendingTickets l.queues tk.1).count tk + l.returned.count tk + l.dropped.count tk =
    l.issued.count tk
  fresh : ∀ tk ∈ l.issued, tk.2 < l.issued.length
  nodup : l.issued.Nodup

end TaskLedger

section Tickets

variable {s t : MessageLoopTaskQueues (Ticket × C)} {q x : TaskQueueId}

theorem pendingTickets_eq : pendingTickets s x = (s.pendingTasks x).filterMap ticket := rfl

theorem pendingTickets_cons {task : DelayedTask (Ticket × C)}
    (h : (t.pendingTasks x).Perm (task :: s.pendingTasks x)) :
    (pendingTickets t x).Perm ((ticket task).toList ++ pendingTickets s x) := by
  refine (h.filterMap ticket).trans (List.Perm.of_eq ?_)
  rw [pendingTickets_eq]
  cases hticket : ticket task <;> simp [hticket]

theorem count_flatMap_pendingTickets {xs : List TaskQueueId} (hn : xs.Nodup)
    (hhome : ∀ x, ∀ tk ∈ pendingTickets s x, tk.1 = x) (tk : Ticket) :
    (xs.flatMap (pendingTickets s)).count tk =
      if tk.1 ∈ xs then (pendingTickets s tk.1).count tk else 0 := by
  induction xs with
  | nil => simp
  | cons x xs ih =>
    rw [List.nodup_cons] at hn
    rw [List.flatMap_cons, List.count_append, ih hn.2]
    by_cases hx : tk.1 = x
    · have hnot : tk.1 ∉ xs := hx ▸ hn.1
      simp [← hx, hnot]
    · have hzero : (pendingTickets s x).count tk = 0 :=
        List.count_eq_zero.mpr fun hmem => hx (hhome x tk hmem)
      simp [hx, hzero]

/-- What the next state holds of a queue's tickets, and what became of the others. -/
structure TicketStep (s t : MessageLoopTaskQueues (Ticket × C)) (issued returned dropped : List Ticket) :
    Prop where
  home : ∀ x, ∀ tk ∈ pendingTickets t x, tk ∈ pendingTickets s x ∨ tk ∈ issued ∧ tk.1 = x
  total : ∀ tk, (pendingTickets t tk.1).count tk + returned.count tk + dropped.count tk =
    (pendingTickets s tk.1).count tk + issued.count tk

theorem TicketStep.same (h : ∀ x, pendingTickets t x = pendingTickets s x) :
    TicketStep s t [] [] [] := by
  constructor
  · intro x tk htk
    exact .inl (h x ▸ htk)
  · intro tk
    simp [h]

theorem ticketStep_register {task : DelayedTask (Ticket × C)} {issued : List Ticket}
    (hi : issued = (ticket task).toList) (hhome : ∀ tk ∈ issued, tk.1 = q) (h : Gains s t q task) :
    TicketStep s t issued [] [] := by
  have hperm : (pendingTickets t q).Perm (issued ++ pendingTickets s q) := by
    rw [hi]
    exact pendingTickets_cons h.perm
  have hsame : ∀ x, x ≠ q → pendingTickets t x = pendingTickets s x := by
    intro x hx
    rw [pendingTickets_eq, h.others x hx, pendingTickets_eq]
  constructor
  · intro x tk htk
    by_cases hx : x = q
    · subst hx
      rcases List.mem_append.mp (hperm.mem_iff.mp htk) with hmem | hmem
      · exact .inr ⟨hmem, hhome tk hmem⟩
      · exact .inl hmem
    · exact .inl (hsame x hx ▸ htk)
  · intro tk
    by_cases hx : tk.1 = q
    · rw [hx, hperm.count_eq, List.count_append, List.count_nil]
      omega
    · have hzero : issued.count tk = 0 := List.count_eq_zero.mpr fun hmem => hx (hhome tk hmem)
      rw [hsame _ hx, hzero, List.count_nil]

theorem ticketStep_pop {v : TaskQueueId × DelayedTask (Ticket × C)}
    (hhome : ∀ x, ∀ tk ∈ pendingTickets s x, tk.1 = x) (hpop : Pops s t v) :
    TicketStep s t [] (ticket v.2).toList [] := by
  have hperm : (pendingTickets s v.1).Perm ((ticket v.2).toList ++ pendingTickets t v.1) :=
    pendingTickets_cons hpop.perm
  have hsame : ∀ x, x ≠ v.1 → pendingTickets t x = pendingTickets s x := by
    intro x hx
    rw [pendingTickets_eq, hpop.same hx, pendingTickets_eq]
  constructor
  · intro x tk htk
    by_cases hx : x = v.1
    · subst hx
      exact .inl (hperm.mem_iff.mpr (List.mem_append_right _ htk))
    · exact .inl (hsame x hx ▸ htk)
  · intro tk
    by_cases hx : tk.1 = v.1
    · rw [hx, hperm.count_eq, List.count_append, List.count_nil]
      omega
    · have hzero : (ticket v.2).toList.count tk = 0 := by
        apply List.count_eq_zero.mpr
        intro hmem
        exact hx (hhome _ tk (hperm.mem_iff.mpr (List.mem_append_left _ hmem)))
      rw [hsame _ hx, hzero, List.count_nil]

theorem ticketStep_drop (hn : (q :: s.ownerOf q).Nodup)
    (hhome : ∀ x, ∀ tk ∈ pendingTickets s x, tk.1 = x) (h : Drops s t q) :
    TicketStep s t [] [] ((q :: s.ownerOf q).flatMap (pendingTickets s)) := by
  have hgone : ∀ x ∈ q :: s.ownerOf q, pendingTickets t x = [] := by
    intro x hx
    rw [pendingTickets_eq, h.gone x (List.mem_cons.mp hx), List.filterMap_nil]
  have hsame : ∀ x, x ∉ q :: s.ownerOf q → pendingTickets t x = pendingTickets s x := by
    intro x hx
    rw [pendingTickets_eq, h.others x fun hmem => hx (List.mem_cons.mpr hmem), pendingTickets_eq]
  constructor
  · intro x tk htk
    by_cases hx : x ∈ q :: s.ownerOf q
    · simp [hgone x hx] at htk
    · exact .inl (hsame x hx ▸ htk)
  · intro tk
    rw [count_flatMap_pendingTickets hn hhome]
    by_cases hx : tk.1 ∈ q :: s.ownerOf q
    · rw [hgone _ hx, if_pos hx]
      simp
    · rw [hsame _ hx, if_neg hx]
      simp

end Tickets

namespace TaskLedger

variable {l m : TaskLedger C} {c : QueueCall C}

theorem ticketStep_getNextTaskToRun {F : OwnerForest TaskQueueId} (h : Represents l.queues F)
    (hid : l.queues.SourcesNamed) (hhome : ∀ x, ∀ tk ∈ pendingTickets l.queues x, tk.1 = x)
    {thread : ThreadId} {q : TaskQueueId} {time : TimePoint} {b : Closure (Ticket × C)}
    {t : MessageLoopTaskQueues (Ticket × C)}
    (hg : l.queues.getNextTaskToRun thread q time = some (b, t)) :
    TicketStep l.queues t [] (returns l.queues (.getNextTaskToRun (C := C) thread q time)) [] := by
  have hret : returns l.queues (.getNextTaskToRun (C := C) thread q time) =
      (b.map Prod.fst).toList := by
    simp only [returns, hg]
    cases b <;> rfl
  rw [hret]
  obtain ⟨rfl, hs, -⟩ | ⟨top, -, -, -, rfl, -, hpop⟩ := getNextTaskToRun_pops h hid hg
  · apply TicketStep.same
    intro x
    rw [pendingTickets_eq, pendingTasks_congr (hs x), pendingTickets_eq]
  · exact ticketStep_pop hhome hpop

theorem ticketStep_next {F : OwnerForest TaskQueueId} (h : Represents l.queues F)
    (hid : l.queues.SourcesNamed) (hhome : ∀ x, ∀ tk ∈ pendingTickets l.queues x, tk.1 = x)
    {t : MessageLoopTaskQueues (Ticket × C)}
    (hn : l.queues.next (c.stamp l.issued.length) = some t) :
    TicketStep l.queues t (issues l.issued.length c) (returns l.queues c) (drops l.queues c) := by
  have hstep := tasksStep_next h hid hn
  cases c with
  | registerTask q task time grade =>
    apply ticketStep_register _ _ hstep
    · cases task <;> rfl
    · intro tk htk
      cases task with
      | none => simp [issues] at htk
      | some body =>
        rw [issues, List.mem_singleton] at htk
        rw [htk]
  | getNextTaskToRun thread q time =>
    obtain ⟨⟨b, u⟩, hg, rfl⟩ := Option.map_eq_some_iff.mp hn
    exact ticketStep_getNextTaskToRun h hid hhome hg
  | dispose q => exact ticketStep_drop (h.nodup_group q) hhome hstep
  | disposeTasks q => exact ticketStep_drop (h.nodup_group q) hhome hstep
  | _ => exact TicketStep.same fun x => by rw [pendingTickets_eq, hstep x, pendingTickets_eq]

theorem conserves_next {F : OwnerForest TaskQueueId} (h : Represents l.queues F)
    (hid : l.queues.SourcesNamed) (hl : l.Conserves)
    (hn : l.next c = some m) : m.Conserves := by
  obtain ⟨t, ht, rfl⟩ := Option.map_eq_some_iff.mp hn
  have hstep := ticketStep_next h hid hl.home ht
  have hissues : issues l.issued.length c = [] ∨
      ∃ q, issues l.issued.length c = [(q, l.issued.length)] := by
    cases c with
    | registerTask q task time grade =>
      cases task with
      | none => exact .inl rfl
      | some body => exact .inr ⟨q, rfl⟩
    | _ => exact .inl rfl
  constructor
  · intro x tk htk
    rcases hstep.home x tk htk with hmem | hmem
    · exact hl.home x tk hmem
    · exact hmem.2
  · intro tk
    have hbefore := hl.total tk
    have hafter := hstep.total tk
    simp only [List.count_append]
    omega
  · intro tk htk
    rw [List.length_append]
    rcases List.mem_append.mp htk with hold | hnew
    · have hlt := hl.fresh tk hold
      omega
    · rcases hissues with hnil | ⟨q, hone⟩
      · simp [hnil] at hnew
      · rw [hone, List.mem_singleton] at hnew
        rw [hone, hnew, List.length_singleton]
        omega
  · rcases hissues with hnil | ⟨q, hone⟩
    · rw [hnil, List.append_nil]
      exact hl.nodup
    · rw [hone, List.nodup_append]
      refine ⟨hl.nodup, List.nodup_singleton _, ?_⟩
      intro tk hold tk' hnew
      rw [List.mem_singleton] at hnew
      rintro rfl
      have hlt := hl.fresh tk hold
      rw [hnew] at hlt
      exact lt_irrefl _ hlt

theorem reachable_queues {thread : ThreadId}
    (h : Reachable TaskLedger.next TaskLedger.Balanced (TaskLedger.create (C := C) thread) l) :
    Reachable MessageLoopTaskQueues.next MessageLoopTaskQueues.Balanced (.create thread)
      l.queues := by
  apply h.invariant
  · exact .refl
  · intro l c m _ hr hc hn
    obtain ⟨t, ht, rfl⟩ := Option.map_eq_some_iff.mp hn
    exact hr.step hc ht

theorem reachable_conserves {thread : ThreadId}
    (h : Reachable TaskLedger.next TaskLedger.Balanced (TaskLedger.create (C := C) thread) l) :
    l.Conserves := by
  apply h.invariant
  · constructor <;>
      simp [TaskLedger.create, pendingTickets, heap, source, MessageLoopTaskQueues.create]
  · intro l c m hr hl hc hn
    have hq := reachable_queues hr
    obtain ⟨F, hF⟩ := represents_reachable (fun _ _ hc => hc.1) hq
    have hs := soundSources_reachable (fun _ _ hc => hc.2) hq
    exact conserves_next hF hs.taskQueueId hl hn

theorem Conserves.accounted (h : l.Conserves) {tk : Ticket} (htk : tk ∈ l.issued) :
    l.Accounted tk := by
  constructor
  · rw [h.total tk]
    exact List.count_eq_one_of_mem h.nodup htk
  · intro x hx
    exact (h.home x tk hx).symm

end TaskLedger

namespace MessageLoopTaskQueues

variable {s t : MessageLoopTaskQueues C}

theorem heap_mapped {q : TaskQueueId} {f : TaskSource C → TaskSource C}
    (hf : ∀ src h, (f src).heap h = src.heap h)
    (hs : ∀ x, t.source x = if x = q then (s.source q).map f else s.source x)
    (x : TaskQueueId) (h : TaskHeap) : t.heap x h = s.heap x h := by
  unfold heap
  rw [hs x]
  by_cases hx : x = q
  · subst hx
    rw [if_pos rfl]
    cases s.source x with
    | none => rfl
    | some src => simp [hf]
  · rw [if_neg hx]

def Rearranges : QueueCall C → Prop
  | .merge _ _ => True
  | .unmerge _ _ => True
  | .pauseSecondarySource _ => True
  | .resumeSecondarySource _ => True
  | _ => False

theorem heap_rearranged {c : QueueCall C} (hc : Rearranges c) (hn : s.next c = some t)
    (x : TaskQueueId) (h : TaskHeap) : t.heap x h = s.heap x h := by
  cases c with
  | merge o y =>
    obtain ⟨⟨b, u⟩, hm, rfl⟩ := Option.map_eq_some_iff.mp hn
    simp only [heap, source_merge hm]
  | unmerge o y =>
    obtain ⟨⟨b, u⟩, hm, rfl⟩ := Option.map_eq_some_iff.mp hn
    simp only [heap, source_unmerge hm]
  | pauseSecondarySource q =>
    apply heap_mapped (f := (·.pauseSecondary)) _ fun _ => source_pauseSecondarySource hn
    intro src h
    cases h <;> rfl
  | resumeSecondarySource q =>
    apply heap_mapped (f := (·.resumeSecondary)) _ fun _ => source_resumeSecondarySource hn
    intro src h
    cases h <;> rfl
  | _ => exact hc.elim

theorem tasks_conserved (thread : ThreadId) :
    (∀ l : TaskLedger C, Reachable TaskLedger.next TaskLedger.Balanced (.create thread) l →
        ∀ tk ∈ l.issued, l.Accounted tk) ∧
      ∀ s : MessageLoopTaskQueues C, Reachable next Balanced (create thread) s →
        (∀ c t, Rearranges c → s.next c = some t → ∀ x h, t.heap x h = s.heap x h) ∧
        ∀ q caller, s.Registered q → s.subsumedBy q = none →
          (∀ u ∈ s.visibleTasks q, u.task ≠ none) →
          ∃ n, s.getNumPendingTasks q = some n ∧ ∀ fuel, n < fuel →
            ∃ tasks t, s.drain caller q .max fuel = some (tasks, t) ∧ tasks.length = n := by
  refine ⟨fun l hr tk htk => (TaskLedger.reachable_conserves hr).accounted htk, fun s hr => ?_⟩
  obtain ⟨F, hF⟩ := represents_reachable (fun _ _ hc => hc.1) hr
  have hs := soundSources_reachable (fun _ _ hc => hc.2) hr
  refine ⟨fun c t hc hn => heap_rearranged hc hn, fun q caller hq hsub hnull => ?_⟩
  refine ⟨_, getNumPendingTasks_eq hF.linked hs hq hsub, fun fuel hfuel => ?_⟩
  exact drain_max hF hs hq hsub hnull caller fuel hfuel

def ledgerRun : List (QueueCall Unit) :=
  [.createTaskQueue, .createTaskQueue, .createTaskQueue,
    .registerTask 0 (some ()) ⟨5⟩ .kUnspecified, .registerTask 1 (some ()) ⟨3⟩ .kDartMicroTasks,
    .registerTask 2 (some ()) ⟨4⟩ .kUnspecified, .merge 0 1, .getNextTaskToRun 7 0 ⟨4⟩,
    .disposeTasks 2]

theorem tasks_conserved_ledgerRun :
    ∃ l : TaskLedger Unit, run TaskLedger.next (.create 0) ledgerRun = some l ∧
      l.Accounted (0, 0) ∧ l.Accounted (1, 1) ∧ l.Accounted (2, 2) ∧
      ∃ tasks t, l.queues.drain 7 0 .max 2 = some (tasks, t) ∧ tasks.length = 1 := by
  have hm : Meets TaskLedger.next TaskLedger.Balanced (.create 0) ledgerRun := by decide
  obtain ⟨haccount, -⟩ := tasks_conserved (C := Unit) 0
  obtain ⟨-, hqueues⟩ := tasks_conserved (C := Ticket × Unit) 0
  have hl : Reachable TaskLedger.next TaskLedger.Balanced (.create 0)
      ((run TaskLedger.next (.create 0) ledgerRun).get rfl) := ⟨ledgerRun, hm, rfl⟩
  have htickets := haccount _ hl
  obtain ⟨n, hn, hdrain⟩ := (hqueues _ (TaskLedger.reachable_queues hl)).2 0 7 rfl rfl (by decide)
  obtain rfl : n = 1 := Option.some.inj (hn.symm.trans (by decide))
  exact ⟨_, rfl, htickets _ (by decide), htickets _ (by decide), htickets _ (by decide),
    hdrain 2 (by decide)⟩

end MessageLoopTaskQueues

end EnvironmentCheck
