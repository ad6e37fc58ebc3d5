import EnvironmentCheck.ConcurrentMessageLoop

namespace EnvironmentCheck

open Transition

inductive LoopThread (n : ℕ) where
  | worker (worker : Fin n)
  | client (client : ℕ)
  deriving DecidableEq

def LoopThread.isClient {n : ℕ} : LoopThread n → Bool
  | .worker _ => false
  | .client _ => true

/-- The loop behind its `shared_ptr`s: each strong reference by the thread that holds it, and the
thread that gave up the last one. -/
structure SharedLoop (C : Type) (n : ℕ) where
  pool : WorkerPool C n
  refs : List (LoopThread n)
  destroyedOn : Option (LoopThread n)

inductive OwnershipEvent (C : Type) (n : ℕ) where
  | copyRef (from_ to_ : ℕ)
  | lockWeak (thread : LoopThread n)
  | release (thread : LoopThread n)
  | pool (e : PoolEvent C n)

variable {C : Type} {n : ℕ}

/-- Inside a closure, from which it may call `ConcurrentTaskRunner::PostTask`. -/
def Worker.runsClosure : Worker C → Bool
  | .running work => work.task.isSome || !work.threadTasks.isEmpty
  | _ => false

namespace SharedLoop

def create (workerCount : ℕ) : SharedLoop C (max workerCount 1) :=
  ⟨.create workerCount, [.client 0], none⟩

def mayPost (s : SharedLoop C n) : LoopThread n → Bool
  | .worker w => (s.pool.workers w).runsClosure
  | .client _ => true

/-- A member call needs a strong reference, a runner whose `lock` fails runs the task itself, and a
closure ends after the calls inside it. -/
def Permitted (s : SharedLoop C n) : PoolEvent C n → Prop
  | .postTask _ => s.refs ≠ []
  | .postToExpired _ => s.refs = []
  | .postTaskToAllWorkers _ => s.refs ≠ []
  | .runTask w => .worker w ∉ s.refs
  | .runThreadTask w => .worker w ∉ s.refs
  | _ => True

instance (s : SharedLoop C n) : DecidablePred s.Permitted
  | .postTask _ | .postTaskToAllWorkers _ => inferInstanceAs (Decidable (s.refs ≠ []))
  | .postToExpired _ => inferInstanceAs (Decidable (s.refs = []))
  | .runTask w | .runThreadTask w => inferInstanceAs (Decidable (.worker w ∉ s.refs))
  | .notifyOne _ | .runOnCaller _ | .terminate | .acquire _ | .wakeSpuriously _ | .leave _ =>
    .isTrue trivial

def release (s : SharedLoop C n) (thread : LoopThread n) : SharedLoop C n :=
  { s with
    refs := s.refs.erase thread
    destroyedOn := if s.refs.erase thread = [] then some thread else s.destroyedOn }

def next (s : SharedLoop C n) : OwnershipEvent C n → Option (SharedLoop C n)
  | .copyRef from_ to_ =>
    if .client from_ ∈ s.refs then some { s with refs := .client to_ :: s.refs } else none
  | .lockWeak thread =>
    if s.refs ≠ [] ∧ s.mayPost thread then some { s with refs := thread :: s.refs } else none
  | .release thread =>
    if thread ∈ s.refs then some (s.release thread) else none
  | .pool e => if s.Permitted e then (s.pool.next e).map fun pool => { s with pool := pool } else none

def HeldByClient (refs : List (LoopThread n)) : Prop := ∃ thread ∈ refs, thread.isClient = true

def HeldByWorker (refs : List (LoopThread n)) : Prop := ∃ thread ∈ refs, thread.isClient = false

instance (refs : List (LoopThread n)) : Decidable (HeldByClient refs) :=
  inferInstanceAs (Decidable (∃ thread ∈ refs, thread.isClient = true))

instance (refs : List (LoopThread n)) : Decidable (HeldByWorker refs) :=
  inferInstanceAs (Decidable (∃ thread ∈ refs, thread.isClient = false))

def KeepsClientRef (s : SharedLoop C n) : OwnershipEvent C n → Prop
  | .release (.client c) => HeldByClient (s.refs.erase (.client c)) ∨ ¬ HeldByWorker s.refs
  | _ => True

instance (s : SharedLoop C n) : DecidablePred s.KeepsClientRef
  | .release (.client c) =>
    inferInstanceAs (Decidable (HeldByClient (s.refs.erase (.client c)) ∨ ¬ HeldByWorker s.refs))
  | .release (.worker _) | .copyRef _ _ | .lockWeak _ | .pool _ => .isTrue trivial

structure Safe (s : SharedLoop C n) : Prop where
  clients : HeldByWorker s.refs → HeldByClient s.refs
  destroyed : ∀ w, s.destroyedOn ≠ some (.worker w)

variable {s t : SharedLoop C n} {e : OwnershipEvent C n}

theorem heldByClient_of_ne_nil {refs : List (LoopThread n)} (hne : refs ≠ [])
    (h : HeldByWorker refs → HeldByClient refs) : HeldByClient refs := by
  obtain ⟨thread, hthread⟩ := List.exists_mem_of_ne_nil _ hne
  cases thread with
  | worker w => exact h ⟨_, hthread, rfl⟩
  | client c => exact ⟨_, hthread, rfl⟩

theorem safe_releaseWorker {w : Fin n} (h : s.Safe) (hw : .worker w ∈ s.refs) :
    (s.release (.worker w)).Safe := by
  obtain ⟨thread, hthread, hclient⟩ := h.clients ⟨_, hw, rfl⟩
  have hne : thread ≠ .worker w := by
    rintro rfl
    cases hclient
  have hkept : thread ∈ s.refs.erase (.worker w) := (List.mem_erase_of_ne hne).mpr hthread
  constructor
  · intro _
    exact ⟨thread, hkept, hclient⟩
  · intro v
    have hsame : (s.release (.worker w)).destroyedOn = s.destroyedOn :=
      if_neg (List.ne_nil_of_mem hkept)
    rw [hsame]
    exact h.destroyed v

theorem safe_releaseClient {c : ℕ} (h : s.Safe) (hk : s.KeepsClientRef (.release (.client c))) :
    (s.release (.client c)).Safe := by
  constructor
  · rintro ⟨thread, hthread, hworker⟩
    rcases hk with hother | hnone
    · exact hother
    · exact absurd ⟨thread, List.mem_of_mem_erase hthread, hworker⟩ hnone
  · intro v
    simp only [release]
    split_ifs
    · simp
    · exact h.destroyed v

theorem safe_next (h : s.Safe) (hk : s.KeepsClientRef e) (hn : s.next e = some t) : t.Safe := by
  cases e with
  | copyRef a b =>
    simp only [next] at hn
    split_ifs at hn
    rw [← Option.some.inj hn]
    exact ⟨fun _ => ⟨_, List.mem_cons_self, rfl⟩, h.destroyed⟩
  | lockWeak thread =>
    simp only [next] at hn
    split_ifs at hn with hlock
    rw [← Option.some.inj hn]
    obtain ⟨client, hmem, hclient⟩ := heldByClient_of_ne_nil hlock.1 h.clients
    exact ⟨fun _ => ⟨client, List.mem_cons_of_mem _ hmem, hclient⟩, h.destroyed⟩
  | release thread =>
    simp only [next] at hn
    split_ifs at hn with hheld
    rw [← Option.some.inj hn]
    cases thread with
    | worker w => exact safe_releaseWorker h hheld
    | client c => exact safe_releaseClient h hk
  | pool e =>
    simp only [next] at hn
    split_ifs at hn
    obtain ⟨pool, -, rfl⟩ := Option.map_eq_some_iff.mp hn
    exact ⟨h.clients, h.destroyed⟩

theorem safe_create (k : ℕ) : (create (C := C) k).Safe := by
  constructor
  · intro _
    exact ⟨_, List.mem_cons_self, rfl⟩
  · intro w
    simp [create]

theorem run_releases_worker (hne : s.refs ≠ []) (hc : ¬ HeldByClient s.refs) :
    ∃ u w, run next s (s.refs.map .release) = some u ∧ u.destroyedOn = some (.worker w) := by
  generalize hrefs : s.refs = refs at hne hc
  induction refs generalizing s with
  | nil => exact absurd rfl hne
  | cons thread refs ih =>
    obtain ⟨w, rfl⟩ : ∃ w, thread = .worker w := by
      cases thread with
      | worker w => exact ⟨w, rfl⟩
      | client c => exact absurd ⟨_, List.mem_cons_self, rfl⟩ hc
    have hstep : s.next (.release (.worker w)) = some (s.release (.worker w)) := by
      simp [next, hrefs]
    have hrest : (s.release (.worker w)).refs = refs := by
      simp [release, hrefs]
    rw [List.map_cons, run_cons_some hstep]
    by_cases hlast : refs = []
    · have hdestroyed : (s.release (.worker w)).destroyedOn = some (.worker w) := by
        simp [release, hrefs, hlast]
      subst hlast
      exact ⟨_, w, rfl, hdestroyed⟩
    · apply ih hrest hlast
      rintro ⟨client, hmem, hclient⟩
      exact hc ⟨client, List.mem_cons_of_mem _ hmem, hclient⟩

theorem run_of_not_keepsClientRef (hk : ¬ s.KeepsClientRef e) (hn : s.next e = some t) :
    ∃ es u w, run next t es = some u ∧ u.destroyedOn = some (.worker w) := by
  cases e with
  | copyRef a b => exact absurd trivial hk
  | lockWeak thread => exact absurd trivial hk
  | pool e => exact absurd trivial hk
  | release thread =>
    cases thread with
    | worker w => exact absurd trivial hk
    | client c =>
      obtain ⟨hclient, hworker⟩ := not_or.mp hk
      obtain ⟨thread, hthread, hkind⟩ := not_not.mp hworker
      simp only [next] at hn
      split_ifs at hn
      rw [← Option.some.inj hn]
      have hne : thread ≠ .client c := by
        rintro rfl
        cases hkind
      have hleft : s.refs.erase (.client c) ≠ [] :=
        List.ne_nil_of_mem ((List.mem_erase_of_ne hne).mpr hthread)
      obtain ⟨u, v, hrun, hu⟩ := run_releases_worker (s := s.release (.client c)) hleft hclient
      exact ⟨_, u, v, hrun, hu⟩

theorem never_destroyed_on_worker (workerCount : ℕ) :
    (∀ s : SharedLoop C (max workerCount 1), Reachable next KeepsClientRef (create workerCount) s →
        ∀ w, s.destroyedOn ≠ some (.worker w)) ∧
      ∀ (s : SharedLoop C (max workerCount 1)) e t, ¬ s.KeepsClientRef e → s.next e = some t →
        ∃ es u w, run next t es = some u ∧ u.destroyedOn = some (.worker w) := by
  constructor
  · intro s hr
    have hsafe : s.Safe := by
      apply hr.invariant
      · exact safe_create workerCount
      · intro s e t _ hs hk hn
        exact safe_next hs hk hn
    exact hsafe.destroyed
  · intro s e t hk hn
    exact run_of_not_keepsClientRef hk hn

def carefulRun : List (OwnershipEvent ℕ 1) :=
  [.lockWeak (.client 1), .pool (.postTask (some 7)), .pool (.notifyOne none), .pool (.acquire 0),
    .release (.client 0), .release (.client 1)]

theorem never_destroyed_on_worker_carefulRun :
    ∃ s : SharedLoop ℕ 1, run next (create 1) carefulRun = some s ∧
      s.destroyedOn = some (.client 1) ∧ ∀ w, s.destroyedOn ≠ some (.worker w) := by
  have hm : Meets next KeepsClientRef (create 1) carefulRun := by decide
  exact ⟨_, rfl, rfl, (never_destroyed_on_worker 1).1 _ ⟨carefulRun, hm, rfl⟩⟩

def selfJoinRun : List (OwnershipEvent ℕ 1) :=
  [.lockWeak (.client 1), .pool (.postTask (some 7)), .pool (.notifyOne none),
    .release (.client 1), .pool (.acquire 0), .lockWeak (.worker 0), .pool (.postTask (some 8)),
    .pool (.notifyOne none), .release (.client 0), .release (.worker 0)]

theorem selfJoinRun_destroys_on_worker :
    ∃ s : SharedLoop ℕ 1, run next (create 1) selfJoinRun = some s ∧
      s.destroyedOn = some (.worker 0) ∧ (s.pool.workers 0).runsClosure :=
  ⟨_, rfl, rfl, rfl⟩

end SharedLoop

end EnvironmentCheck
