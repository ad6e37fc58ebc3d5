import EnvironmentCheck.WorkerWakeUps
import Mathlib.Algebra.Order.Group.Multiset
import Mathlib.Data.Fintype.Card

namespace EnvironmentCheck.WorkerPool

open Transition

variable {C : Type} {n : ℕ} {s t : WorkerPool C n} {e : PoolEvent C n} {w : Fin n}

def inHands (s : WorkerPool C n) : Multiset C := ∑ w, ((s.workers w).inHand : Multiset C)

theorem inHands_setWorker (s : WorkerPool C n) (w : Fin n) (state : Worker C) :
    (s.setWorker w state).inHands + ((s.workers w).inHand : Multiset C) =
      s.inHands + (state.inHand : Multiset C) :=
  sum_update_add s.workers (fun state => (state.inHand : Multiset C)) w state

theorem inHands_notifyAll (s : WorkerPool C n) : s.notifyAll.inHands = s.inHands := by
  simp only [inHands, notifyAll, Worker.notify_inHand]

def Accounts (s : WorkerPool C n) : Prop :=
  (s.log.posted : Multiset C) = s.log.executed + s.onCaller + s.loop.tasks + s.inHands

theorem Accounts.setWorker (h : s.Accounts) {state : Worker C}
    (hw : state.inHand = (s.workers w).inHand) : (s.setWorker w state).Accounts := by
  have hsum := inHands_setWorker s w state
  rw [hw] at hsum
  have hkeep : (s.setWorker w state).inHands = s.inHands := add_right_cancel hsum
  rw [Accounts, hkeep]
  exact h

theorem Accounts.notifyAll (h : s.Accounts) : s.notifyAll.Accounts := by
  rw [Accounts, inHands_notifyAll]
  exact h

theorem accounts_take (h : s.Accounts)
    (hw : s.workers w = .acquiring ∨ s.workers w = .notified) : (s.take w).Accounts := by
  have hidle : (s.workers w).inHand = [] := by
    rcases hw with hw | hw <;> rw [hw] <;> rfl
  have hwork : (s.loop.takeWork w).1 = _ := ConcurrentMessageLoop.takeWork_work s.loop w
  have hsum := inHands_setWorker s w (.running (s.loop.takeWork w).1)
  rw [hidle, hwork, Multiset.coe_nil, add_zero] at hsum
  have htaken : (s.take w).inHands = s.inHands + (s.loop.tasks.head?.toList : Multiset C) := by
    rw [← hwork] at hsum
    change (s.setWorker w (.running (s.loop.takeWork w).1)).inHands = _
    rw [hsum, hwork]
    rfl
  have hloop : (s.take w).loop = _ := ConcurrentMessageLoop.takeWork_loop s.loop w
  have hsplit : (s.loop.tasks : Multiset C) =
      (s.loop.tasks.head?.toList : Multiset C) + (s.loop.tasks.tail : Multiset C) := by
    cases s.loop.tasks with
    | nil => rfl
    | cons x xs => rfl
  unfold Accounts
  rw [htaken, hloop]
  change (s.log.posted : Multiset C) = s.log.executed + s.onCaller + s.loop.tasks.tail + _
  rw [show (s.log.posted : Multiset C) = _ from h, hsplit]
  ac_rfl

theorem accounts_step (h : s.Accounts) (hs : Step s e t) : t.Accounts := by
  have hnow : (s.log.posted : Multiset C) = _ := h
  cases hs with
  | nothing e hne => exact h
  | push task hopen =>
    change ((s.log.posted ++ [task] : List C) : Multiset C) =
      s.log.executed + s.onCaller + ((s.loop.tasks ++ [task] : List C) : Multiset C) + s.inHands
    rw [← Multiset.coe_add, ← Multiset.coe_add, hnow]
    ac_rfl
  | leaveToCaller e task hne =>
    change ((s.log.posted ++ [task] : List C) : Multiset C) =
      s.log.executed + ((s.onCaller ++ [task] : List C) : Multiset C) + s.loop.tasks + s.inHands
    rw [← Multiset.coe_add, ← Multiset.coe_add, hnow]
    ac_rfl
  | notifyNone hawake => exact h
  | notifySome w hpos hw =>
    have hless : Accounts { s with notifying := s.notifying - 1 } := h
    apply hless.setWorker
    rw [hw]
    rfl
  | runOnCaller call hlt =>
    have hmoved : (s.onCaller : Multiset C) =
        ([s.onCaller[call]] : List C) + ((s.onCaller.eraseIdx call : List C) : Multiset C) := by
      rw [Multiset.coe_add, Multiset.coe_eq_coe]
      exact (List.getElem_cons_eraseIdx_perm hlt).symm
    change (s.log.posted : Multiset C) =
      ((s.log.executed ++ [s.onCaller[call]] : List C) : Multiset C) +
        (s.onCaller.eraseIdx call : List C) + s.loop.tasks + s.inHands
    rw [← Multiset.coe_add, hnow, hmoved]
    ac_rfl
  | broadcast task =>
    apply Accounts.notifyAll
    have hlog := h
    unfold Accounts
    dsimp only
    split_ifs <;> exact hlog
  | terminate =>
    have hclosed : Accounts { s with loop := s.loop.terminate } := h
    exact hclosed.notifyAll
  | take w hw => exact accounts_take h hw
  | block w hw hready =>
    apply h.setWorker
    rcases hw with hw | hw <;> rw [hw] <;> rfl
  | wakeSpuriously w hw =>
    apply h.setWorker
    rw [hw]
    rfl
  | runTask w task threadTasks shutdownNow hw =>
    have hsum := inHands_setWorker s w (.running ⟨none, threadTasks, shutdownNow⟩)
    rw [hw] at hsum
    have hless : (s.setWorker w (.running ⟨none, threadTasks, shutdownNow⟩)).inHands +
        (([task] : List C) : Multiset C) = s.inHands := hsum.trans (add_zero _)
    change (s.log.posted : Multiset C) =
      ((s.log.executed ++ [task] : List C) : Multiset C) + s.onCaller + s.loop.tasks +
        (s.setWorker w (.running ⟨none, threadTasks, shutdownNow⟩)).inHands
    rw [← Multiset.coe_add, hnow, ← hless]
    ac_rfl
  | runThreadTask w task threadTasks shutdownNow hw =>
    have hset : (s.setWorker w (.running ⟨none, threadTasks, shutdownNow⟩)).Accounts := by
      apply h.setWorker
      rw [hw]
      rfl
    exact hset
  | leave w shutdownNow hw =>
    apply h.setWorker
    rw [hw]
    cases shutdownNow <;> rfl

/-- How many workers have yet to look at the queue, once the loop is shut down. -/
def turns (s : WorkerPool C n) : ℕ := ∑ w, if (s.workers w).isLast then 0 else 1

theorem turns_setWorker (s : WorkerPool C n) (w : Fin n) (state : Worker C) :
    (s.setWorker w state).turns + (if (s.workers w).isLast then 0 else 1) =
      s.turns + if state.isLast then 0 else 1 :=
  sum_update_add s.workers (fun state => if state.isLast then 0 else 1) w state

theorem turns_notifyAll (s : WorkerPool C n) : s.notifyAll.turns = s.turns := by
  simp only [turns, notifyAll, Worker.notify_isLast]

def Fits (s : WorkerPool C n) : Prop := s.loop.tasks.length ≤ s.turns

theorem fits_setWorker {state : Worker C} (h : state.isLast = (s.workers w).isLast) :
    (s.setWorker w state).Fits ↔ s.Fits := by
  have hsum := turns_setWorker s w state
  rw [h] at hsum
  have hkeep : (s.setWorker w state).turns = s.turns := Nat.add_right_cancel hsum
  rw [Fits, hkeep]
  exact Iff.rfl

theorem fits_notifyAll : s.notifyAll.Fits ↔ s.Fits := by
  rw [Fits, turns_notifyAll]
  exact Iff.rfl

theorem fits_take (hdown : s.loop.shutdown = true)
    (hw : s.workers w = .acquiring ∨ s.workers w = .notified) : (s.take w).Fits ↔ s.Fits := by
  have hfirst : (s.workers w).isLast = false := by
    rcases hw with hw | hw <;> rw [hw] <;> rfl
  have hwork : (s.loop.takeWork w).1 = _ := ConcurrentMessageLoop.takeWork_work s.loop w
  have hlast : (Worker.running (s.loop.takeWork w).1).isLast = true := by
    rw [hwork]
    exact hdown
  have hsum := turns_setWorker s w (.running (s.loop.takeWork w).1)
  simp only [hfirst, hlast, Bool.false_eq_true, if_false, if_true] at hsum
  have htasks : (s.take w).loop.tasks = s.loop.tasks.tail := by
    change (s.loop.takeWork w).2.tasks = _
    rw [ConcurrentMessageLoop.takeWork_loop]
  unfold Fits
  rw [htasks, List.length_tail]
  change s.loop.tasks.length - 1 ≤ (s.setWorker w (.running (s.loop.takeWork w).1)).turns ↔ _
  omega

theorem fits_step (hdown : s.loop.shutdown = true) (hs : Step s e t) :
    t.loop.shutdown = true ∧ (t.Fits ↔ s.Fits) := by
  cases hs with
  | nothing e hne => exact ⟨hdown, Iff.rfl⟩
  | push task hopen =>
    rw [hdown] at hopen
    cases hopen
  | leaveToCaller e task hne => exact ⟨hdown, Iff.rfl⟩
  | notifyNone hawake => exact ⟨hdown, Iff.rfl⟩
  | notifySome w hpos hw =>
    refine ⟨hdown, fits_setWorker (s := { s with notifying := s.notifying - 1 }) ?_⟩
    rw [hw]
    rfl
  | runOnCaller call hlt => exact ⟨hdown, Iff.rfl⟩
  | broadcast task => exact ⟨hdown, fits_notifyAll⟩
  | terminate => exact ⟨rfl, fits_notifyAll⟩
  | take w hw =>
    refine ⟨?_, fits_take hdown hw⟩
    change (s.loop.takeWork w).2.shutdown = true
    rw [ConcurrentMessageLoop.takeWork_loop]
    exact hdown
  | block w hw hready =>
    have hopen := (ConcurrentMessageLoop.ready_eq_false.mp hready).2.1
    rw [hdown] at hopen
    cases hopen
  | wakeSpuriously w hw =>
    refine ⟨hdown, fits_setWorker ?_⟩
    rw [hw]
    rfl
  | runTask w task threadTasks shutdownNow hw =>
    have hset : (s.setWorker w (.running ⟨none, threadTasks, shutdownNow⟩)).Fits ↔ s.Fits := by
      apply fits_setWorker
      rw [hw]
      rfl
    exact ⟨hdown, hset⟩
  | runThreadTask w task threadTasks shutdownNow hw =>
    have hset : (s.setWorker w (.running ⟨none, threadTasks, shutdownNow⟩)).Fits ↔ s.Fits := by
      apply fits_setWorker
      rw [hw]
      rfl
    exact ⟨hdown, hset⟩
  | leave w shutdownNow hw =>
    refine ⟨hdown, fits_setWorker ?_⟩
    rw [hw]
    cases shutdownNow <;> rfl

theorem shutdown_step (hs : Step s e t) (hne : e ≠ .terminate) :
    t.loop.shutdown = s.loop.shutdown := by
  cases hs with
  | terminate => exact absurd rfl hne
  | take w hw =>
    change (s.loop.takeWork w).2.shutdown = _
    rw [ConcurrentMessageLoop.takeWork_loop]
  | _ => rfl

def FitsIfDown (s : WorkerPool C n) : Prop := s.loop.shutdown = true → s.Fits

def RoomAtShutdown (s : WorkerPool C n) (e : PoolEvent C n) : Prop :=
  e = .terminate → s.loop.shutdown = false → s.loop.tasks.length ≤ n

theorem fitsIfDown_step (hi : s.Delivers) (hs : Step s e t) (hp : s.FitsIfDown) :
    t.FitsIfDown ↔ s.RoomAtShutdown e := by
  cases hdown : s.loop.shutdown with
  | true =>
    obtain ⟨hdown', hfits⟩ := fits_step hdown hs
    apply iff_of_true
    · intro _
      exact hfits.mpr (hp hdown)
    · intro _ hopen
      rw [hdown] at hopen
      cases hopen
  | false =>
    by_cases he : e = .terminate
    · subst he
      cases hs with
      | nothing e hne => exact absurd rfl hne
      | leaveToCaller e task hne => exact absurd rfl hne
      | terminate =>
        have hturns : s.shutDown.turns = n := by
          have hkeep : s.shutDown.turns = s.turns := turns_notifyAll _
          have hnone : ∀ w, (s.workers w).isLast = false := by
            intro w
            rw [Bool.eq_false_iff]
            intro hlast
            have hset := (hi.last w hlast).1
            rw [hdown] at hset
            cases hset
          rw [hkeep]
          simp [turns, hnone]
        unfold FitsIfDown RoomAtShutdown Fits
        rw [hturns, hdown]
        exact ⟨fun h _ _ => h rfl, fun h _ => h rfl rfl⟩
    · apply iff_of_true
      · intro hset
        rw [shutdown_step hs he, hdown] at hset
        cases hset
      · intro he'
        exact absurd he' he

theorem fitsIfDown_back (hs : Step s e t) (hp : t.FitsIfDown) : s.FitsIfDown := by
  intro hdown
  obtain ⟨hdown', hfits⟩ := fits_step hdown hs
  exact hfits.mp (hp hdown')

theorem accounts_reachable {k : ℕ} {s : WorkerPool C (max k 1)}
    (h : Reachable next AnyStep (create k) s) : s.Accounts := by
  apply h.invariant
  · simp [Accounts, inHands, create, ConcurrentMessageLoop.create, Worker.inHand]
  · intro s e t _ hs _ hn
    exact accounts_step hs (step_of_next hn)

theorem fitsIfDown_iff {k : ℕ} {es : List (PoolEvent C (max k 1))} {s : WorkerPool C (max k 1)}
    (hr : run next (create k) es = some s) :
    s.FitsIfDown ↔ Meets next RoomAtShutdown (create k) es := by
  have hdelivers : (create (C := C) k).Delivers := delivers_reachable .refl
  apply last_iff_meets hdelivers _ _ _ _ hr
  · intro h
    cases h
  · intro s e t hi hn
    exact delivers_step hi (step_of_next hn)
  · intro s e t hi hn hp
    exact fitsIfDown_step hi (step_of_next hn) hp
  · intro s e t _ hn ht
    exact fitsIfDown_back (step_of_next hn) ht

theorem executed_iff_room (workerCount : ℕ) (es : List (PoolEvent C (max workerCount 1)))
    (s : WorkerPool C (max workerCount 1)) (hr : run next (create workerCount) es = some s)
    (hx : ∀ w, s.workers w = .exited) :
    (s.log.executed ++ s.onCaller).Perm s.log.posted ↔
      Meets next RoomAtShutdown (create workerCount) es := by
  have hreach : Reachable next AnyStep (create workerCount) s := ⟨es, meets_true _ _, hr⟩
  have haccounts : (s.log.posted : Multiset C) = _ := accounts_reachable hreach
  have hdown : s.loop.shutdown = true := by
    apply ((delivers_reachable hreach).last ⟨0, by omega⟩ _).1
    rw [hx]
    rfl
  have hhands : s.inHands = 0 := by simp [inHands, hx, Worker.inHand]
  have hturns : s.turns = 0 := by simp [turns, hx, Worker.isLast]
  rw [hhands, add_zero, Multiset.coe_add] at haccounts
  rw [← fitsIfDown_iff hr]
  have hfits : s.FitsIfDown ↔ s.loop.tasks = [] := by
    unfold FitsIfDown Fits
    rw [hturns, Nat.le_zero, List.length_eq_zero_iff]
    exact ⟨fun h => h hdown, fun h _ => h⟩
  rw [hfits, ← Multiset.coe_eq_coe, haccounts]
  constructor
  · intro h
    have hcard := congrArg Multiset.card h
    simpa using hcard
  · intro h
    rw [h]
    simp

def crowdedRun : List (PoolEvent ℕ 1) :=
  [.postTask (some 7), .notifyOne none, .postTask (some 8), .notifyOne none, .terminate,
    .acquire (Fin.last 0), .runTask (Fin.last 0), .leave (Fin.last 0)]

theorem executed_iff_room_crowdedRun :
    ∃ s : WorkerPool ℕ 1, run next (create 1) crowdedRun = some s ∧
      ((s.log.executed ++ s.onCaller).Perm s.log.posted ↔
        Meets next RoomAtShutdown (create 1) crowdedRun) := by
  refine ⟨_, rfl, executed_iff_room 1 crowdedRun _ rfl fun (w : Fin 1) => ?_⟩
  rw [Fin.eq_zero w]
  rfl

theorem crowdedRun_drops_task :
    ∃ s : WorkerPool ℕ 1, run next (create 1) crowdedRun = some s ∧
      (∀ w, s.workers w = .exited) ∧ s.notifying = 0 ∧ s.onCaller = [] ∧
      s.log.posted = [7, 8] ∧ s.log.executed = [7] := by
  refine ⟨_, rfl, fun w => ?_, rfl, rfl, rfl, rfl⟩
  rw [Fin.eq_zero w]
  rfl

end EnvironmentCheck.WorkerPool
