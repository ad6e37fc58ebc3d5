import EnvironmentCheck.QtThread
import Mathlib.Data.List.Nodup

namespace EnvironmentCheck

open Transition

namespace LoopPoint

variable {p : LoopPoint}

@[simp] theorem batch_notify (p : LoopPoint) : p.notify.batch = p.batch := by
  cases p <;> rfl

@[simp] theorem current_notify (p : LoopPoint) : p.notify.current = p.current := by
  cases p <;> rfl

@[simp] theorem unreleased_notify (p : LoopPoint) : p.notify.unreleased = p.unreleased := by
  cases p <;> rfl

theorem notify_eq_ended : p.notify = .ended ↔ p = .ended := by
  cases p <;> simp [notify]

theorem notify_eq_releasing {i : ℕ} {rs : List Runnable} :
    p.notify = .releasing i rs ↔ p = .releasing i rs := by
  cases p <;> simp [notify]

theorem notify_ne_waiting (p : LoopPoint) : p.notify ≠ .waiting := by
  cases p <;> simp [notify]

end LoopPoint

namespace QtThread

/-- Runnables are started in the order in which they were added, and a caller of `run` waits exactly
as long as its runnable has yet to release the semaphore. -/
structure Inv (s : QtThread) : Prop where
  order : s.added = s.started ++ (s.qtThread.batch ++ s.pendingRunnables).map Runnable.call
  current : s.started = s.executed ++ s.qtThread.current.toList
  distinct : s.added.Nodup
  known : ∀ i ∈ s.added, ∃ c, s.clients[i]? = some c ∧ c.hasAdded = true
  acquiring : ∀ i : ℕ, s.clients[i]? = some (.acquiring 0) ↔
    ⟨i, true⟩ ∈ s.qtThread.unreleased ++ s.pendingRunnables
  releasing : ∀ i rs, s.qtThread = .releasing i rs → i ∈ s.started
  flag : s.exit = true ↔ s.exitCall ≠ .notCalled ∧ s.exitCall ≠ .called
  ended : s.qtThread = .ended → s.exit = true
  returned : s.exitCall = .returned → s.qtThread = .ended
  promised : s.promised <+: s.added

variable {s t : QtThread} {i j : ℕ} {c : ClientPoint} {r : Runnable} {rs : List Runnable}
  {toJoin : Bool} {step : QtThreadStep} {steps : List QtThreadStep}

theorem inv_create : create.Inv := by
  refine ⟨rfl, rfl, List.nodup_nil, nofun, fun i => ?_, nofun, ?_, nofun, nofun, List.nil_prefix⟩
  · exact iff_of_false nofun nofun
  · exact iff_of_false nofun fun h => h.1 rfl

/-- The loop goes from `q` on to `p` with the same runnables. -/
theorem Inv.move (hi : s.Inv) {p q : LoopPoint} (hq : s.qtThread = q) (hne : q ≠ .ended)
    (hbatch : p.batch = q.batch) (hcurrent : p.current = q.current)
    (hunreleased : p.unreleased = q.unreleased) (hp : ∀ i rs, p ≠ .releasing i rs)
    (hended : p = .ended → s.exit = true) : Inv { s with qtThread := p } := by
  subst hq
  refine ⟨?_, ?_, hi.distinct, hi.known, ?_, fun i rs h => absurd h (hp i rs), hi.flag, hended,
    fun hr => absurd (hi.returned hr) hne, hi.promised⟩
  · change s.added = s.started ++ (p.batch ++ s.pendingRunnables).map Runnable.call
    rw [hbatch]
    exact hi.order
  · change s.started = s.executed ++ p.current.toList
    rw [hcurrent]
    exact hi.current
  · intro i
    change _ ↔ _ ∈ p.unreleased ++ s.pendingRunnables
    rw [hunreleased]
    exact hi.acquiring i

theorem Inv.fresh (hi : s.Inv) (hc : s.clients[i]? = some c) (hnot : c.hasAdded = false) :
    i ∉ s.added := by
  intro hmem
  obtain ⟨c', hc', hadded⟩ := hi.known i hmem
  cases hc.symm.trans hc'
  rw [hnot] at hadded
  cases hadded

theorem Inv.call_inv (hi : s.Inv) (hc : c.hasAdded = false) :
    Inv { s with clients := s.clients ++ [c] } := by
  refine ⟨hi.order, hi.current, hi.distinct, ?_, ?_, hi.releasing, hi.flag, hi.ended, hi.returned,
    hi.promised⟩
  · intro i hmem
    obtain ⟨c', hc', hadded⟩ := hi.known i hmem
    refine ⟨c', ?_, hadded⟩
    rw [← hc']
    exact List.getElem?_append_left (List.getElem?_eq_some_iff.mp hc').1
  · intro i
    rw [← hi.acquiring i]
    change (s.clients ++ [c])[i]? = _ ↔ _
    rw [List.getElem?_append]
    split_ifs with hlt
    · exact Iff.rfl
    · rw [List.getElem?_eq_none (Nat.le_of_not_lt hlt)]
      refine iff_of_false ?_ nofun
      intro h
      cases List.mem_singleton.mp (List.mem_of_getElem? h)
      cases hc

theorem add_point (s : QtThread) (r : Runnable) (c : ClientPoint) (toJoin : Bool) :
    (s.add r c toJoin).qtThread = s.qtThread ∨
      (s.add r c toJoin).qtThread = s.qtThread.notify := by
  cases toJoin with
  | true => exact .inl rfl
  | false => exact .inr rfl

theorem add_batch : (s.add r c toJoin).qtThread.batch = s.qtThread.batch := by
  obtain h | h := add_point s r c toJoin <;> rw [h]
  exact LoopPoint.batch_notify _

theorem add_current : (s.add r c toJoin).qtThread.current = s.qtThread.current := by
  obtain h | h := add_point s r c toJoin <;> rw [h]
  exact LoopPoint.current_notify _

theorem add_unreleased : (s.add r c toJoin).qtThread.unreleased = s.qtThread.unreleased := by
  obtain h | h := add_point s r c toJoin <;> rw [h]
  exact LoopPoint.unreleased_notify _

theorem add_ended : (s.add r c toJoin).qtThread = .ended ↔ s.qtThread = .ended := by
  obtain h | h := add_point s r c toJoin <;> rw [h]
  exact LoopPoint.notify_eq_ended

theorem add_releasing (h : (s.add r c toJoin).qtThread = .releasing i rs) :
    s.qtThread = .releasing i rs := by
  obtain h' | h' := add_point s r c toJoin
  · rw [← h', h]
  · rw [h'] at h
    exact LoopPoint.notify_eq_releasing.mp h

/-- What the block of `post` and `run` keeps: `c` waits exactly where `r` has a semaphore. -/
theorem Inv.add_inv (hi : s.Inv) {c' : ClientPoint} (hc : s.clients[r.call]? = some c')
    (hnot : c'.hasAdded = false) (hadded : c.hasAdded = true)
    (hwaits : c = .acquiring 0 ↔ r.semaphore = true) : (s.add r c toJoin).Inv := by
  have hlt : r.call < s.clients.length := (List.getElem?_eq_some_iff.mp hc).1
  have hfresh := hi.fresh hc hnot
  refine ⟨?_, ?_, ?_, ?_, ?_, ?_, hi.flag, ?_, ?_, ?_⟩
  · rw [add_batch]
    change s.added ++ [r.call] = s.started ++ (_ ++ (s.pendingRunnables ++ [r])).map _
    have hmap := @List.map_append _ _ Runnable.call (s.qtThread.batch ++ s.pendingRunnables) [r]
    rw [hi.order, ← List.append_assoc _ _ [r], hmap, List.append_assoc]
    rfl
  · rw [add_current]
    exact hi.current
  · apply List.nodup_append.mpr
    refine ⟨hi.distinct, List.nodup_singleton _, ?_⟩
    rintro a ha b hb rfl
    rw [List.mem_singleton.mp hb] at ha
    exact hfresh ha
  · intro j hmem
    change ∃ c', (s.clients.set r.call c)[j]? = some c' ∧ _
    by_cases hj : j = r.call
    · subst hj
      exact ⟨c, List.getElem?_set_self hlt, hadded⟩
    · rw [List.getElem?_set_ne (Ne.symm hj)]
      apply hi.known
      obtain hmem | hmem := List.mem_append.mp hmem
      · exact hmem
      · exact absurd (List.mem_singleton.mp hmem) hj
  · intro j
    rw [add_unreleased]
    change (s.clients.set r.call c)[j]? = _ ↔ _ ∈ _ ++ (s.pendingRunnables ++ [r])
    rw [← List.append_assoc, List.mem_append, ← hi.acquiring j, List.mem_singleton]
    by_cases hj : j = r.call
    · subst hj
      rw [List.getElem?_set_self hlt, Option.some.injEq, hwaits, hc]
      have hne : ¬ some c' = some (.acquiring 0) := by
        rintro ⟨⟩
        cases hnot
      rw [or_iff_right hne]
      cases r
      simp [eq_comm]
    · rw [List.getElem?_set_ne (Ne.symm hj)]
      have hne : ¬ (⟨j, true⟩ : Runnable) = r := by
        rintro rfl
        exact hj rfl
      rw [or_iff_left hne]
  · intro i rs h
    exact hi.releasing i rs (add_releasing h)
  · intro h
    exact hi.ended (add_ended.mp h)
  · intro h
    exact add_ended.mpr (hi.returned h)
  · exact hi.promised.trans (List.prefix_append _ _)

theorem Inv.takeBatch_inv (hi : s.Inv) {q : LoopPoint} (hq : s.qtThread = q) (hne : q ≠ .ended)
    (hbatch : q.batch = []) (hcurrent : q.current = none) (hunreleased : q.unreleased = []) :
    s.takeBatch.Inv := by
  subst hq
  refine ⟨?_, ?_, hi.distinct, hi.known, ?_, nofun, hi.flag, nofun,
    fun hr => absurd (hi.returned hr) hne, hi.promised⟩
  · change s.added = s.started ++ (s.pendingRunnables ++ []).map _
    rw [List.append_nil, hi.order, hbatch, List.nil_append]
  · have hstarted := hi.current
    rw [hcurrent] at hstarted
    exact hstarted
  · intro i
    change _ ↔ _ ∈ s.pendingRunnables ++ []
    have hacquiring := hi.acquiring i
    rw [hunreleased, List.nil_append] at hacquiring
    rw [List.append_nil]
    exact hacquiring

theorem Inv.start_inv (hi : s.Inv) (hp : s.qtThread = .running (r :: rs)) :
    Inv { s with qtThread := .inside r rs, started := s.started ++ [r.call] } := by
  have hreturned : s.exitCall ≠ .returned := fun h => nomatch hp.symm.trans (hi.returned h)
  have horder := hi.order
  have hcurrent := hi.current
  have hacquiring := hi.acquiring
  rw [hp] at horder hcurrent hacquiring
  refine ⟨?_, ?_, hi.distinct, hi.known, hacquiring, nofun, hi.flag, nofun,
    fun h => absurd h hreturned, hi.promised⟩
  · change s.added = s.started ++ [r.call] ++ (rs ++ s.pendingRunnables).map _
    rw [horder, List.append_assoc]
    rfl
  · change s.started ++ [r.call] = s.executed ++ [r.call]
    rw [hcurrent]
    exact congrArg (· ++ [r.call]) (List.append_nil _)

theorem Inv.finish_inv (hi : s.Inv) (hp : s.qtThread = .inside r rs) :
    Inv { s with
      qtThread := if r.semaphore then .releasing r.call rs else .running rs
      executed := s.executed ++ [r.call] } := by
  have hreturned : s.exitCall ≠ .returned := fun h => nomatch hp.symm.trans (hi.returned h)
  have horder := hi.order
  have hcurrent := hi.current
  have hacquiring := hi.acquiring
  rw [hp] at horder hcurrent hacquiring
  have hstarted : s.started = s.executed ++ [r.call] := hcurrent
  cases hsem : r.semaphore with
  | true =>
    refine ⟨horder, ?_, hi.distinct, hi.known, ?_, ?_, hi.flag, nofun,
      fun h => absurd h hreturned, hi.promised⟩
    · rw [hstarted]
      exact (List.append_nil _).symm
    · intro i
      rw [hacquiring i]
      change _ ∈ (r :: rs) ++ _ ↔ _ ∈ (⟨r.call, true⟩ :: rs) ++ _
      rw [← hsem]
    · rintro i rs' ⟨⟩
      change r.call ∈ s.started
      rw [hstarted]
      exact List.mem_append_right _ (List.mem_singleton_self _)
  | false =>
    refine ⟨horder, ?_, hi.distinct, hi.known, ?_, nofun, hi.flag, nofun,
      fun h => absurd h hreturned, hi.promised⟩
    · rw [hstarted]
      exact (List.append_nil _).symm
    · intro i
      rw [hacquiring i]
      change _ ∈ r :: (rs ++ _) ↔ _ ∈ rs ++ s.pendingRunnables
      rw [List.mem_cons, or_iff_right]
      rintro rfl
      cases hsem

theorem Inv.release_inv (hi : s.Inv) (hp : s.qtThread = .releasing i rs) :
    Inv { s with
      qtThread := .running rs
      clients := s.clients.modify i ClientPoint.release } := by
  have hreturned : s.exitCall ≠ .returned := fun h => nomatch hp.symm.trans (hi.returned h)
  have hstarted := hi.releasing i rs hp
  have horder := hi.order
  have hcurrent := hi.current
  have hacquiring := hi.acquiring
  rw [hp] at horder hcurrent hacquiring
  have hnot : i ∉ (rs ++ s.pendingRunnables).map Runnable.call := by
    have hdistinct := hi.distinct
    rw [horder] at hdistinct
    intro hmem
    exact (List.nodup_append.mp hdistinct).2.2 i hstarted i hmem rfl
  refine ⟨horder, hcurrent, hi.distinct, ?_, ?_, nofun, hi.flag, nofun,
    fun h => absurd h hreturned, hi.promised⟩
  · intro j hmem
    obtain ⟨c, hc, hadded⟩ := hi.known j hmem
    change ∃ c, (s.clients.modify i _)[j]? = some c ∧ _
    rw [List.getElem?_modify, hc]
    refine ⟨_, rfl, ?_⟩
    cases c <;> split_ifs <;> first | rfl | cases hadded
  · intro j
    change (s.clients.modify i _)[j]? = _ ↔ _ ∈ rs ++ s.pendingRunnables
    by_cases hj : i = j
    · subst hj
      have hwaits : s.clients[i]? = some (.acquiring 0) :=
        (hacquiring i).mpr List.mem_cons_self
      rw [List.getElem?_modify, hwaits]
      apply iff_of_false
      · simp [ClientPoint.release]
      · intro hmem
        exact hnot (List.mem_map_of_mem hmem)
    · rw [List.getElem?_modify_ne _ _ hj, hacquiring j]
      change _ ∈ _ :: (rs ++ _) ↔ _
      rw [List.mem_cons, or_iff_right]
      rintro ⟨⟩
      exact hj rfl

theorem Inv.resume_inv (hi : s.Inv) (h : s.resume s.qtThread = some t) : t.Inv := by
  cases hp : s.qtThread with
  | test =>
    rw [hp] at h
    cases h
    split_ifs with hexit
    · exact hi.move hp nofun rfl rfl rfl nofun fun _ => hexit
    · exact hi.move hp nofun rfl rfl rfl nofun nofun
  | entering =>
    rw [hp] at h
    cases h
    split_ifs
    · exact hi.move hp nofun rfl rfl rfl nofun nofun
    · exact hi.takeBatch_inv hp nofun rfl rfl rfl
  | waiting =>
    rw [hp] at h
    cases h
  | woken =>
    rw [hp] at h
    cases h
    exact hi.takeBatch_inv hp nofun rfl rfl rfl
  | running rs =>
    cases rs with
    | nil =>
      rw [hp] at h
      cases h
      exact hi.move hp nofun rfl rfl rfl nofun nofun
    | cons r rs =>
      rw [hp] at h
      cases h
      exact hi.start_inv hp
  | inside r rs =>
    rw [hp] at h
    cases h
    exact hi.finish_inv hp
  | releasing i rs =>
    rw [hp] at h
    cases h
    exact hi.release_inv hp
  | ended =>
    rw [hp] at h
    cases h

theorem Inv.acquire_inv (hi : s.Inv) {permits : ℕ}
    (hc : s.clients[i]? = some (.acquiring (permits + 1))) :
    Inv { s with clients := s.clients.set i .returned } := by
  have hlt : i < s.clients.length := (List.getElem?_eq_some_iff.mp hc).1
  refine ⟨hi.order, hi.current, hi.distinct, ?_, ?_, hi.releasing, hi.flag, hi.ended, hi.returned,
    hi.promised⟩
  · intro j hmem
    change ∃ c, (s.clients.set i _)[j]? = some c ∧ _
    by_cases hj : i = j
    · subst hj
      exact ⟨.returned, List.getElem?_set_self hlt, rfl⟩
    · rw [List.getElem?_set_ne hj]
      exact hi.known j hmem
  · intro j
    rw [← hi.acquiring j]
    change (s.clients.set i _)[j]? = _ ↔ _
    by_cases hj : i = j
    · subst hj
      rw [List.getElem?_set_self hlt, hc]
      simp
    · rw [List.getElem?_set_ne hj]

theorem next_add (h : s.next (.add i toJoin) = some t) :
    (toJoin = true → s.exitCall = .joining) ∧
      ((s.clients[i]? = some .posting ∧ t = s.add ⟨i, false⟩ .returned toJoin) ∨
        s.clients[i]? = some .running ∧ t = s.add ⟨i, true⟩ (.acquiring 0) toJoin) := by
  obtain ⟨hjoin, h⟩ := Option.ite_none_right_eq_some.mp h
  obtain ⟨c, hc, h⟩ := Option.bind_eq_some_iff.mp h
  refine ⟨hjoin, ?_⟩
  cases c with
  | posting => exact .inl ⟨hc, (Option.some.inj h).symm⟩
  | running => exact .inr ⟨hc, (Option.some.inj h).symm⟩
  | acquiring n => cases h
  | returned => cases h

theorem next_acquire (h : s.next (.acquire i) = some t) :
    (∃ permits, s.clients[i]? = some (.acquiring (permits + 1))) ∧
      t = { s with clients := s.clients.set i .returned } := by
  obtain ⟨c, hc, h⟩ := Option.bind_eq_some_iff.mp h
  cases c with
  | acquiring n =>
    cases n with
    | zero => cases h
    | succ n => exact ⟨⟨n, hc⟩, (Option.some.inj h).symm⟩
  | posting => cases h
  | running => cases h
  | returned => cases h

theorem Inv.next_inv (hi : s.Inv) (h : s.next step = some t) : t.Inv := by
  cases step with
  | callPost =>
    cases h
    exact hi.call_inv rfl
  | callRun =>
    cases h
    exact hi.call_inv rfl
  | add i toJoin =>
    obtain ⟨-, ⟨hc, rfl⟩ | ⟨hc, rfl⟩⟩ := next_add h
    · exact @Inv.add_inv s .returned ⟨i, false⟩ toJoin hi .posting hc rfl rfl (by simp)
    · exact @Inv.add_inv s (.acquiring 0) ⟨i, true⟩ toJoin hi .running hc rfl rfl (by simp)
  | acquire i =>
    obtain ⟨⟨permits, hc⟩, rfl⟩ := next_acquire h
    exact hi.acquire_inv hc
  | callExit =>
    obtain ⟨hcall, h⟩ := Option.ite_none_right_eq_some.mp h
    cases h
    have hflag : ¬ s.exit = true := fun hflag => (hi.flag.mp hflag).1 hcall
    exact ⟨hi.order, hi.current, hi.distinct, hi.known, hi.acquiring, hi.releasing,
      iff_of_false hflag (fun hne => hne.2 rfl), hi.ended, nofun, List.prefix_rfl⟩
  | setExit =>
    obtain ⟨-, h⟩ := Option.ite_none_right_eq_some.mp h
    cases h
    exact ⟨hi.order, hi.current, hi.distinct, hi.known, hi.acquiring, hi.releasing,
      iff_of_true rfl ⟨nofun, nofun⟩, fun _ => rfl, nofun, hi.promised⟩
  | notifyExit =>
    obtain ⟨hcall, h⟩ := Option.ite_none_right_eq_some.mp h
    cases h
    have hflag : s.exit = true := hi.flag.mpr (by rw [hcall]; exact ⟨nofun, nofun⟩)
    refine ⟨?_, ?_, hi.distinct, hi.known, ?_, ?_, iff_of_true hflag ⟨nofun, nofun⟩, fun _ => hflag,
      nofun, hi.promised⟩
    · rw [LoopPoint.batch_notify]
      exact hi.order
    · rw [LoopPoint.current_notify]
      exact hi.current
    · rw [LoopPoint.unreleased_notify]
      exact hi.acquiring
    · intro i rs hp
      exact hi.releasing i rs (LoopPoint.notify_eq_releasing.mp hp)
  | joined =>
    obtain ⟨⟨hcall, hended⟩, h⟩ := Option.ite_none_right_eq_some.mp h
    cases h
    exact ⟨hi.order, hi.current, hi.distinct, hi.known, hi.acquiring, hi.releasing,
      iff_of_true (hi.ended hended) ⟨nofun, nofun⟩, hi.ended, fun _ => hended, hi.promised⟩
  | loop => exact hi.resume_inv h
  | wake =>
    obtain ⟨hp, h⟩ := Option.ite_none_right_eq_some.mp h
    cases h
    exact hi.move hp nofun rfl rfl rfl nofun nofun

end QtThread

end EnvironmentCheck
