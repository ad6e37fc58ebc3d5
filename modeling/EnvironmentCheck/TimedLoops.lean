import EnvironmentCheck.WakeUps

namespace EnvironmentCheck

open MessageLoopTaskQueues Transition

variable {C : Type}

/-- The queues of the loops, and the loops whose timer has fired and that still ask
`GetNextTaskToRun` for what is due by then. -/
structure TimedLoops (C : Type) where
  queues : MessageLoopTaskQueues C
  draining : TaskQueueId → Option TimePoint

inductive LoopEvent (C : Type) where
  | createLoop
  | call (c : QueueCall C)
  | timerFired (queueId : TaskQueueId) (now : TimePoint)
  | drainStep (thread : ThreadId) (queueId : TaskQueueId)

namespace MessageLoopTaskQueues

variable {s t : MessageLoopTaskQueues C} {q x : TaskQueueId}

def disarm (s : MessageLoopTaskQueues C) (queueId : TaskQueueId) : MessageLoopTaskQueues C :=
  s.modifyEntry queueId fun e => { e with wakeable := e.wakeable.map fun _ => ⟨none⟩ }

theorem sameLinks_disarm : SameLinks s (s.disarm q) :=
  sameLinks_modifyEntry (fun _ => rfl) fun _ => rfl

theorem source_disarm : (s.disarm q).source x = s.source x :=
  source_modifyEntry fun _ => rfl

theorem wakeable_disarm : (s.disarm q).wakeable x =
    if x = q then (s.wakeable q).map fun _ => ⟨none⟩ else s.wakeable x := by
  unfold disarm wakeable
  rw [modifyEntry_queueEntries]
  split_ifs with hx
  · cases s.queueEntries q <;> rfl
  · rfl

end MessageLoopTaskQueues

namespace TimedLoops

def create (thread : ThreadId) : TimedLoops C := ⟨.create thread, fun _ => none⟩

def next (l : TimedLoops C) : LoopEvent C → Option (TimedLoops C)
  | .createLoop => l.queues.createLoop.map fun queues => { l with queues := queues }
  | .call c =>
    if Ordinary c then (l.queues.next c).map fun queues => { l with queues := queues } else none
  | .timerFired q now =>
    match l.draining q, l.queues.armed q with
    | none, some time =>
      if time ≤ now then some ⟨l.queues.disarm q, Function.update l.draining q (some now)⟩ else none
    | _, _ => none
  | .drainStep thread q =>
    (l.draining q).bind fun now =>
      (l.queues.getNextTaskToRun thread q now).map fun r =>
        ⟨r.2, if r.1 = none then Function.update l.draining q none else l.draining⟩

def NoLostWakeUp (l : TimedLoops C) : Prop :=
  ∀ q, l.queues.Registered q → l.queues.subsumedBy q = none → l.draining q = none →
    l.queues.Covered q

def Balanced (l : TimedLoops C) : LoopEvent C → Prop
  | .call c => l.queues.PauseOutstanding c
  | _ => True

instance (l : TimedLoops C) : DecidablePred l.Balanced
  | .call c => inferInstanceAs (Decidable (l.queues.PauseOutstanding c))
  | .createLoop | .timerFired _ _ | .drainStep _ _ => .isTrue trivial

/-- Resuming a subsumed queue shows its owner nothing that the owner has no timer for. -/
def ResumeForeseen (l : TimedLoops C) : LoopEvent C → Prop
  | .call (.resumeSecondarySource q) => ∀ o, l.queues.subsumedBy q = some o → l.draining o = none →
      ∀ src, l.queues.source q = some src → src.secondaryPauseRequests = 1 →
        ∀ u ∈ src.secondaryTaskQueue.elems,
          ∃ time, l.queues.armed o = some time ∧ time ≤ u.targetTime
  | _ => True

structure Inv (l : TimedLoops C) : Prop where
  forest : ∃ F, Represents l.queues F
  sources : l.queues.SoundSources
  wired : l.queues.Wired

variable {l m : TimedLoops C} {e : LoopEvent C}

theorem inv_create (thread : ThreadId) : (create (C := C) thread).Inv := by
  constructor
  · exact ⟨.empty, represents_create thread⟩
  · constructor <;> simp [create, source, MessageLoopTaskQueues.create]
  · intro q hq
    simp [create, Registered, MessageLoopTaskQueues.create] at hq

theorem inv_call {t : MessageLoopTaskQueues C} {draining : TaskQueueId → Option TimePoint}
    (h : l.Inv) {c : QueueCall C} (hc : Ordinary c) (hp : l.queues.PauseOutstanding c)
    (hn : l.queues.next c = some t) : Inv ⟨t, draining⟩ := by
  obtain ⟨F, hF⟩ := h.forest
  obtain ⟨F', -, hF'⟩ := represents_next hF (allowed_of_ordinary hc) hn
  have hcover := coverStep_next hF h.sources h.wired hc hp hn
  exact ⟨⟨F', hF'⟩, soundSources_next h.sources hp hn, hcover.linked_wired h.wired⟩

theorem inv_createLoop {t : MessageLoopTaskQueues C} {draining : TaskQueueId → Option TimePoint}
    (h : l.Inv) (hn : l.queues.createLoop = some t) : Inv ⟨t, draining⟩ := by
  obtain ⟨F, hF⟩ := h.forest
  obtain ⟨hfirst, hsecond⟩ := createLoop_steps hn
  have hcreated := soundSources_next h.sources (c := .createTaskQueue) trivial hfirst
  have hsound := soundSources_next hcreated (c := .setWakeable _ _) trivial hsecond
  refine ⟨represents_createLoop hF hn, hsound, ?_⟩
  intro q hq
  have hentry := createLoop_queueEntries hn (x := q)
  by_cases hnew : q = l.queues.taskQueueIdCounter
  · rw [if_pos hnew] at hentry
    simp [wakeable, hentry]
  · rw [if_neg hnew] at hentry
    have hw := h.wired q ((registered_congr hentry).mp hq)
    rw [wakeable] at hw ⊢
    rwa [hentry]

theorem inv_timerFired {q : TaskQueueId} {draining : TaskQueueId → Option TimePoint} (h : l.Inv) :
    Inv ⟨l.queues.disarm q, draining⟩ := by
  obtain ⟨F, hF⟩ := h.forest
  refine ⟨⟨F, hF.sameLinks sameLinks_disarm⟩, h.sources.congr fun _ => source_disarm, ?_⟩
  intro x hx
  have hw := h.wired x ((sameLinks_disarm.registered x).mp hx)
  rw [wakeable_disarm]
  split_ifs with hxq
  · rw [Option.isSome_map, ← hxq]
    exact hw
  · exact hw

theorem next_call {c : QueueCall C} (hn : l.next (.call c) = some m) :
    Ordinary c ∧ ∃ t, l.queues.next c = some t ∧ m = { l with queues := t } := by
  simp only [next] at hn
  split_ifs at hn with hc
  obtain ⟨t, ht, hm⟩ := Option.map_eq_some_iff.mp hn
  exact ⟨hc, t, ht, hm.symm⟩

theorem next_timerFired {q : TaskQueueId} {now : TimePoint}
    (hn : l.next (.timerFired q now) = some m) :
    m = ⟨l.queues.disarm q, Function.update l.draining q (some now)⟩ := by
  simp only [next] at hn
  split at hn
  · split_ifs at hn
    exact (Option.some.inj hn).symm
  · cases hn

theorem inv_next (h : l.Inv) (hb : l.Balanced e) (hn : l.next e = some m) : m.Inv := by
  cases e with
  | createLoop =>
    obtain ⟨t, ht, rfl⟩ := Option.map_eq_some_iff.mp hn
    exact inv_createLoop h ht
  | call c =>
    obtain ⟨hc, t, ht, rfl⟩ := next_call hn
    exact inv_call h hc hb ht
  | timerFired q now =>
    rw [next_timerFired hn]
    exact inv_timerFired h
  | drainStep thread q =>
    obtain ⟨now, -, hn⟩ := Option.bind_eq_some_iff.mp hn
    obtain ⟨⟨c, t⟩, hg, rfl⟩ := Option.map_eq_some_iff.mp hn
    have hcall : l.queues.next (.getNextTaskToRun thread q now) = some t := by
      simp [MessageLoopTaskQueues.next, hg]
    exact inv_call h (c := .getNextTaskToRun thread q now) trivial trivial hcall

theorem noLostWakeUp_createLoop {t : MessageLoopTaskQueues C} (hi : l.Inv) (hp : l.NoLostWakeUp)
    (hn : l.queues.createLoop = some t) : NoLostWakeUp { l with queues := t } := by
  obtain ⟨F, hF⟩ := hi.forest
  have hentry := fun x => createLoop_queueEntries hn (x := x)
  have hfresh : ∀ x, l.queues.Registered x → x ≠ l.queues.taskQueueIdCounter := by
    intro x hx
    exact Nat.ne_of_lt (hF.fresh x hx)
  intro q hq hsub hidle
  by_cases hnew : q = l.queues.taskQueueIdCounter
  · rintro ⟨x, u⟩ ⟨hx, src, hsrc, hu⟩
    have he := hentry q
    rw [if_pos hnew] at he
    have hxq : x = q := by
      rcases hx with hx | hx
      · exact hx
      · simp [ownerOf_eq he, TaskQueueEntry.create, Ordered.empty] at hx
    subst hxq
    rw [source_eq he, Option.some.injEq] at hsrc
    rw [← hsrc] at hu
    simp [TaskQueueEntry.create, TaskSource.create, TaskSource.visible] at hu
  · have he := hentry q
    rw [if_neg hnew] at he
    have hold : l.queues.Registered q := (registered_congr he).mp hq
    have hroot : l.queues.subsumedBy q = none := by
      rw [subsumedBy] at hsub ⊢
      rwa [← he]
    have hown : t.ownerOf q = l.queues.ownerOf q := by rw [ownerOf, ownerOf, he]
    apply (hp q hold hroot hidle).mono
    · apply le_of_eq
      apply visible_congr hown
      intro x hx
      have hreg : l.queues.Registered x := by
        rcases hx with rfl | hx
        · exact hold
        · exact hF.linked q x hx
      have hx' := hentry x
      rw [if_neg (hfresh x hreg)] at hx'
      rw [source, source, hx']
    · apply armed_congr
      rw [wakeable, wakeable, he]

theorem noLostWakeUp_timerFired {q : TaskQueueId} {now : TimePoint} (hp : l.NoLostWakeUp) :
    NoLostWakeUp ⟨l.queues.disarm q, Function.update l.draining q (some now)⟩ := by
  intro x hx hsub hidle
  have hxq : x ≠ q := by
    rintro rfl
    simp at hidle
  have hbefore : l.draining x = none := by
    rw [← hidle]
    exact (Function.update_of_ne hxq _ _).symm
  have hlinks : SameLinks l.queues (l.queues.disarm q) := sameLinks_disarm
  rw [hlinks.registered] at hx
  rw [hlinks.subsumedBy] at hsub
  apply (hp x hx hsub hbefore).mono
  · exact (visible_congr (hlinks.ownerOf x) fun _ _ => source_disarm).le
  · apply armed_congr
    rw [wakeable_disarm, if_neg hxq]

theorem noLostWakeUp_drainStep {thread : ThreadId} {q : TaskQueueId} {now : TimePoint}
    {c : Closure C} {t : MessageLoopTaskQueues C} (hi : l.Inv) (hp : l.NoLostWakeUp)
    (hg : l.queues.getNextTaskToRun thread q now = some (c, t)) :
    NoLostWakeUp ⟨t, if c = none then Function.update l.draining q none else l.draining⟩ := by
  obtain ⟨F, hF⟩ := hi.forest
  obtain ⟨hcover, hself⟩ := coverStep_getNextTaskToRun hF.linked hi.sources hi.wired hg
  intro x hx hsub hidle
  by_cases hxq : x = q
  · subst hxq
    exact hself hx hsub
  · have hbefore : l.draining x = none := by
      change (if c = none then Function.update l.draining q none else l.draining) x = none at hidle
      split_ifs at hidle
      · rwa [Function.update_of_ne hxq] at hidle
      · exact hidle
    rcases hcover.rest x id hx hsub with hcov | ⟨hsub', hvis, harmed⟩
    · exact hcov
    · exact (hp x ((hcover.registered x).mp hx) hsub' hbefore).mono hvis harmed

theorem mem_visible_resumeSecondary {src : TaskSource C} (hpos : 0 < src.secondaryPauseRequests)
    {u : DelayedTask C} :
    u ∈ src.resumeSecondary.visible ↔ u ∈ src.visible ∨
      src.secondaryPauseRequests = 1 ∧ u ∈ src.secondaryTaskQueue.elems := by
  have hafter : src.resumeSecondary.visible = src.primaryTaskQueue.elems ++
      if 0 < src.secondaryPauseRequests - 1 then [] else src.secondaryTaskQueue.elems := rfl
  rw [hafter, TaskSource.visible, if_pos hpos]
  by_cases hone : src.secondaryPauseRequests = 1
  · simp [hone]
  · have hmore : 0 < src.secondaryPauseRequests - 1 := by omega
    rw [if_pos hmore]
    simp [hone]

theorem covered_resumed {q o : TaskQueueId} {t : MessageLoopTaskQueues C} (hi : l.Inv)
    (hp : l.NoLostWakeUp) (hb : l.Balanced (.call (.resumeSecondarySource q)))
    (hsub : l.queues.subsumedBy q = some o) (hidle : l.draining o = none)
    (hn : l.queues.resumeSecondarySource q = some t) :
    t.Covered o ↔ ∀ src, l.queues.source q = some src → src.secondaryPauseRequests = 1 →
      ∀ u ∈ src.secondaryTaskQueue.elems,
        ∃ time, l.queues.armed o = some time ∧ time ≤ u.targetTime := by
  obtain ⟨F, hF⟩ := hi.forest
  have howns : F.Owns o q := (hF.owner q).symm.trans hsub
  have ho : l.queues.Registered o := (hF.live o).mp (F.owner_live howns)
  have hroot : l.queues.subsumedBy o = none := (hF.owner o).trans (F.owner_root howns)
  have hlinks : SameLinks l.queues (l.queues.resume q) := sameLinks_resume
  have hne : (l.queues.resume q).subsumedBy q ≠ none := by simp [hlinks.subsumedBy, hsub]
  have ht := wakeUpIfPending_of_subsumed hne (resumeSecondarySource_cases hn).2
  have harmed : t.armed o = l.queues.armed o := by
    rw [ht]
    exact armed_congr wakeable_resume
  have hsource := fun x => source_resumeSecondarySource hn (x := x)
  constructor
  · intro hcov src hsrc hone u hu
    have hvis : (q, u) ∈ t.visible o := by
      refine ⟨.inr ?_, src.resumeSecondary, ?_, ?_⟩
      · rw [ht, hlinks.ownerOf, hF.ownerOf]
        exact howns
      · rw [hsource, if_pos rfl, hsrc, Option.map_some]
      · exact (mem_visible_resumeSecondary (by omega)).mpr (.inr ⟨hone, hu⟩)
    have hcovered := hcov (q, u) hvis
    rwa [harmed] at hcovered
  · rintro hforeseen ⟨x, u⟩ ⟨hx, src', hsrc', hu⟩
    rw [harmed]
    rw [ht, hlinks.ownerOf] at hx
    have hs := hsource x
    rw [show t.source x = some src' from hsrc'] at hs
    by_cases hxq : x = q
    · subst hxq
      rw [if_pos rfl] at hs
      obtain ⟨src, hsrc, rfl⟩ := Option.map_eq_some_iff.mp hs.symm
      rcases (mem_visible_resumeSecondary (hb src hsrc)).mp hu with hold | ⟨hone, hsec⟩
      · exact hp o ho hroot hidle (x, u) ⟨hx, src, hsrc, hold⟩
      · exact hforeseen src hsrc hone u hsec
    · rw [if_neg hxq] at hs
      exact hp o ho hroot hidle (x, u) ⟨hx, src', hs.symm, hu⟩

theorem noLostWakeUp_call {c : QueueCall C} {t : MessageLoopTaskQueues C} (hi : l.Inv)
    (hp : l.NoLostWakeUp) (hc : Ordinary c) (hb : l.Balanced (.call c))
    (hn : l.queues.next c = some t) :
    NoLostWakeUp { l with queues := t } ↔ l.ResumeForeseen (.call c) := by
  obtain ⟨F, hF⟩ := hi.forest
  have hcover := coverStep_next hF hi.sources hi.wired hc hb hn
  have hrest : ∀ x, ¬ l.queues.ResumedUnder c x → t.Registered x → t.subsumedBy x = none →
      l.draining x = none → t.Covered x := by
    intro x hx hreg hsub hidle
    rcases hcover.rest x hx hreg hsub with hcov | ⟨hsub', hvis, harmed⟩
    · exact hcov
    · exact (hp x ((hcover.registered x).mp hreg) hsub' hidle).mono hvis harmed
  cases c with
  | resumeSecondarySource q =>
    have hlinks := (sameLinks_resumeSecondarySource hn).subsumedBy
    constructor
    · intro h o ho hidle
      have howns : F.Owns o q := (hF.owner q).symm.trans ho
      have hreg : t.Registered o := (hcover.registered o).mpr ((hF.live o).mp (F.owner_live howns))
      have hroot : t.subsumedBy o = none :=
        (hlinks o).trans ((hF.owner o).trans (F.owner_root howns))
      exact (covered_resumed hi hp hb ho hidle hn).mp (h o hreg hroot hidle)
    · intro h x hreg hsub hidle
      by_cases hx : l.queues.ResumedUnder (.resumeSecondarySource q) x
      · obtain ⟨q', hq', ho⟩ := hx
        obtain rfl : q = q' := QueueCall.resumeSecondarySource.inj hq'
        exact (covered_resumed hi hp hb ho hidle hn).mpr (h x ho hidle)
      · exact hrest x hx hreg hsub hidle
  | _ =>
    refine iff_of_true (fun x hreg hsub hidle => hrest x ?_ hreg hsub hidle) trivial
    rintro ⟨q', hq', -⟩
    cases hq'

theorem noLostWakeUp_next (hi : l.Inv) (hb : l.Balanced e) (hn : l.next e = some m)
    (hp : l.NoLostWakeUp) : m.NoLostWakeUp ↔ l.ResumeForeseen e := by
  cases e with
  | createLoop =>
    obtain ⟨t, ht, rfl⟩ := Option.map_eq_some_iff.mp hn
    exact iff_of_true (noLostWakeUp_createLoop hi hp ht) trivial
  | call c =>
    obtain ⟨hc, t, ht, rfl⟩ := next_call hn
    exact noLostWakeUp_call hi hp hc hb ht
  | timerFired q now =>
    rw [next_timerFired hn]
    exact iff_of_true (noLostWakeUp_timerFired hp) trivial
  | drainStep thread q =>
    obtain ⟨now, -, hn⟩ := Option.bind_eq_some_iff.mp hn
    obtain ⟨⟨c, t⟩, hg, rfl⟩ := Option.map_eq_some_iff.mp hn
    exact iff_of_true (noLostWakeUp_drainStep hi hp hg) trivial

theorem noLostWakeUp_iff (thread : ThreadId) (es : List (LoopEvent C))
    (hb : Meets next Balanced (create thread) es) (hr : (run next (create thread) es).isSome) :
    Always next NoLostWakeUp (create thread) es ↔
      Meets next ResumeForeseen (create thread) es := by
  apply always_iff_meets_within (inv_create thread) _ _ _ hb hr
  · intro q hq
    simp [create, Registered, MessageLoopTaskQueues.create] at hq
  · intro l e m hi hb hn _ _
    exact inv_next hi hb hn
  · intro l e m hi hb hn hp
    exact noLostWakeUp_next hi hb hn hp

def strandedRun : List (LoopEvent Unit) :=
  [.createLoop, .createLoop, .call (.merge 0 1), .call (.pauseSecondarySource 1),
    .call (.registerTask 1 (some ()) ⟨5⟩ .kDartMicroTasks), .call (.resumeSecondarySource 1)]

theorem noLostWakeUp_iff_strandedRun :
    Always next NoLostWakeUp (create 0) strandedRun ↔
      Meets next ResumeForeseen (create 0) strandedRun :=
  noLostWakeUp_iff 0 strandedRun (by decide) (by decide)

theorem strandedRun_loses_wakeUp :
    Meets next Balanced (create 0) strandedRun ∧
      ∃ l, run next (create 0) strandedRun = some l ∧ ¬ l.NoLostWakeUp := by
  refine ⟨by decide, _, rfl, fun h => ?_⟩
  have hvisible : ∀ v ∈ MessageLoopTaskQueues.visible _ 0, _ := h 0 rfl rfl rfl
  obtain ⟨time, harmed, -⟩ := hvisible (1, ⟨0, some (), ⟨5⟩, .kDartMicroTasks⟩)
    ⟨.inr (by decide), _, rfl, by decide⟩
  cases harmed

end TimedLoops

end EnvironmentCheck
