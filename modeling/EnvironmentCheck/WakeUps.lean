import EnvironmentCheck.Dispatch

namespace EnvironmentCheck

open Transition

variable {C : Type}

namespace MessageLoopTaskQueues

variable {s t : MessageLoopTaskQueues C} {F : OwnerForest TaskQueueId} {q o x y : TaskQueueId}

def armed (s : MessageLoopTaskQueues C) (q : TaskQueueId) : Option TimePoint :=
  (s.wakeable q).bind (·.armed)

def Covered (s : MessageLoopTaskQueues C) (q : TaskQueueId) : Prop :=
  ∀ v ∈ s.visible q, ∃ time, s.armed q = some time ∧ time ≤ v.2.targetTime

def Wired (s : MessageLoopTaskQueues C) : Prop := ∀ q, s.Registered q → (s.wakeable q).isSome

theorem armed_congr (h : t.wakeable q = s.wakeable q) : t.armed q = s.armed q := by
  rw [armed, armed, h]

theorem Covered.mono (h : s.Covered q) (hv : t.visible q ⊆ s.visible q)
    (ha : t.armed q = s.armed q) : t.Covered q := by
  intro v hvis
  rw [ha]
  exact h v (hv hvis)

theorem visible_congr (ho : t.ownerOf q = s.ownerOf q)
    (hs : ∀ x, x = q ∨ x ∈ s.ownerOf q → t.source x = s.source x) : t.visible q = s.visible q := by
  ext v
  unfold visible
  rw [Set.mem_ofPred_eq, Set.mem_ofPred_eq, ho]
  apply and_congr_right
  intro hx
  rw [hs v.1 hx]

theorem wakeable_rearm (time : TimePoint) :
    (s.rearm q time).wakeable x =
      if x = q then (s.wakeable q).map (·.wakeUp time) else s.wakeable x := by
  unfold rearm wakeable
  rw [modifyEntry_queueEntries]
  split_ifs with hx
  · cases s.queueEntries q <;> rfl
  · rfl

theorem wakeable_rearm_isSome (h : (s.wakeable x).isSome) (time : TimePoint) :
    ((s.rearm q time).wakeable x).isSome := by
  rw [wakeable_rearm]
  split_ifs with hx
  · rw [Option.isSome_map, ← hx]
    exact h
  · exact h

theorem armed_rearm_of_ne (hx : x ≠ q) (time : TimePoint) : (s.rearm q time).armed x = s.armed x := by
  apply armed_congr
  rw [wakeable_rearm, if_neg hx]

theorem armed_rearm (hw : (s.wakeable q).isSome) (time : TimePoint) :
    (s.rearm q time).armed q = some time := by
  obtain ⟨w, hw⟩ := Option.isSome_iff_exists.mp hw
  unfold armed
  rw [wakeable_rearm, if_pos rfl, hw]
  rfl

theorem visible_rearm (time : TimePoint) : (s.rearm x time).visible q = s.visible q :=
  visible_congr ((sameLinks_rearm time).ownerOf q) fun _ _ => source_rearm time

theorem covered_rearm (hw : (s.wakeable q).isSome) {top : TopTask C}
    (htop : s.Foremost q (top.taskQueueId, top.task)) :
    (s.rearm q top.task.targetTime).Covered q := by
  intro v hv
  rw [visible_rearm] at hv
  exact ⟨_, armed_rearm hw _, DelayedTask.targetTime_le_of_key_le (htop.least v hv)⟩

theorem armed_wakeUpIfPending (h : s.wakeUpIfPending q = some t) (hx : x ≠ q) :
    t.armed x = s.armed x := by
  rcases wakeUpIfPending_cases h with rfl | ⟨time, -, rfl⟩
  · rfl
  · exact armed_rearm_of_ne hx time

theorem visible_wakeUpIfPending (h : s.wakeUpIfPending q = some t) :
    t.visible x = s.visible x :=
  visible_congr ((sameLinks_wakeUpIfPending h).ownerOf x) fun y _ => source_wakeUpIfPending h y

theorem covered_wakeUpIfPending (hl : s.Linked) (hs : s.SoundSources) (hq : s.Registered q)
    (hw : (s.wakeable q).isSome) (hsub : s.subsumedBy q = none)
    (h : s.wakeUpIfPending q = some t) : t.Covered q := by
  obtain ⟨e, he⟩ := registered_iff.mp hq
  have hpending := hasPendingTasksUnlocked_iff hl hs hq
  by_cases hne : (s.visible q).Nonempty
  · have hp := hpending.mpr ⟨hsub, hne⟩
    simp only [wakeUpIfPending, hp, Option.bind_eq_bind, Option.bind_some, ↓reduceIte,
      Option.bind_eq_some_iff] at h
    obtain ⟨time, htime, h⟩ := h
    simp only [wakeUpUnlocked, he, Option.bind_eq_bind, Option.bind_some] at h
    obtain ⟨top, htop, htime⟩ := Option.bind_eq_some_iff.mp htime
    rw [← Option.some.inj h, ← Option.some.inj htime]
    exact covered_rearm hw (peekNextTaskUnlocked_foremost hl hs hq htop)
  · intro v hv
    rw [visible_wakeUpIfPending h] at hv
    exact absurd ⟨v, hv⟩ hne

theorem wakeUpIfPending_of_subsumed (hsub : s.subsumedBy q ≠ none)
    (h : s.wakeUpIfPending q = some t) : t = s := by
  simp only [wakeUpIfPending, Option.bind_eq_bind, Option.bind_eq_some_iff] at h
  obtain ⟨pending, hp, h⟩ := h
  simp only [hasPendingTasksUnlocked, Option.bind_eq_bind, Option.bind_eq_some_iff] at hp
  obtain ⟨e, he, hp⟩ := hp
  rw [subsumedBy_eq he] at hsub
  rw [if_pos hsub] at hp
  obtain rfl : false = pending := Option.some.inj hp
  exact (Option.some.inj h).symm

theorem Represents.group_root (h : Represents s F) (hq : s.subsumedBy q = none)
    (hx : x = q ∨ x ∈ s.ownerOf q) : F.root x = q := by
  rcases hx with rfl | hx
  · exact F.root_eq_self ((h.owner x).symm.trans hq)
  · exact F.root_of_owns ((h.ownerOf q x).mp hx)

theorem visible_subset_mapped {f : TaskSource C → TaskSource C} (ho : t.ownerOf q = s.ownerOf q)
    (hf : ∀ src, ∀ u ∈ (f src).visible, u ∈ src.visible)
    (hs : ∀ x, t.source x = if x = y then (s.source y).map f else s.source x) :
    t.visible q ⊆ s.visible q := by
  rintro ⟨x, u⟩ ⟨hx, src', hsrc', hu⟩
  rw [ho] at hx
  have hsource := hs x
  by_cases hxy : x = y
  · subst hxy
    rw [if_pos rfl, show t.source x = some src' from hsrc'] at hsource
    obtain ⟨src, hsrc, rfl⟩ := Option.map_eq_some_iff.mp hsource.symm
    exact ⟨hx, src, hsrc, hf src u hu⟩
  · rw [if_neg hxy] at hsource
    exact ⟨hx, src', hsource.symm.trans hsrc', hu⟩

theorem visible_eq_mapped (h : Represents s F) {f : TaskSource C → TaskSource C}
    (ho : t.ownerOf q = s.ownerOf q) (hq : s.subsumedBy q = none) (hne : q ≠ F.root y)
    (hs : ∀ x, t.source x = if x = y then (s.source y).map f else s.source x) :
    t.visible q = s.visible q := by
  apply visible_congr ho
  intro x hx
  have hxy : x ≠ y := by
    rintro rfl
    exact hne (h.group_root hq hx).symm
  rw [hs, if_neg hxy]

theorem SoundSources.congr (h : s.SoundSources) (hs : ∀ x, t.source x = s.source x) :
    t.SoundSources :=
  ⟨SourcesNamed.congr h.taskQueueId hs, fun q src hq => h.pauses q src (hs q ▸ hq)⟩

theorem SoundSources.mapped (h : s.SoundSources) {f : TaskSource C → TaskSource C}
    (hid : ∀ src, (f src).taskQueueId = src.taskQueueId)
    (hp : ∀ src, s.source y = some src → 0 ≤ (f src).secondaryPauseRequests)
    (hs : ∀ x, t.source x = if x = y then (s.source y).map f else s.source x) :
    t.SoundSources := by
  refine ⟨SourcesNamed.mapped h.taskQueueId hid hs, ?_⟩
  intro q src hq
  rw [hs] at hq
  split_ifs at hq
  · obtain ⟨src', hsrc', rfl⟩ := Option.map_eq_some_iff.mp hq
    exact hp src' hsrc'
  · exact h.pauses q src hq

/-- How a step bears on the timers: every queue but the spoilt ones is covered by the step or as
well off as before. -/
structure CoverStep (s t : MessageLoopTaskQueues C) (spoilt : TaskQueueId → Prop) : Prop where
  registered : ∀ x, t.Registered x ↔ s.Registered x
  wired : ∀ x, (s.wakeable x).isSome → (t.wakeable x).isSome
  rest : ∀ x, ¬ spoilt x → t.Registered x → t.subsumedBy x = none →
    t.Covered x ∨ (s.subsumedBy x = none ∧ t.visible x ⊆ s.visible x ∧ t.armed x = s.armed x)

theorem CoverStep.linked_wired {spoilt : TaskQueueId → Prop} (h : CoverStep s t spoilt)
    (hw : s.Wired) : t.Wired :=
  fun q hq => h.wired q (hw q ((h.registered q).mp hq))

theorem CoverStep.of_sameLinks (hl : SameLinks s t) (hw : ∀ x, t.wakeable x = s.wakeable x)
    {spoilt : TaskQueueId → Prop}
    (hv : ∀ x, ¬ spoilt x → s.subsumedBy x = none → t.visible x ⊆ s.visible x) :
    CoverStep s t spoilt where
  registered := hl.registered
  wired x hx := by rwa [hw]
  rest x hx _ hsub := by
    rw [hl.subsumedBy] at hsub
    exact .inr ⟨hsub, hv x hx hsub, armed_congr (hw x)⟩

theorem CoverStep.wakeUpIfPending {u : MessageLoopTaskQueues C} {spoilt : TaskQueueId → Prop}
    (h : CoverStep s u spoilt) (hl : u.Linked) (hs : u.SoundSources) (hw : u.Wired)
    (hq : u.Registered q) (hsub : u.subsumedBy q = none) (ht : u.wakeUpIfPending q = some t) :
    CoverStep s t fun x => spoilt x ∧ x ≠ q := by
  have hlinks := sameLinks_wakeUpIfPending ht
  constructor
  · intro x
    rw [hlinks.registered, h.registered]
  · intro x hx
    have hux := h.wired x hx
    rcases wakeUpIfPending_cases ht with rfl | ⟨time, -, rfl⟩
    · exact hux
    · exact wakeable_rearm_isSome hux time
  · intro x hx hreg hroot
    by_cases hxq : x = q
    · subst hxq
      exact .inl (covered_wakeUpIfPending hl hs hq (hw x hq) hsub ht)
    · have hnot : ¬ spoilt x := fun hsp => hx ⟨hsp, hxq⟩
      rw [hlinks.registered] at hreg
      rw [hlinks.subsumedBy] at hroot
      have harmed := armed_wakeUpIfPending ht hxq
      have hvis := visible_wakeUpIfPending ht (x := x)
      rcases h.rest x hnot hreg hroot with hcov | ⟨hs', hv, ha⟩
      · exact .inl (hcov.mono hvis.le harmed)
      · exact .inr ⟨hs', hvis.le.trans hv, harmed.trans ha⟩

theorem CoverStep.weaken {spoilt spoilt' : TaskQueueId → Prop} (h : CoverStep s t spoilt)
    (hi : ∀ x, spoilt x → spoilt' x) : CoverStep s t spoilt' :=
  ⟨h.registered, h.wired, fun x hx => h.rest x fun hsp => hx (hi x hsp)⟩

theorem SameLinks.linked (hl : SameLinks s t) (h : s.Linked) : t.Linked := by
  intro q x hx
  rw [hl.ownerOf] at hx
  exact (hl.registered x).mpr (h q x hx)

theorem wired_of_wakeable (h : s.Wired) (hl : SameLinks s t)
    (hw : ∀ x, t.wakeable x = s.wakeable x) : t.Wired := by
  intro q hq
  rw [hw]
  exact h q ((hl.registered q).mp hq)

theorem coverStep_registerTask (hF : Represents s F) (hs : s.SoundSources) (hw : s.Wired)
    {task : Closure C} {time : TimePoint} {grade : TaskSourceGrade}
    (h : s.registerTask q task time grade = some t) : CoverStep s t fun _ => False := by
  obtain ⟨hq, hwake⟩ := registerTask_cases h
  have hlinks : SameLinks s (s.addTask q ⟨orderStamp s.order, task, time, grade⟩) :=
    sameLinks_addTask
  have hwakeable : ∀ x, (s.addTask q ⟨orderStamp s.order, task, time, grade⟩).wakeable x =
      s.wakeable x :=
    fun x => wakeable_modifyEntry (s := { s with order := s.order + 1 }) fun _ => rfl
  have hroot : (s.subsumedBy q).getD q = F.root q := by rw [hF.owner]; rfl
  have hlive : s.Registered (F.root q) := (hF.live _).mp (F.root_live ((hF.live q).mpr hq))
  rw [hroot] at hwake
  have hadd : CoverStep s (s.addTask q ⟨orderStamp s.order, task, time, grade⟩)
      (· = F.root q) := by
    apply CoverStep.of_sameLinks hlinks hwakeable
    intro x hx hsub
    exact (visible_eq_mapped hF (hlinks.ownerOf x) hsub hx fun y => source_addTask).le
  have hsound : (s.addTask q ⟨orderStamp s.order, task, time, grade⟩).SoundSources := by
    apply hs.mapped (fun _ => TaskSource.registerTask_taskQueueId) _ fun y => source_addTask
    intro src hsrc
    rw [TaskSource.registerTask_pauses]
    exact hs.pauses q src hsrc
  have hcover := hadd.wakeUpIfPending (hlinks.linked hF.linked) hsound
    (wired_of_wakeable hw hlinks hwakeable) ((hlinks.registered _).mpr hlive)
    ((hlinks.subsumedBy _).trans ((hF.owner _).trans (F.owner_root_eq_none q))) hwake
  exact hcover.weaken fun x hx => hx.2 hx.1

theorem coverStep_merge (hF : Represents s F) (hs : s.SoundSources) (hw : s.Wired) {b : Bool}
    (h : s.merge o x = some (b, t)) : CoverStep s t fun _ => False := by
  rcases merge_cases h with ⟨rfl, -⟩ | ⟨-, hne, ho, hx, hroot, hfree, hleaf, hwake⟩
  · exact CoverStep.of_sameLinks (.refl _) (fun _ => rfl) fun _ _ _ => subset_rfl
  have hF' := hF.setMerged ((hF.live o).mpr ho) ((hF.live x).mpr hx) hne
    ((hF.owner o).symm.trans hroot) (hF.not_isOwner hleaf) ((hF.owner x).symm.trans hfree)
  have hwakeable : ∀ y, (s.setMerged o x).wakeable y = s.wakeable y := by
    intro y
    unfold setMerged
    rw [wakeable_modifyEntry, wakeable_modifyEntry]
    all_goals
      intro e
      rfl
  have hsub : (s.setMerged o x).subsumedBy o = none := by
    rw [subsumedBy_setMerged hne hx, if_neg hne, hroot]
  have hset : CoverStep s (s.setMerged o x) (· = o) := by
    constructor
    · intro y
      exact registered_setMerged
    · intro y hy
      rwa [hwakeable]
    · intro y hy hreg hysub
      rw [subsumedBy_setMerged hne hx] at hysub
      split_ifs at hysub with hyx
      refine .inr ⟨hysub, ?_, armed_congr (hwakeable y)⟩
      rintro ⟨z, u⟩ ⟨hz, src, hsrc, hu⟩
      rw [mem_ownerOf_setMerged hne ho] at hz
      rw [source_setMerged] at hsrc
      have hz' : z = y ∨ z ∈ s.ownerOf y := by
        rcases hz with hz | hz | ⟨hz, -⟩
        · exact .inl hz
        · exact .inr hz
        · exact absurd hz hy
      exact ⟨hz', src, hsrc, hu⟩
  have hcover := hset.wakeUpIfPending hF'.linked (hs.congr fun _ => source_setMerged)
    (hset.linked_wired hw) (registered_setMerged.mpr ho) hsub hwake
  exact hcover.weaken fun y hy => hy.2 hy.1

theorem coverStep_unmerge (hF : Represents s F) (hs : s.SoundSources) (hw : s.Wired) {b : Bool}
    (h : s.unmerge o x = some (b, t)) : CoverStep s t fun _ => False := by
  rcases unmerge_cases h with ⟨-, rfl⟩ | ⟨-, hroot, hmem, u, hu, ht⟩
  · exact CoverStep.of_sameLinks (.refl _) (fun _ => rfl) fun _ _ _ => subset_rfl
  have hown : F.Owns o x := (hF.ownerOf o x).mp hmem
  have hne : o ≠ x := fun he => F.not_owns_self x (he ▸ hown)
  have hF' := hF.setUnmerged hown
  have ho : s.Registered o := (hF.live o).mp (F.owner_live hown)
  have hx : s.Registered x := (hF.live x).mp (F.owned_live hown)
  have hwakeable : ∀ y, (s.setUnmerged o x).wakeable y = s.wakeable y := by
    intro y
    unfold setUnmerged
    rw [wakeable_modifyEntry, wakeable_modifyEntry]
    all_goals
      intro e
      rfl
  have hsub : ∀ y, (s.setUnmerged o x).subsumedBy y = if y = x then none else s.subsumedBy y :=
    fun y => subsumedBy_setUnmerged hne
  have hset : CoverStep s (s.setUnmerged o x) fun y => y = o ∨ y = x := by
    constructor
    · intro y
      exact registered_setUnmerged
    · intro y hy
      rwa [hwakeable]
    · intro y hy hreg hysub
      rw [hsub, if_neg fun he => hy (.inr he)] at hysub
      refine .inr ⟨hysub, ?_, armed_congr (hwakeable y)⟩
      rintro ⟨z, v⟩ ⟨hz, src, hsrc, hv⟩
      rw [mem_ownerOf_setUnmerged hne] at hz
      rw [source_setUnmerged] at hsrc
      exact ⟨hz.imp_right And.left, src, hsrc, hv⟩
  have hlinks := sameLinks_wakeUpIfPending hu
  have hsound := hs.congr (t := s.setUnmerged o x) fun _ => source_setUnmerged
  have hfirst := hset.wakeUpIfPending hF'.linked hsound (hset.linked_wired hw)
    (registered_setUnmerged.mpr ho) ((hsub o).trans ((if_neg hne).trans hroot)) hu
  have hsecond := hfirst.wakeUpIfPending (hlinks.linked hF'.linked)
    (hsound.congr fun y => source_wakeUpIfPending hu y) (hfirst.linked_wired hw)
    ((hlinks.registered x).mpr (registered_setUnmerged.mpr hx))
    ((hlinks.subsumedBy x).trans ((hsub x).trans (if_pos rfl))) ht
  apply hsecond.weaken
  rintro y ⟨⟨hy, hyo⟩, hyx⟩
  rcases hy with hy | hy
  · exact hyo hy
  · exact hyx hy

theorem coverStep_pauseSecondarySource (h : s.pauseSecondarySource q = some t) :
    CoverStep s t fun _ => False := by
  have hsource : ∀ x, t.source x = if x = q then (s.source q).map (·.pauseSecondary)
      else s.source x := fun x => source_pauseSecondarySource h
  rw [(pauseSecondarySource_cases h).2] at hsource ⊢
  have hlinks : SameLinks s (s.modifyEntry q fun e =>
      { e with taskSource := e.taskSource.pauseSecondary }) :=
    sameLinks_modifyEntry (fun _ => rfl) fun _ => rfl
  apply CoverStep.of_sameLinks hlinks fun x => wakeable_modifyEntry fun _ => rfl
  intro x _ _
  apply visible_subset_mapped (hlinks.ownerOf x) _ hsource
  intro src u hu
  rcases List.mem_append.mp hu with hp | hsec
  · exact List.mem_append_left _ hp
  · apply List.mem_append_right
    by_cases hpause : 0 < src.secondaryPauseRequests
    · have hmore : 0 < src.pauseSecondary.secondaryPauseRequests := by
        change 0 < src.secondaryPauseRequests + 1
        omega
      rw [if_pos hmore] at hsec
      cases hsec
    · rw [if_neg hpause]
      split_ifs at hsec
      · cases hsec
      · exact hsec

theorem wakeable_resume : (s.resume q).wakeable x = s.wakeable x :=
  wakeable_modifyEntry fun _ => rfl

/-- Only the owner of a subsumed queue is left without a wake-up when that queue is resumed. -/
theorem coverStep_resumeSecondarySource (hF : Represents s F) (hs : s.SoundSources) (hw : s.Wired)
    (hpause : ∀ src, s.source q = some src → 0 < src.secondaryPauseRequests)
    (h : s.resumeSecondarySource q = some t) :
    CoverStep s t fun x => s.subsumedBy q = some x := by
  obtain ⟨hq, hwake⟩ := resumeSecondarySource_cases h
  have hlinks : SameLinks s (s.resume q) := sameLinks_resume
  have hset : CoverStep s (s.resume q) (· = F.root q) := by
    apply CoverStep.of_sameLinks hlinks fun x => wakeable_resume
    intro x hx hsub
    exact (visible_eq_mapped hF (hlinks.ownerOf x) hsub hx fun y => source_resume).le
  cases hsub : s.subsumedBy q with
  | some o =>
    have hne : (s.resume q).subsumedBy q ≠ none := by simp [hlinks.subsumedBy, hsub]
    have hroot : F.root q = o := F.root_of_owns ((hF.owner q).symm.trans hsub)
    rw [wakeUpIfPending_of_subsumed hne hwake]
    exact hset.weaken fun x hx => by rw [hx, hroot]
  | none =>
    have hroot : F.root q = q := F.root_eq_self ((hF.owner q).symm.trans hsub)
    have hsound : (s.resume q).SoundSources := by
      apply hs.mapped (y := q) (f := (·.resumeSecondary)) (fun _ => rfl) _ fun _ => source_resume
      intro src hsrc
      have hpos := hpause src hsrc
      change 0 ≤ src.secondaryPauseRequests - 1
      omega
    have hcover := hset.wakeUpIfPending (hlinks.linked hF.linked) hsound
      (wired_of_wakeable hw hlinks fun x => wakeable_resume) ((hlinks.registered q).mpr hq)
      ((hlinks.subsumedBy q).trans hsub) hwake
    exact hcover.weaken fun x hx => (hx.2 (hx.1.trans hroot)).elim

theorem visible_popTask_subset {src : TaskSource C} {grade : TaskSourceGrade}
    {u : DelayedTask C} (hu : u ∈ (src.popTask grade).visible) : u ∈ src.visible := by
  unfold TaskSource.visible at hu ⊢
  rw [TaskSource.popTask_pauses] at hu
  have hsub : ∀ h, ∀ v ∈ ((src.popTask grade).heap h).elems, v ∈ (src.heap h).elems := by
    intro h v hv
    rw [TaskSource.popTask_heap] at hv
    split_ifs at hv
    · exact PriorityQueue.mem_of_mem_pop hv
    · exact hv
  rcases List.mem_append.mp hu with hp | hsec
  · exact List.mem_append_left _ (hsub .primary u hp)
  · apply List.mem_append_right
    split_ifs at hsec ⊢
    · exact hsec
    · exact hsub .secondary u hsec

theorem wakeable_popTask {grade : TaskSourceGrade} {thread : ThreadId} {tls : TaskSourceGrade} :
    ((s.popTask y grade).setTls thread tls).wakeable x = s.wakeable x :=
  wakeable_modifyEntry fun _ => rfl

theorem visible_popTask {grade : TaskSourceGrade} {thread : ThreadId} {tls : TaskSourceGrade} :
    ((s.popTask y grade).setTls thread tls).visible x ⊆ s.visible x :=
  visible_subset_mapped (sameLinks_popTask.ownerOf x) (fun _ _ => visible_popTask_subset)
    fun _ => source_popTask

theorem coverStep_rearm {time : TimePoint} (h : (s.rearm q time).Covered q) :
    CoverStep s (s.rearm q time) fun _ => False where
  registered := (sameLinks_rearm time).registered
  wired _ hx := wakeable_rearm_isSome hx time
  rest x _ _ hsub := by
    by_cases hx : x = q
    · exact .inl (hx ▸ h)
    · rw [(sameLinks_rearm time).subsumedBy] at hsub
      exact .inr ⟨hsub, (visible_rearm time).le, armed_rearm_of_ne hx time⟩

theorem CoverStep.narrow {u : MessageLoopTaskQueues C} {spoilt : TaskQueueId → Prop}
    (h : CoverStep s u spoilt) (hl : SameLinks u t) (hw : ∀ x, t.wakeable x = u.wakeable x)
    (hv : ∀ x, t.visible x ⊆ u.visible x) : CoverStep s t spoilt where
  registered x := (hl.registered x).trans (h.registered x)
  wired x hx := by
    rw [hw]
    exact h.wired x hx
  rest x hx hreg hsub := by
    rw [hl.registered] at hreg
    rw [hl.subsumedBy] at hsub
    rcases h.rest x hx hreg hsub with hcov | ⟨hroot, hvis, harmed⟩
    · exact .inl (hcov.mono (hv x) (armed_congr (hw x)))
    · exact .inr ⟨hroot, (hv x).trans hvis, (armed_congr (hw x)).trans harmed⟩

theorem coverStep_getNextTaskToRun (hl : s.Linked) (hs : s.SoundSources) (hw : s.Wired)
    {thread : ThreadId} {time : TimePoint} {c : Closure C}
    (h : s.getNextTaskToRun thread q time = some (c, t)) :
    CoverStep s t (fun _ => False) ∧
      (t.Registered q → t.subsumedBy q = none → t.Covered q) := by
  have hself : ∀ top, s.hasPendingTasksUnlocked q = some true → s.peekNextTaskUnlocked q = some top →
      (s.rearm q top.task.targetTime).Covered q := by
    intro top hp htop
    have hq : s.Registered q := registered_of_hasPendingTasksUnlocked hp
    exact covered_rearm (hw q hq) (peekNextTaskUnlocked_foremost hl hs hq htop)
  rcases getNextTaskToRun_cases h with
    ⟨hp, -, rfl⟩ | ⟨top, hp, htop, ⟨-, -, rfl⟩ | ⟨-, -, src, -, rfl⟩⟩
  · refine ⟨CoverStep.of_sameLinks (.refl _) (fun _ => rfl) fun _ _ _ => subset_rfl, ?_⟩
    intro hq hsub v hv
    have hpending := (hasPendingTasksUnlocked_iff hl hs hq).mpr ⟨hsub, v, hv⟩
    rw [hp] at hpending
    cases hpending
  · have hcov := hself top hp htop
    exact ⟨coverStep_rearm hcov, fun _ _ => hcov⟩
  · have hcov := hself top hp htop
    refine ⟨(coverStep_rearm hcov).narrow sameLinks_popTask (fun _ => wakeable_popTask)
      fun _ => visible_popTask, fun _ _ => ?_⟩
    exact hcov.mono visible_popTask (armed_congr wakeable_popTask)

def ResumedUnder (s : MessageLoopTaskQueues C) (c : QueueCall C) (o : TaskQueueId) : Prop :=
  ∃ q, c = .resumeSecondarySource q ∧ s.subsumedBy q = some o

theorem coverStep_next (hF : Represents s F) (hs : s.SoundSources) (hw : s.Wired)
    {c : QueueCall C} (hc : Ordinary c) (hp : s.PauseOutstanding c) (hn : s.next c = some t) :
    CoverStep s t (s.ResumedUnder c) := by
  have never : CoverStep s t (fun _ => False) → CoverStep s t (s.ResumedUnder c) :=
    fun h => h.weaken fun x hx => hx.elim
  have observers : ∀ {f : TaskQueueEntry C → TaskQueueEntry C} {q},
      (∀ e, (f e).subsumedBy = e.subsumedBy) → (∀ e, (f e).ownerOf = e.ownerOf) →
      (∀ e, (f e).wakeable = e.wakeable) → (∀ e, (f e).taskSource = e.taskSource) →
      CoverStep s (s.modifyEntry q f) fun _ => False := by
    intro f q hsub hown hwake hsource
    have hlinks : SameLinks s (s.modifyEntry q f) := sameLinks_modifyEntry hsub hown
    apply CoverStep.of_sameLinks hlinks fun x => wakeable_modifyEntry hwake
    intro x _ _
    exact (visible_congr (hlinks.ownerOf x) fun y _ => source_modifyEntry hsource).le
  cases c with
  | createTaskQueue => exact hc.elim
  | dispose q => exact hc.elim
  | disposeTasks q => exact hc.elim
  | setWakeable q wakeable => exact hc.elim
  | registerTask q task time grade => exact never (coverStep_registerTask hF hs hw hn)
  | getNextTaskToRun thread q time =>
    obtain ⟨⟨b, u⟩, hg, rfl⟩ := Option.map_eq_some_iff.mp hn
    exact never (coverStep_getNextTaskToRun hF.linked hs hw hg).1
  | addTaskObserver q key callback =>
    rw [addTaskObserver_cases hn] at never ⊢
    exact never (observers (fun _ => rfl) (fun _ => rfl) (fun _ => rfl) fun _ => rfl)
  | removeTaskObserver q key =>
    rw [removeTaskObserver_cases hn] at never ⊢
    exact never (observers (fun _ => rfl) (fun _ => rfl) (fun _ => rfl) fun _ => rfl)
  | merge o x =>
    obtain ⟨⟨b, u⟩, hm, rfl⟩ := Option.map_eq_some_iff.mp hn
    exact never (coverStep_merge hF hs hw hm)
  | unmerge o x =>
    obtain ⟨⟨b, u⟩, hm, rfl⟩ := Option.map_eq_some_iff.mp hn
    exact never (coverStep_unmerge hF hs hw hm)
  | pauseSecondarySource q => exact never (coverStep_pauseSecondarySource hn)
  | resumeSecondarySource q =>
    exact (coverStep_resumeSecondarySource hF hs hw hp hn).weaken fun x hx => ⟨q, rfl, hx⟩

end MessageLoopTaskQueues

end EnvironmentCheck
