import EnvironmentCheck.ThreadJoin

namespace EnvironmentCheck

open MessageLoopTaskQueues Transition

variable {C : Type}

namespace MessageLoopTaskQueues

/-- No identifier is `_kUnmerged`. -/
def owns (s : MessageLoopTaskQueues C) (owner subsumed : TaskQueueId) : Option Bool := do
  let entry ← s.queueEntries owner
  return decide (subsumed ∈ entry.ownerOf)

def getSubsumedTaskQueueId (s : MessageLoopTaskQueues C) (owner : TaskQueueId) :
    Option (OrderedSet TaskQueueId) := do
  let entry ← s.queueEntries owner
  return entry.ownerOf

end MessageLoopTaskQueues

structure TaskRunnerChecker where
  initializedQueueId : TaskQueueId
  subsumedQueueIds : OrderedSet TaskQueueId

namespace TaskRunnerChecker

def create (s : MessageLoopTaskQueues C) (currentQueueId : TaskQueueId) :
    Option TaskRunnerChecker := do
  let subsumedQueueIds ← s.getSubsumedTaskQueueId currentQueueId
  return ⟨currentQueueId, subsumedQueueIds⟩

def runsOnTheSameThread (s : MessageLoopTaskQueues C) (queueA queueB : TaskQueueId) :
    Option Bool := do
  if queueA = queueB then return true
  else if ← s.owns queueA queueB then return true
  else if ← s.owns queueB queueA then return true
  else return false

def runsOnAny (s : MessageLoopTaskQueues C) (currentQueueId : TaskQueueId) :
    List TaskQueueId → Option Bool
  | [] => some false
  | subsumed :: rest => do
    if ← runsOnTheSameThread s currentQueueId subsumed then return true
    else runsOnAny s currentQueueId rest

def runsOnCreationTaskRunner (c : TaskRunnerChecker) (s : MessageLoopTaskQueues C)
    (currentQueueId : TaskQueueId) : Option Bool := do
  if ← runsOnTheSameThread s currentQueueId c.initializedQueueId then return true
  else runsOnAny s currentQueueId c.subsumedQueueIds.elems

def Siblings (s : MessageLoopTaskQueues C) (a b : TaskQueueId) : Prop :=
  a ≠ b ∧ ∃ o, s.subsumedBy a = some o ∧ s.subsumedBy b = some o

variable {s : MessageLoopTaskQueues C} {F : OwnerForest TaskQueueId} {a b c q : TaskQueueId}

theorem owns_eq (hF : Represents s F) (ha : s.Registered a) :
    s.owns a b = some (decide (s.subsumedBy b = some a)) := by
  obtain ⟨e, he⟩ := registered_iff.mp ha
  have hmem : b ∈ e.ownerOf ↔ s.subsumedBy b = some a := by
    rw [← mem_ownerOf he, hF.ownerOf, hF.owner, OwnerForest.Owns]
  simp [owns, he, hmem]

theorem runsOnTheSameThread_eq (hF : Represents s F) (ha : s.Registered a) (hb : s.Registered b) :
    runsOnTheSameThread s a b =
      some (decide (a = b ∨ s.subsumedBy b = some a ∨ s.subsumedBy a = some b)) := by
  unfold runsOnTheSameThread
  by_cases hab : a = b
  · simp [hab]
  · simp only [if_neg hab, owns_eq hF ha, owns_eq hF hb, Option.bind_eq_bind, Option.bind_some]
    by_cases hba : s.subsumedBy b = some a
    · simp [hba]
    · by_cases hba' : s.subsumedBy a = some b
      · simp [hba']
      · simp [hab, hba, hba']

theorem siblings_iff (hF : Represents s F) : Siblings s a b ↔ F.Siblings a b := by
  simp only [Siblings, OwnerForest.Siblings, OwnerForest.Owns, hF.owner]

theorem related_iff (hF : Represents s F) :
    (a = b ∨ s.subsumedBy b = some a ∨ s.subsumedBy a = some b) ↔
      (a = b ∨ F.Owns a b ∨ F.Owns b a) := by
  simp only [OwnerForest.Owns, hF.owner]

theorem dispatcher_eq (hF : Represents s F) (q : TaskQueueId) : s.dispatcher q = F.root q := by
  rw [dispatcher, hF.owner, OwnerForest.root]

/-- Tasks registered on either queue are dispatched by the same one exactly when this is true. -/
def Agrees (s : MessageLoopTaskQueues C) (a b : TaskQueueId) : Prop :=
  runsOnTheSameThread s a b = some (decide (s.dispatcher a = s.dispatcher b))

theorem agrees_iff (hF : Represents s F) (ha : s.Registered a) (hb : s.Registered b) :
    Agrees s a b ↔ ¬ Siblings s a b := by
  rw [Agrees, runsOnTheSameThread_eq hF ha hb, Option.some.injEq, decide_eq_decide, related_iff hF,
    dispatcher_eq hF, dispatcher_eq hF, F.root_eq_iff, siblings_iff hF]
  constructor
  · intro h hsib
    exact F.not_related_of_siblings hsib (h.mpr (.inr hsib))
  · intro h
    exact (or_iff_left h).symm

theorem transitive_iff (hF : Represents s F) :
    (∀ a b c, s.Registered a → s.Registered b → s.Registered c →
        runsOnTheSameThread s a b = some true → runsOnTheSameThread s b c = some true →
        runsOnTheSameThread s a c = some true) ↔
      ∀ a b, s.Registered a → s.Registered b → ¬ Siblings s a b := by
  constructor
  · intro h a b ha hb hsib
    have hrelated := F.not_related_of_siblings ((siblings_iff hF).mp hsib)
    rw [← related_iff hF] at hrelated
    obtain ⟨-, o, hao, hbo⟩ := hsib
    have ho : s.Registered o := by
      rw [hF.owner] at hao
      exact (hF.live o).mp (F.owner_live hao)
    have hac : runsOnTheSameThread s a o = some true := by
      rw [runsOnTheSameThread_eq hF ha ho]
      simp [hao]
    have hcb : runsOnTheSameThread s o b = some true := by
      rw [runsOnTheSameThread_eq hF ho hb]
      simp [hbo]
    have hab := h a o b ha ho hb hac hcb
    rw [runsOnTheSameThread_eq hF ha hb, Option.some.injEq, decide_eq_true_eq] at hab
    exact hrelated hab
  · intro h a b c ha hb hc hab hbc
    rw [(agrees_iff hF ha hb).mpr (h a b ha hb), Option.some.injEq, decide_eq_true_eq] at hab
    rw [(agrees_iff hF hb hc).mpr (h b c hb hc), Option.some.injEq, decide_eq_true_eq] at hbc
    rw [(agrees_iff hF ha hc).mpr (h a c ha hc), decide_eq_true (hab.trans hbc)]

theorem runsOnTheSameThread_symm (hF : Represents s F) (ha : s.Registered a) (hb : s.Registered b) :
    runsOnTheSameThread s a b = runsOnTheSameThread s b a := by
  rw [runsOnTheSameThread_eq hF ha hb, runsOnTheSameThread_eq hF hb ha, Option.some.injEq,
    decide_eq_decide, eq_comm, or_comm (a := s.subsumedBy b = some a)]

theorem runsOnAny_false {xs : List TaskQueueId} (hF : Represents s F) (ha : s.Registered a)
    (hxs : ∀ x ∈ xs, s.Registered x ∧ ¬ (a = x ∨ s.subsumedBy x = some a ∨ s.subsumedBy a = some x)) :
    runsOnAny s a xs = some false := by
  induction xs with
  | nil => rfl
  | cons x xs ih =>
    obtain ⟨hx, hunrelated⟩ := hxs x List.mem_cons_self
    rw [runsOnAny, runsOnTheSameThread_eq hF ha hx, decide_eq_false hunrelated]
    exact ih fun y hy => hxs y (List.mem_cons_of_mem _ hy)

/-- While the ownership is that of the checker's creation, on a queue that no other owns. -/
theorem runsOnCreationTaskRunner_eq {checker : TaskRunnerChecker} (hF : Represents s F)
    (ha : s.Registered a) (hroot : s.subsumedBy q = none) (hc : create s q = some checker) :
    checker.runsOnCreationTaskRunner s a = some (decide (s.dispatcher a = s.dispatcher q)) := by
  simp only [create, getSubsumedTaskQueueId, Option.bind_eq_bind, Option.bind_eq_some_iff] at hc
  obtain ⟨owned, ⟨e, he, howned⟩, hc⟩ := hc
  obtain rfl := Option.some.inj howned
  obtain rfl := (Option.some.inj hc).symm
  have hq : s.Registered q := registered_iff.mpr ⟨e, he⟩
  unfold runsOnCreationTaskRunner
  rw [runsOnTheSameThread_eq hF ha hq]
  by_cases hrelated : a = q ∨ s.subsumedBy q = some a ∨ s.subsumedBy a = some q
  · have hsame : s.dispatcher a = s.dispatcher q := by
      rw [dispatcher_eq hF, dispatcher_eq hF, F.root_eq_iff]
      exact .inl ((related_iff hF).mp hrelated)
    rw [decide_eq_true hrelated, decide_eq_true hsame]
    rfl
  · have hother : ¬ s.dispatcher a = s.dispatcher q := by
      rw [dispatcher_eq hF, dispatcher_eq hF, F.root_eq_iff, ← related_iff hF, or_iff_right hrelated]
      rintro ⟨-, o, -, ho⟩
      rw [OwnerForest.Owns, ← hF.owner, hroot] at ho
      cases ho
    rw [decide_eq_false hrelated, decide_eq_false hother]
    apply runsOnAny_false hF ha
    intro x hx
    have howns : s.subsumedBy x = some q := by
      rw [← ownerOf_eq he, hF.ownerOf, OwnerForest.Owns, ← hF.owner] at hx
      exact hx
    have hreg : s.Registered x := by
      rw [hF.owner] at howns
      exact (hF.live x).mp (F.owned_live howns)
    refine ⟨hreg, ?_⟩
    rintro (rfl | hxa | hax)
    · exact hrelated (.inr (.inr howns))
    · exact hrelated (.inl (Option.some.inj (hxa.symm.trans howns)))
    · rw [hF.owner] at hax
      rw [hF.owner, F.owner_root hax] at howns
      cases howns

theorem runsOnTheSameThread_iff {thread : ThreadId}
    (hr : Reachable next Allowed (MessageLoopTaskQueues.create (C := C) thread) s) :
    (∀ a b, s.Registered a → s.Registered b → (Agrees s a b ↔ ¬ Siblings s a b)) ∧
      (∀ a, runsOnTheSameThread s a a = some true) ∧
      (∀ a b, s.Registered a → s.Registered b →
        runsOnTheSameThread s a b = runsOnTheSameThread s b a) ∧
      ((∀ a b c, s.Registered a → s.Registered b → s.Registered c →
          runsOnTheSameThread s a b = some true → runsOnTheSameThread s b c = some true →
          runsOnTheSameThread s a c = some true) ↔
        ∀ a b, s.Registered a → s.Registered b → ¬ Siblings s a b) := by
  obtain ⟨F, hF⟩ := represents_reachable (fun _ _ hc => hc) hr
  refine ⟨fun a b ha hb => agrees_iff hF ha hb, ?_, ?_, transitive_iff hF⟩
  · intro a
    simp [runsOnTheSameThread]
  · intro a b ha hb
    exact runsOnTheSameThread_symm hF ha hb

def siblingsRun : List (QueueCall Unit) :=
  [.createTaskQueue, .createTaskQueue, .createTaskQueue, .merge 0 1, .merge 0 2]

theorem runsOnTheSameThread_iff_siblingsRun : ∃ s, run next (.create 0) siblingsRun = some s ∧
    (Agrees s 0 2 ↔ ¬ Siblings s 0 2) := by
  have hm : Meets next Allowed (.create 0) siblingsRun := by decide
  exact ⟨_, rfl, (runsOnTheSameThread_iff ⟨siblingsRun, hm, rfl⟩).1 0 2 rfl rfl⟩

theorem siblingsRun_disagrees : ∃ s, run next (.create 0) siblingsRun = some s ∧
    Meets next Allowed (.create 0) siblingsRun ∧ s.dispatcher 1 = 0 ∧ s.dispatcher 2 = 0 ∧
      runsOnTheSameThread s 1 2 = some false ∧ runsOnTheSameThread s 1 0 = some true ∧
      runsOnTheSameThread s 0 2 = some true :=
  ⟨_, rfl, by decide, rfl, rfl, by decide, by decide, by decide⟩

end TaskRunnerChecker

end EnvironmentCheck
