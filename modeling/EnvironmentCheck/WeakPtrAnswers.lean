import EnvironmentCheck.WeakPtrRuns

namespace EnvironmentCheck

open Transition

/-- The handles that a call gives something else. -/
def RefPtrCall.Changes (h : ℕ) : RefPtrCall → Prop
  | .makeRefCounted | .construct _ | .copyConstruct _ => False
  | .moveConstruct r => r = h
  | .copyAssign this _ | .convertAssign this _ _ | .assignNull this | .destruct this => this = h
  | .moveAssign this r | .swap this r => this = h ∨ r = h

/-- The weak pointers that a call gives something else. -/
def WeakPtrCall.Changes (h : ℕ) : WeakPtrCall → Prop
  | .makeFactory _ | .getWeakPtr _ | .destroyFactory _ | .construct | .copyConstruct _ => False
  | .moveConstruct r => r = h
  | .copyAssign this _ | .reset this | .destruct this => this = h
  | .moveAssign this r => this = h ∨ r = h

def WeakPtrStep.Leaves (h : ℕ) : WeakPtrStep → Prop
  | .begin _ call => ¬ call.Changes h
  | .resume _ => True

namespace RefPtrs

variable {s : RefPtrs} {h : ℕ} {call : RefPtrCall} {ptr' : ℕ → Option (Option ℕ)} {f g : Frame}

theorem Began.leaves (hb : Began s call ptr' g) (hleaves : ¬ call.Changes h) (hne : h ≠ s.handles.length) :
    ptr' h = s.ptr h ∧ g.destination ≠ some h := by
  cases hb with
  | makeRefCounted => exact ⟨rfl, nofun⟩
  | construct => exact ⟨Function.update_of_ne hne _ _, nofun⟩
  | copyConstruct => exact ⟨Function.update_of_ne hne _ _, nofun⟩
  | moveConstruct =>
    refine ⟨?_, nofun⟩
    rw [Function.update_of_ne (Ne.symm hleaves), Function.update_of_ne hne]
  | sameAssign => exact ⟨rfl, nofun⟩
  | copyAssign => exact ⟨rfl, fun hdest => hleaves (Option.some.inj hdest)⟩
  | sameConvert => exact ⟨rfl, nofun⟩
  | convertAssign => exact ⟨rfl, fun hdest => hleaves (Option.some.inj hdest)⟩
  | moveAssign =>
    refine ⟨Function.update_of_ne ?_ _ _, fun hdest => hleaves (.inl (Option.some.inj hdest))⟩
    exact fun heq => hleaves (.inr heq.symm)
  | assignNull => exact ⟨rfl, fun hdest => hleaves (Option.some.inj hdest)⟩
  | swap =>
    refine ⟨?_, nofun⟩
    rw [Function.update_of_ne fun heq => hleaves (.inr heq.symm),
      Function.update_of_ne fun heq => hleaves (.inl heq.symm)]
  | destruct =>
    refine ⟨Function.update_of_ne (Ne.symm hleaves) _ _, ?_⟩
    rw [WeakPtrs.thenRelease_destination]
    exact nofun

theorem Resumed.leaves (hr : Resumed s f ptr' g) (hdest : f.destination ≠ some h) (hne : h ≠ s.handles.length) :
    ptr' h = s.ptr h ∧ g.destination ≠ some h := by
  cases hr with
  | adopting => exact ⟨Function.update_of_ne hne _ _, nofun⟩
  | assigning =>
    refine ⟨Function.update_of_ne (fun heq => hdest (congrArg some heq.symm)) _ _, ?_⟩
    rw [WeakPtrs.thenRelease_destination]
    exact nofun
  | swapping =>
    refine ⟨Function.update_of_ne (fun heq => hdest (congrArg some heq.symm)) _ _, ?_⟩
    rw [WeakPtrs.thenRelease_destination]
    exact nofun
  | releasing last =>
    refine ⟨rfl, ?_⟩
    cases last <;> exact nofun
  | deleting => exact ⟨rfl, nofun⟩

end RefPtrs

namespace WeakPtrs

/-- A weak pointer that no operation is going to change. -/
structure Steady (s : WeakPtrs) (h : ℕ) (ptr : Option ℕ) (flag : ℕ) : Prop where
  owner : s.owner h = some (.weakPtr ptr)
  held : s.refs.ptr h = some (some flag)
  rest : ∀ f ∈ s.refs.threads, f.destination ≠ some h

/-- What a weak pointer gives as soon as no operation is working on it. -/
def Gives (s : WeakPtrs) (h : ℕ) (r : Option ℕ) : Prop :=
  (∀ f ∈ s.refs.threads, h ∉ f.uses) → s.get h = some (.ok r)

variable {s t u : WeakPtrs} {i h k p flag : ℕ} {ptr x : Option ℕ} {step : WeakPtrStep} {call : WeakPtrCall}
  {refCall : RefPtrCall} {steps : List WeakPtrStep}

theorem invalidate_owner (s : WeakPtrs) (k : ℕ) : (s.invalidate k).owner = s.owner := by
  unfold invalidate
  split
  · split_ifs <;> rfl
  · rfl

theorem Steady.ne_unborn (hs : s.Steady h ptr flag) : h ≠ s.refs.handles.length := by
  rintro rfl
  have hget := RefPtrs.ptr_eq_some.mp hs.held
  rw [List.getElem?_eq_none le_rfl] at hget
  cases hget

theorem begin_leaves (howner : s.owner h = some (.weakPtr ptr)) (hne : h ≠ s.refs.handles.length)
    (hleaves : ¬ call.Changes h) (hbegin : s.begin i call = some (refCall, u)) :
    ¬ refCall.Changes h ∧ u.owner h = s.owner h := by
  have hown : ∀ owner, (s.own s.refs.handles.length owner).owner h = s.owner h :=
    fun owner => Function.update_of_ne hne _ _
  cases call with
  | makeFactory p =>
    cases hbegin
    exact ⟨id, rfl⟩
  | getWeakPtr r =>
    obtain ⟨p, -, heq⟩ := Option.map_eq_some_iff.mp hbegin
    cases heq
    exact ⟨id, hown _⟩
  | destroyFactory r =>
    obtain ⟨p, hp, heq⟩ := Option.map_eq_some_iff.mp hbegin
    cases heq
    refine ⟨?_, congrFun (invalidate_owner s r) h⟩
    rintro rfl
    cases howner.symm.trans (factory_eq_some.mp hp)
  | construct =>
    cases hbegin
    exact ⟨id, hown _⟩
  | copyConstruct r =>
    obtain ⟨p, -, heq⟩ := Option.map_eq_some_iff.mp hbegin
    cases heq
    exact ⟨id, hown _⟩
  | moveConstruct r =>
    obtain ⟨p, -, heq⟩ := Option.map_eq_some_iff.mp hbegin
    cases heq
    exact ⟨hleaves, hown _⟩
  | copyAssign this r =>
    obtain ⟨-, -, hbegin⟩ := Option.bind_eq_some_iff.mp hbegin
    obtain ⟨p, -, heq⟩ := Option.map_eq_some_iff.mp hbegin
    cases heq
    exact ⟨hleaves, Function.update_of_ne (Ne.symm hleaves) _ _⟩
  | moveAssign this r =>
    obtain ⟨-, -, hbegin⟩ := Option.bind_eq_some_iff.mp hbegin
    obtain ⟨p, -, heq⟩ := Option.map_eq_some_iff.mp hbegin
    cases heq
    exact ⟨hleaves, Function.update_of_ne (fun heq => hleaves (.inl heq.symm)) _ _⟩
  | reset this =>
    obtain ⟨p, -, heq⟩ := Option.map_eq_some_iff.mp hbegin
    cases heq
    exact ⟨hleaves, rfl⟩
  | destruct this =>
    obtain ⟨p, -, heq⟩ := Option.map_eq_some_iff.mp hbegin
    cases heq
    exact ⟨hleaves, rfl⟩

theorem resume_leaves (s : WeakPtrs) (i : ℕ) (hne : h ≠ s.refs.handles.length) :
    (s.resume i).owner h = s.owner h := by
  unfold resume
  split
  · exact Function.update_of_ne hne _ _
  · split_ifs <;> rfl
  · rfl

theorem Steady.next (hinv : s.Inv) (hs : s.Steady h ptr flag) (hleaves : step.Leaves h)
    (hnext : s.next step = some t) : t.Steady h ptr flag := by
  have hne := hs.ne_unborn
  obtain ⟨-, hnext⟩ := Option.ite_none_right_eq_some.mp hnext
  have hrest : ∀ {threads i g}, g.destination ≠ some h → threads = s.refs.threads.set i g →
      ∀ f ∈ threads, f.destination ≠ some h := by
    rintro threads i g hg rfl f hf
    obtain rfl | ⟨j, -, hj⟩ := mem_set_cases hf
    · exact hg
    · exact hs.rest f (List.mem_of_getElem? hj)
  cases step with
  | «begin» i call =>
    obtain ⟨⟨refCall, u⟩, hbegin, hnext⟩ := Option.bind_eq_some_iff.mp hnext
    obtain ⟨refs, hrefs, rfl⟩ := Option.map_eq_some_iff.mp hnext
    obtain ⟨-, g, hbegan, hafter⟩ := RefPtrs.next_begin hinv.ledger hrefs
    obtain ⟨hcall, howner⟩ := begin_leaves hs.owner hne hleaves hbegin
    obtain ⟨hptr, hg⟩ := hbegan.leaves hcall hne
    exact ⟨howner.trans hs.owner, hptr.trans hs.held, hrest hg hafter⟩
  | resume i =>
    obtain ⟨refs, hrefs, rfl⟩ := Option.map_eq_some_iff.mp hnext
    obtain ⟨f, g, hf, hresumed, hafter⟩ := RefPtrs.next_resume hinv.ledger hinv.reserved hrefs
    obtain ⟨hptr, hg⟩ := hresumed.leaves (hs.rest f (List.mem_of_getElem? hf)) hne
    exact ⟨(resume_leaves s i hne).trans hs.owner, hptr.trans hs.held, hrest hg hafter⟩

theorem Changed.factory (hc : Changed s t step) (hfactory : s.Factory k p x)
    (hnot : ∀ i, step ≠ .begin i (.destroyFactory k)) : t.Factory k p x := by
  cases hc with
  | moved hmoved _ => exact (factory_congr hmoved.same k p x).mpr hfactory
  | @destroyed i r _ _ _ hstep _ _ _ _ _ howner hptr _ =>
    refine (factory_of_destroyed howner hptr k p x).mpr ⟨?_, hfactory⟩
    rintro rfl
    exact hnot i hstep
  | adopted _ _ _ howner hptr _ =>
    have hne : k ≠ s.refs.handles.length := by
      rintro rfl
      exact noFactory_of_unborn le_rfl p x hfactory
    exact (factory_of_adopted howner hptr hne p x).mpr hfactory

/-- A flag that someone holds does not become valid again. -/
theorem Changed.invalid (hinv : s.Inv) (hc : Changed s t step) (hheld : s.refs.ptr h = some (some flag))
    (hinvalid : s.isValid flag = false) : t.isValid flag = false := by
  cases hc with
  | moved hmoved _ => rw [hmoved.isValid, hinvalid]
  | destroyed _ _ _ _ _ _ _ _ hvalid =>
    rw [hvalid, Function.update_apply]
    split_ifs
    · rfl
    · exact hinvalid
  | adopted _ hf _ _ _ hvalid =>
    rw [hvalid, Function.update_of_ne]
    · exact hinvalid
    · rintro rfl
      exact (fresh_of_adopting hinv.ledger hf).1 h hheld

theorem Changed.destroys (hc : Changed s t (.begin i (.destroyFactory k))) (hfactory : s.Factory k p (some flag)) :
    t.isValid flag = false := by
  cases hc with
  | moved _ hnot => exact absurd rfl (hnot i k)
  | destroyed hstep hdestroyed _ _ _ _ _ _ hvalid =>
    cases hstep
    cases hfactory.2.symm.trans hdestroyed.2
    rw [hvalid, Function.update_self]
  | adopted hstep => cases hstep

theorem steady_run (hinv : s.Inv) (hs : s.Steady h ptr flag) (hleaves : ∀ step ∈ steps, step.Leaves h)
    (hrun : run next s steps = some t) :
    t.Inv ∧ t.Steady h ptr flag ∧ (s.isValid flag = false → t.isValid flag = false) := by
  induction steps generalizing s with
  | nil =>
    cases hrun
    exact ⟨hinv, hs, id⟩
  | cons step steps ih =>
    obtain ⟨u, hu, hrest⟩ := Option.bind_eq_some_iff.mp hrun
    obtain ⟨hchanged, hinv'⟩ := hinv.changed hu
    have hs' := hs.next hinv (hleaves step List.mem_cons_self) hu
    obtain ⟨ht, hsteady, hinvalid⟩ :=
      ih hinv' hs' (fun step hstep => hleaves step (List.mem_cons_of_mem _ hstep)) hrest
    exact ⟨ht, hsteady, fun hfalse => hinvalid (hchanged.invalid hinv hs.held hfalse)⟩

/-- The factory lives until it is destroyed, and its flag is invalid from then on. -/
theorem factory_run (hinv : s.Inv) (hs : s.Steady h ptr flag) (hleaves : ∀ step ∈ steps, step.Leaves h)
    (hfactory : s.Factory k p (some flag)) (hrun : run next s steps = some t) :
    ((∀ i, .begin i (.destroyFactory k) ∉ steps) → t.Factory k p (some flag)) ∧
      ∀ i, .begin i (.destroyFactory k) ∈ steps → t.isValid flag = false := by
  induction steps generalizing s with
  | nil =>
    cases hrun
    exact ⟨fun _ => hfactory, nofun⟩
  | cons step steps ih =>
    obtain ⟨u, hu, hrest⟩ := Option.bind_eq_some_iff.mp hrun
    obtain ⟨hchanged, hinv'⟩ := hinv.changed hu
    have hs' := hs.next hinv (hleaves step List.mem_cons_self) hu
    have hleaves' : ∀ step ∈ steps, step.Leaves h := fun step hstep => hleaves step (List.mem_cons_of_mem _ hstep)
    by_cases hdestroy : ∃ i, step = .begin i (.destroyFactory k)
    · obtain ⟨i, rfl⟩ := hdestroy
      refine ⟨fun hnot => absurd List.mem_cons_self (hnot i), fun _ _ => ?_⟩
      exact (steady_run hinv' hs' hleaves' hrest).2.2 (hchanged.destroys hfactory)
    · have hnot : ∀ i, step ≠ .begin i (.destroyFactory k) := fun i heq => hdestroy ⟨i, heq⟩
      obtain ⟨hlives, hdead⟩ := ih hinv' hs' hleaves' (hchanged.factory hfactory hnot) hrest
      refine ⟨fun h => hlives fun i hi => h i (List.mem_cons_of_mem _ hi), fun i hi => ?_⟩
      exact hdead i ((List.mem_cons.mp hi).resolve_left (hnot i).symm)

theorem Inv.gives (hinv : s.Inv) (hs : s.Steady h ptr flag) :
    s.Gives h (if s.isValid flag then ptr else none) := by
  intro hfree
  exact hinv.get_eq (weakPtr_eq_some.mpr hs.owner)
    (RefPtrs.free_eq_some.mpr ⟨hfree, RefPtrs.ptr_eq_some.mp hs.held⟩)

/-- A weak pointer that is left alone gives the object of its factory until this is destroyed, and null from
then on, whatever the operations on other handles do meanwhile. -/
theorem weakPtr_untouched {threads : ℕ} {before : List WeakPtrStep}
    (hbefore : run next (create threads) before = some s)
    (hfactory : s.Factory k p (some flag)) (hweak : s.weakPtr h = some ptr)
    (hfree : s.refs.free h = some (some flag)) (hafter : run next s steps = some t)
    (hleaves : ∀ step ∈ steps, step.Leaves h) :
    ((∀ i, .begin i (.destroyFactory k) ∉ steps) → t.Gives h (some p)) ∧
      ∀ i, .begin i (.destroyFactory k) ∈ steps → t.Gives h none := by
  have hinv := inv_of_run hbefore
  have hs : s.Steady h ptr flag := by
    obtain ⟨hnot, hget⟩ := RefPtrs.free_eq_some.mp hfree
    exact ⟨weakPtr_eq_some.mp hweak, RefPtrs.ptr_eq_some.mpr hget,
      fun f hf hdest => hnot f hf (destination_mem_uses hdest)⟩
  obtain rfl : ptr = some p := hinv.tracked.matches_of_free hs.owner hfree rfl k p hfactory
  obtain ⟨ht, hsteady, -⟩ := steady_run hinv hs hleaves hafter
  obtain ⟨hlives, hdead⟩ := factory_run hinv hs hleaves hfactory hafter
  have hgives := ht.gives hsteady
  constructor
  · intro hnot
    obtain ⟨flag', heq, hvalid⟩ := ht.tracked.flagged k p _ (hlives hnot)
    cases heq
    rwa [if_pos hvalid] at hgives
  · intro i hi
    rwa [hdead i hi, if_neg Bool.false_ne_true] at hgives

def oneWeakPtr : List WeakPtrStep := [.begin 0 (.makeFactory 7), .resume 0, .begin 0 (.getWeakPtr 0)]

/-- The weak pointer is copied while its factory is destroyed. -/
def copiedMeanwhile : List WeakPtrStep :=
  [.begin 1 .construct, .begin 1 (.copyAssign 2 1), .begin 0 (.destroyFactory 0), .resume 1]

theorem weakPtr_untouched_copiedMeanwhile :
    ∃ s t, run next (create 2) oneWeakPtr = some s ∧ run next s copiedMeanwhile = some t ∧ t.Gives 1 none := by
  refine ⟨_, _, rfl, rfl, ?_⟩
  refine (@weakPtr_untouched _ _ 1 0 7 0 (some 7) copiedMeanwhile 2 oneWeakPtr rfl ⟨rfl, rfl⟩ rfl rfl rfl ?_).2 0 ?_
  · simp [copiedMeanwhile, WeakPtrStep.Leaves, WeakPtrCall.Changes]
  · decide

end WeakPtrs

end EnvironmentCheck
