import EnvironmentCheck.RefPtrHandles
import EnvironmentCheck.WeakPtr

namespace EnvironmentCheck

open Transition

/-- The handle that the operation is going to give something else. -/
def Frame.destination : Frame → Option ℕ
  | .assigning this _ _ => some this
  | .swapping this _ => some this
  | _ => none

namespace WeakPtrs

/-- A factory that lives, with its `flag_`. -/
def Factory (s : WeakPtrs) (h ptr : ℕ) (flag : Option ℕ) : Prop :=
  s.owner h = some (.factory ptr) ∧ s.refs.ptr h = some flag

/-- The pointer that goes with a flag is that of its factory, as long as this lives. -/
def Matches (s : WeakPtrs) (flag : ℕ) (ptr : Option ℕ) : Prop :=
  ∀ h p, s.Factory h p (some flag) → ptr = some p

structure Tracked (s : WeakPtrs) : Prop where
  flagged : ∀ h p x, s.Factory h p x → ∃ flag, x = some flag ∧ s.isValid flag = true
  valid : ∀ flag, s.isValid flag = true → ∃ h p, s.Factory h p (some flag)
  alone : ∀ h h' p p' flag, s.Factory h p (some flag) → s.Factory h' p' (some flag) → h = h'
  weak : ∀ h ptr flag, s.owner h = some (.weakPtr ptr) → s.refs.ptr h = some (some flag) →
    (∀ f ∈ s.refs.threads, f.destination ≠ some h) → s.Matches flag ptr
  moving : ∀ f ∈ s.refs.threads, ∀ this flag ptr, f.destination = some this → f.inHand = some flag →
    s.owner this = some (.weakPtr ptr) → s.Matches flag ptr
  uses : ∀ f ∈ s.refs.threads, ∀ h ∈ f.uses, ∃ ptr, s.owner h = some (.weakPtr ptr)

variable {s t : WeakPtrs} {i h k r this p flag : ℕ} {ptr : Option ℕ} {f g : Frame} {x : Option ℕ}

theorem destination_mem_uses (h : f.destination = some this) : this ∈ f.uses := by
  cases f with
  | assigning _ _ _ =>
    cases h
    exact List.mem_cons_self
  | swapping _ _ =>
    cases h
    exact List.mem_cons_self
  | _ => cases h

theorem Matches.congr (h : s.Matches flag ptr)
    (hfactory : ∀ k p, t.Factory k p (some flag) → s.Factory k p (some flag)) :
    t.Matches flag ptr :=
  fun k p hk => h k p (hfactory k p hk)

/-- Only weak pointers change, and none of the factories does. -/
theorem Tracked.of_factories (h : s.Tracked) (hvalid : t.isValid = s.isValid)
    (hfactory : ∀ k p x, t.Factory k p x ↔ s.Factory k p x)
    (hweak : ∀ k ptr flag, t.owner k = some (.weakPtr ptr) → t.refs.ptr k = some (some flag) →
      (∀ f ∈ t.refs.threads, f.destination ≠ some k) → s.Matches flag ptr)
    (hmoving : ∀ f ∈ t.refs.threads, ∀ this flag ptr, f.destination = some this → f.inHand = some flag →
      t.owner this = some (.weakPtr ptr) → s.Matches flag ptr)
    (huses : ∀ f ∈ t.refs.threads, ∀ k ∈ f.uses, ∃ ptr, t.owner k = some (.weakPtr ptr)) : t.Tracked := by
  refine ⟨?_, ?_, ?_, ?_, ?_, huses⟩
  · intro k p x hk
    rw [hvalid]
    exact h.flagged k p x ((hfactory k p x).mp hk)
  · intro flag hflag
    rw [hvalid] at hflag
    obtain ⟨k, p, hk⟩ := h.valid flag hflag
    exact ⟨k, p, (hfactory k p _).mpr hk⟩
  · intro k k' p p' flag hk hk'
    exact h.alone k k' p p' flag ((hfactory k p _).mp hk) ((hfactory k' p' _).mp hk')
  · intro k ptr flag howner hptr hrest
    exact (hweak k ptr flag howner hptr hrest).congr fun k p => (hfactory k p _).mp
  · intro f hf this flag ptr hdest hin howner
    exact (hmoving f hf this flag ptr hdest hin howner).congr fun k p => (hfactory k p _).mp

def NoFactory (s : WeakPtrs) (k : ℕ) : Prop := ∀ p x, ¬ s.Factory k p x

theorem noFactory_of_weakPtr (h : s.owner k = some (.weakPtr ptr)) : s.NoFactory k := by
  intro p x hfactory
  cases h.symm.trans hfactory.1

theorem noFactory_of_unborn (h : s.refs.handles.length ≤ k) : s.NoFactory k := by
  intro p x hfactory
  have hget := RefPtrs.ptr_eq_some.mp hfactory.2
  rw [List.getElem?_eq_none h] at hget
  cases hget

theorem factory_congr
    (h : ∀ k, (t.owner k = s.owner k ∧ t.refs.ptr k = s.refs.ptr k) ∨
      (s.NoFactory k ∧ t.NoFactory k)) (k p : ℕ)
    (x : Option ℕ) : t.Factory k p x ↔ s.Factory k p x := by
  obtain ⟨howner, hptr⟩ | ⟨hs, ht⟩ := h k
  · rw [Factory, Factory, howner, hptr]
  · exact iff_of_false (ht p x) (hs p x)

theorem weakPtr_eq_some : s.weakPtr k = some ptr ↔ s.owner k = some (.weakPtr ptr) := by
  unfold weakPtr
  cases howner : s.owner k with
  | none => exact iff_of_false nofun nofun
  | some owner =>
    cases owner with
    | factory p => exact iff_of_false nofun nofun
    | weakPtr p => simp

theorem factory_eq_some : s.factory k = some p ↔ s.owner k = some (.factory p) := by
  unfold factory
  cases howner : s.owner k with
  | none => exact iff_of_false nofun nofun
  | some owner =>
    cases owner with
    | factory p => simp
    | weakPtr p => exact iff_of_false nofun nofun

/-- What a step makes of the weak pointers where no factory changes: a weak pointer that no operation
is working on has what it had, or what goes with its flag. -/
structure Moved (s t : WeakPtrs) (i : ℕ) (f g : Frame) : Prop where
  before : s.refs.threads[i]? = some f
  after : t.refs.threads = s.refs.threads.set i g
  isValid : t.isValid = s.isValid
  same : ∀ k, (t.owner k = s.owner k ∧ t.refs.ptr k = s.refs.ptr k) ∨ (s.NoFactory k ∧ t.NoFactory k)
  weak : ∀ k ptr flag, t.owner k = some (.weakPtr ptr) → t.refs.ptr k = some (some flag) →
    g.destination ≠ some k → (s.owner k = some (.weakPtr ptr) ∧ s.refs.ptr k = some (some flag) ∧
      f.destination ≠ some k) ∨ s.Matches flag ptr
  moving : ∀ k ptr flag, g.destination = some k → g.inHand = some flag → t.owner k = some (.weakPtr ptr) →
    s.Matches flag ptr
  others : ∀ j f', j ≠ i → s.refs.threads[j]? = some f' → ∀ k ∈ f'.uses, t.owner k = s.owner k
  uses : ∀ k ∈ g.uses, ∃ ptr, t.owner k = some (.weakPtr ptr)

theorem mem_set_cases {threads : List Frame} (h : f ∈ threads.set i g) :
    f = g ∨ ∃ j, j ≠ i ∧ threads[j]? = some f := by
  obtain ⟨j, hj⟩ := List.mem_iff_getElem?.mp h
  by_cases hji : j = i
  · have hlt : i < threads.length := by
      have hj' := (List.getElem?_eq_some_iff.mp hj).1
      rwa [List.length_set, hji] at hj'
    rw [hji, List.getElem?_set_self hlt] at hj
    exact .inl (Option.some.inj hj).symm
  · rw [List.getElem?_set_ne (Ne.symm hji)] at hj
    exact .inr ⟨j, hji, hj⟩

theorem mem_threads (hafter : t.refs.threads = s.refs.threads.set i g) (hf : f ∈ t.refs.threads) :
    f = g ∨ f ∈ s.refs.threads := by
  rw [hafter] at hf
  obtain rfl | ⟨j, -, hj⟩ := mem_set_cases hf
  · exact .inl rfl
  · exact .inr (List.mem_of_getElem? hj)

theorem mem_set_of_ne {threads : List Frame} {f' : Frame} (hi : threads[i]? = some f) (h : f' ∈ threads) :
    f' = f ∨ f' ∈ threads.set i g := by
  obtain ⟨j, hj⟩ := List.mem_iff_getElem?.mp h
  by_cases hji : j = i
  · rw [hji, hi] at hj
    exact .inl (Option.some.inj hj).symm
  · rw [← List.getElem?_set_ne (Ne.symm hji)] at hj
    exact .inr (List.mem_of_getElem? hj)

theorem Tracked.of_moved (h : s.Tracked) (hm : Moved s t i f g) : t.Tracked := by
  have hlt : i < s.refs.threads.length := (List.getElem?_eq_some_iff.mp hm.before).1
  have hg : g ∈ t.refs.threads := by
    rw [hm.after]
    exact List.mem_set hlt g
  apply h.of_factories hm.isValid (factory_congr hm.same)
  · intro k ptr flag howner hptr hrest
    obtain ⟨howner', hptr', hf⟩ | hmatches := hm.weak k ptr flag howner hptr (hrest g hg)
    · apply h.weak k ptr flag howner' hptr'
      intro f' hf'
      obtain rfl | hset := mem_set_of_ne (g := g) hm.before hf'
      · exact hf
      · rw [← hm.after] at hset
        exact hrest f' hset
    · exact hmatches
  · intro f' hf' k flag ptr hdest hin howner
    rw [hm.after] at hf'
    obtain rfl | ⟨j, hji, hj⟩ := mem_set_cases hf'
    · exact hm.moving k ptr flag hdest hin howner
    · rw [hm.others j f' hji hj k (destination_mem_uses hdest)] at howner
      exact h.moving f' (List.mem_of_getElem? hj) k flag ptr hdest hin howner
  · intro f' hf' k hk
    rw [hm.after] at hf'
    obtain rfl | ⟨j, hji, hj⟩ := mem_set_cases hf'
    · exact hm.uses k hk
    · rw [hm.others j f' hji hj k hk]
      exact h.uses f' (List.mem_of_getElem? hj) k hk

theorem Moved.of_same (hf : s.refs.threads[i]? = some f) (hafter : t.refs.threads = s.refs.threads.set i g)
    (hvalid : t.isValid = s.isValid) (howner : t.owner = s.owner) (hptr : t.refs.ptr = s.refs.ptr)
    (hdest : f.destination = none) (hrest : g.destination = none) (huses : g.uses = []) : Moved s t i f g := by
  refine ⟨hf, hafter, hvalid, ?_, ?_, ?_, fun _ _ _ _ k _ => congrFun howner k, ?_⟩
  · exact fun k => .inl ⟨congrFun howner k, congrFun hptr k⟩
  · intro k ptr flag hk hflag _
    rw [howner] at hk
    rw [hptr] at hflag
    refine .inl ⟨hk, hflag, ?_⟩
    rw [hdest]
    exact nofun
  · intro k ptr flag hk
    rw [hrest] at hk
    cases hk
  · intro k hk
    rw [huses] at hk
    cases hk

/-- An operation that starts with a weak pointer, or makes one, and does nothing with a factory. -/
theorem Moved.of_weakPtr (hidle : s.refs.threads[i]? = some .idle) (hafter : t.refs.threads = s.refs.threads.set i g)
    (hvalid : t.isValid = s.isValid) (hnot : s.NoFactory this) (hfree : ∀ f ∈ s.refs.threads, this ∉ f.uses)
    (howner : t.owner = Function.update s.owner this (some (.weakPtr ptr)))
    (hothers : ∀ k, k ≠ this → t.refs.ptr k = s.refs.ptr k ∨
      (∃ ptr, s.owner k = some (.weakPtr ptr)) ∧ ∀ flag, t.refs.ptr k ≠ some (some flag))
    (hthis : ∀ flag, t.refs.ptr this = some (some flag) → g.destination ≠ some this → s.Matches flag ptr)
    (hmoving : ∀ k flag, g.destination = some k → g.inHand = some flag → k = this ∧ s.Matches flag ptr)
    (huses : ∀ k ∈ g.uses, k = this ∨ ∃ ptr, s.owner k = some (.weakPtr ptr)) : Moved s t i .idle g := by
  have hself : t.owner this = some (.weakPtr ptr) := by rw [howner, Function.update_self]
  have hne : ∀ k, k ≠ this → t.owner k = s.owner k := fun k hk => by rw [howner, Function.update_of_ne hk]
  refine ⟨hidle, hafter, hvalid, ?_, ?_, ?_, ?_, ?_⟩
  · intro k
    by_cases hk : k = this
    · subst hk
      exact .inr ⟨hnot, noFactory_of_weakPtr hself⟩
    · obtain hsame | ⟨⟨ptr', hweak⟩, -⟩ := hothers k hk
      · exact .inl ⟨hne k hk, hsame⟩
      · exact .inr ⟨noFactory_of_weakPtr hweak, noFactory_of_weakPtr ((hne k hk).trans hweak)⟩
  · intro k ptr' flag hk hptr hdest
    by_cases heq : k = this
    · subst heq
      cases hself.symm.trans hk
      exact .inr (hthis flag hptr hdest)
    · obtain hsame | ⟨-, hnone⟩ := hothers k heq
      · exact .inl ⟨(hne k heq).symm.trans hk, hsame.symm.trans hptr, nofun⟩
      · exact absurd hptr (hnone flag)
  · intro k ptr' flag hdest hin hk
    obtain ⟨rfl, hmatches⟩ := hmoving k flag hdest hin
    cases hself.symm.trans hk
    exact hmatches
  · intro j f' _ hj k hk
    apply hne
    rintro rfl
    exact hfree f' (List.mem_of_getElem? hj) hk
  · intro k hk
    by_cases heq : k = this
    · exact ⟨ptr, heq ▸ hself⟩
    · obtain ⟨ptr', hweak⟩ := (huses k hk).resolve_left heq
      exact ⟨ptr', (hne k heq).trans hweak⟩

theorem unborn_free (hr : s.refs.Reserved) : ∀ f ∈ s.refs.threads, s.refs.handles.length ∉ f.uses := by
  intro f hf hk
  obtain ⟨j, hj⟩ := List.mem_iff_getElem?.mp hf
  obtain ⟨p, hp⟩ := hr.live j f hj _ hk
  rw [List.getElem?_eq_none le_rfl] at hp
  cases hp

theorem ne_unborn (h : s.refs.free r = some x) : r ≠ s.refs.handles.length := by
  rintro rfl
  have hget := (RefPtrs.free_eq_some.mp h).2
  rw [List.getElem?_eq_none le_rfl] at hget
  cases hget

theorem Tracked.matches_of_free (h : s.Tracked) (howner : s.owner r = some (.weakPtr ptr))
    (hfree : s.refs.free r = some x) (hx : x = some flag) : s.Matches flag ptr := by
  subst hx
  apply h.weak r ptr flag howner (RefPtrs.ptr_of_free hfree)
  intro f hf hdest
  exact (RefPtrs.free_eq_some.mp hfree).1 f hf (destination_mem_uses hdest)

theorem Tracked.matches_of_factory (h : s.Tracked) (howner : s.owner r = some (.factory p))
    (hfree : s.refs.free r = some x) (hx : x = some flag) : s.Matches flag (some p) := by
  subst hx
  intro k q hk
  obtain rfl := h.alone k r q p flag hk ⟨howner, RefPtrs.ptr_of_free hfree⟩
  cases howner.symm.trans hk.1
  rfl

theorem thenRelease_destination (x : Option ℕ) : (RefPtrs.thenRelease x).destination = none := by
  cases x <;> rfl

theorem thenRelease_uses (x : Option ℕ) : (RefPtrs.thenRelease x).uses = [] := by
  cases x <;> rfl

/-- A new weak pointer, which may have been moved from another. -/
theorem Moved.of_new (hr : s.refs.Reserved) (hidle : s.refs.threads[i]? = some .idle)
    (hafter : t.refs.threads = s.refs.threads.set i .idle) (hvalid : t.isValid = s.isValid)
    (howner : t.owner = Function.update s.owner s.refs.handles.length (some (.weakPtr ptr)))
    (hothers : ∀ k, k ≠ s.refs.handles.length → t.refs.ptr k = s.refs.ptr k ∨
      (∃ ptr, s.owner k = some (.weakPtr ptr)) ∧ ∀ flag, t.refs.ptr k ≠ some (some flag))
    (hthis : ∀ flag, t.refs.ptr s.refs.handles.length = some (some flag) → s.Matches flag ptr) :
    Moved s t i .idle .idle :=
  .of_weakPtr hidle hafter hvalid (noFactory_of_unborn le_rfl) (unborn_free hr) howner hothers
    (fun flag h _ => hthis flag h) nofun nofun

theorem Moved.of_copy (hr : s.refs.Reserved) (hidle : s.refs.threads[i]? = some .idle)
    (hafter : t.refs.threads = s.refs.threads.set i .idle) (hvalid : t.isValid = s.isValid)
    (howner : t.owner = Function.update s.owner s.refs.handles.length (some (.weakPtr ptr)))
    (hptr : t.refs.ptr = Function.update s.refs.ptr s.refs.handles.length (some x))
    (hmatches : ∀ flag, x = some flag → s.Matches flag ptr) : Moved s t i .idle .idle := by
  apply Moved.of_new hr hidle hafter hvalid howner
  · intro k hk
    rw [hptr]
    exact .inl (Function.update_of_ne hk _ _)
  · intro flag hflag
    rw [hptr, Function.update_self] at hflag
    exact hmatches flag (Option.some.inj hflag)

theorem update_owner {owner : FlagOwner} (h : s.owner k = some owner) :
    s.owner = Function.update s.owner k (some owner) := by
  rw [← h]
  exact (Function.update_eq_self k s.owner).symm

theorem begin_moved {call : WeakPtrCall} {refCall : RefPtrCall} {u : WeakPtrs} {refs : RefPtrs}
    (hr : s.refs.Reserved) (h : s.Tracked) (hidle : s.refs.threads[i]? = some .idle)
    (hafter : refs.threads = s.refs.threads.set i g) (hbegan : RefPtrs.Began s.refs refCall refs.ptr g)
    (hbegin : s.begin i call = some (refCall, u)) (hnot : ∀ factory, call ≠ .destroyFactory factory) :
    Moved s { u with refs } i .idle g ∧ u.fault = s.fault := by
  generalize hptr : refs.ptr = refPtr at hbegan
  cases call with
  | makeFactory p =>
    cases hbegin
    cases hbegan
    exact ⟨.of_same hidle hafter rfl rfl hptr rfl rfl rfl, rfl⟩
  | getWeakPtr r =>
    obtain ⟨p, hp, heq⟩ := Option.map_eq_some_iff.mp hbegin
    cases heq
    cases hbegan with
    | @copyConstruct _ x hfree =>
      exact ⟨.of_copy hr hidle hafter rfl rfl hptr fun flag hx =>
        h.matches_of_factory (factory_eq_some.mp hp) hfree hx, rfl⟩
  | destroyFactory r => exact absurd rfl (hnot r)
  | construct =>
    cases hbegin
    cases hbegan
    exact ⟨.of_copy hr hidle hafter rfl rfl hptr nofun, rfl⟩
  | copyConstruct r =>
    obtain ⟨ptr, hweak, heq⟩ := Option.map_eq_some_iff.mp hbegin
    cases heq
    cases hbegan with
    | @copyConstruct _ x hfree =>
      exact ⟨.of_copy hr hidle hafter rfl rfl hptr fun flag hx =>
        h.matches_of_free (weakPtr_eq_some.mp hweak) hfree hx, rfl⟩
  | moveConstruct r =>
    obtain ⟨ptr, hweak, heq⟩ := Option.map_eq_some_iff.mp hbegin
    cases heq
    cases hbegan with
    | @moveConstruct _ x hfree =>
      refine ⟨.of_new hr hidle hafter rfl rfl ?_ ?_, rfl⟩
      · intro k hk
        rw [congrFun hptr]
        by_cases hkr : k = r
        · subst hkr
          rw [Function.update_self]
          exact .inr ⟨⟨ptr, weakPtr_eq_some.mp hweak⟩, nofun⟩
        · rw [Function.update_of_ne hkr, Function.update_of_ne hk]
          exact .inl rfl
      · intro flag hflag
        rw [congrFun hptr, Function.update_of_ne (ne_unborn hfree).symm, Function.update_self] at hflag
        exact h.matches_of_free (weakPtr_eq_some.mp hweak) hfree (Option.some.inj hflag)
  | copyAssign this r =>
    obtain ⟨ptr', hthis, hbegin⟩ := Option.bind_eq_some_iff.mp hbegin
    obtain ⟨ptr, hweak, heq⟩ := Option.map_eq_some_iff.mp hbegin
    cases heq
    have hno := noFactory_of_weakPtr (weakPtr_eq_some.mp hthis)
    cases hbegan with
    | @sameAssign _ _ x hfree hfrom =>
      refine ⟨.of_weakPtr hidle hafter rfl hno (RefPtrs.free_eq_some.mp hfree).1 rfl ?_ ?_ nofun nofun, rfl⟩
      · exact fun k _ => .inl (congrFun hptr k)
      · intro flag hflag _
        rw [congrFun hptr, RefPtrs.ptr_of_free hfree] at hflag
        exact h.matches_of_free (weakPtr_eq_some.mp hweak) hfrom (Option.some.inj hflag)
    | @copyAssign _ _ old x hfree hfrom =>
      refine ⟨.of_weakPtr hidle hafter rfl hno (RefPtrs.free_eq_some.mp hfree).1 rfl ?_ ?_ ?_ ?_, rfl⟩
      · exact fun k _ => .inl (congrFun hptr k)
      · exact fun flag _ hdest => absurd rfl hdest
      · intro k flag hdest hin
        cases hdest
        exact ⟨rfl, h.matches_of_free (weakPtr_eq_some.mp hweak) hfrom hin⟩
      · intro k hk
        obtain rfl | hk := List.mem_cons.mp hk
        · exact .inl rfl
        · obtain rfl := List.mem_singleton.mp hk
          exact .inr ⟨ptr, weakPtr_eq_some.mp hweak⟩
  | moveAssign this r =>
    obtain ⟨ptr', hthis, hbegin⟩ := Option.bind_eq_some_iff.mp hbegin
    obtain ⟨ptr, hweak, heq⟩ := Option.map_eq_some_iff.mp hbegin
    cases heq
    have hno := noFactory_of_weakPtr (weakPtr_eq_some.mp hthis)
    cases hbegan with
    | @moveAssign _ _ old x hfree hfrom =>
      refine ⟨.of_weakPtr hidle hafter rfl hno (RefPtrs.free_eq_some.mp hfree).1 rfl ?_ ?_ ?_ ?_, rfl⟩
      · intro k hk
        rw [congrFun hptr]
        by_cases hkr : k = r
        · subst hkr
          rw [Function.update_self]
          exact .inr ⟨⟨ptr, weakPtr_eq_some.mp hweak⟩, nofun⟩
        · rw [Function.update_of_ne hkr]
          exact .inl rfl
      · exact fun flag _ hdest => absurd rfl hdest
      · intro k flag hdest hin
        cases hdest
        exact ⟨rfl, h.matches_of_free (weakPtr_eq_some.mp hweak) hfrom hin⟩
      · exact fun k hk => .inl (List.mem_singleton.mp hk)
  | reset this =>
    obtain ⟨ptr, hthis, heq⟩ := Option.map_eq_some_iff.mp hbegin
    cases heq
    have howner := weakPtr_eq_some.mp hthis
    have hself := update_owner howner
    cases hbegan with
    | @assignNull _ old hfree =>
      refine ⟨.of_weakPtr hidle hafter rfl (noFactory_of_weakPtr howner) (RefPtrs.free_eq_some.mp hfree).1
        hself ?_ ?_ ?_ ?_, rfl⟩
      · exact fun k _ => .inl (congrFun hptr k)
      · exact fun flag _ hdest => absurd rfl hdest
      · exact fun k flag _ hin => nomatch hin
      · exact fun k hk => .inl (List.mem_singleton.mp hk)
  | destruct this =>
    obtain ⟨ptr, hthis, heq⟩ := Option.map_eq_some_iff.mp hbegin
    cases heq
    have howner := weakPtr_eq_some.mp hthis
    have hself := update_owner howner
    cases hbegan with
    | @destruct _ x hfree =>
      refine ⟨.of_weakPtr hidle hafter rfl (noFactory_of_weakPtr howner) (RefPtrs.free_eq_some.mp hfree).1
        hself ?_ ?_ ?_ ?_, rfl⟩
      · exact fun k hk => .inl ((congrFun hptr k).trans (Function.update_of_ne hk _ _))
      · intro flag hflag
        rw [congrFun hptr, Function.update_self] at hflag
        cases hflag
      · intro k flag hdest
        rw [thenRelease_destination] at hdest
        cases hdest
      · intro k hk
        rw [thenRelease_uses] at hk
        cases hk

theorem lives_of_ptr (hl : s.refs.Ledger) (h : s.refs.ptr k = some (some flag)) : s.refs.heap flag ≠ none := by
  have hget := RefPtrs.ptr_eq_some.mp h
  obtain ⟨c, hc, -⟩ := (hl.counts (hl.allocated hget)).refers k hget
  rw [Option.mem_def.mp hc]
  exact nofun

/-- A factory that is destroyed leaves a flag that is there, and that was valid. -/
theorem Tracked.invalidate_eq (hl : s.refs.Ledger) (h : s.Tracked) (hfactory : s.Factory r p x) :
    ∃ flag, x = some flag ∧ s.invalidate r = { s with isValid := Function.update s.isValid flag false } := by
  obtain ⟨flag, rfl, hvalid⟩ := h.flagged r p x hfactory
  refine ⟨flag, rfl, ?_⟩
  unfold invalidate
  rw [hfactory.2]
  simp only
  rw [if_neg (lives_of_ptr hl hfactory.2), if_pos hvalid]

theorem factory_of_destroyed (howner : t.owner = s.owner) (hptr : t.refs.ptr = Function.update s.refs.ptr r none)
    (k q : ℕ) (x : Option ℕ) : t.Factory k q x ↔ k ≠ r ∧ s.Factory k q x := by
  rw [Factory, Factory, howner, hptr]
  by_cases hk : k = r
  · subst hk
    rw [Function.update_self]
    exact iff_of_false (fun hk => nomatch hk.2) fun hk => hk.1 rfl
  · rw [Function.update_of_ne hk, and_iff_right hk]

theorem Tracked.of_destroyed (h : s.Tracked) (hfactory : s.Factory r p (some flag))
    (hidle : s.refs.threads[i]? = some .idle) (hafter : t.refs.threads = s.refs.threads.set i g)
    (hdest : g.destination = none) (huses : g.uses = []) (howner : t.owner = s.owner)
    (hptr : t.refs.ptr = Function.update s.refs.ptr r none)
    (hvalid : t.isValid = Function.update s.isValid flag false) : t.Tracked := by
  have hrest := factory_of_destroyed howner hptr
  have hother : ∀ k q flag', t.Factory k q (some flag') → flag' ≠ flag := by
    intro k q flag' hk heq
    subst heq
    obtain ⟨hne, hk⟩ := (hrest k q _).mp hk
    exact hne (h.alone k r q p _ hk hfactory)
  have hkeep : ∀ {flag ptr}, s.Matches flag ptr → t.Matches flag ptr :=
    fun hm => hm.congr fun k q hk => ((hrest k q _).mp hk).2
  refine ⟨?_, ?_, ?_, ?_, ?_, ?_⟩
  · intro k q x hk
    obtain ⟨flag', rfl, hflag'⟩ := h.flagged k q x ((hrest k q x).mp hk).2
    refine ⟨flag', rfl, ?_⟩
    rw [hvalid, Function.update_of_ne (hother k q flag' hk)]
    exact hflag'
  · intro flag' hflag'
    rw [hvalid] at hflag'
    have hne : flag' ≠ flag := by
      rintro rfl
      rw [Function.update_self] at hflag'
      cases hflag'
    rw [Function.update_of_ne hne] at hflag'
    obtain ⟨k, q, hk⟩ := h.valid flag' hflag'
    refine ⟨k, q, (hrest k q _).mpr ⟨?_, hk⟩⟩
    rintro rfl
    exact hne (Option.some.inj (Option.some.inj (hk.2.symm.trans hfactory.2)))
  · intro k k' q q' flag' hk hk'
    exact h.alone k k' q q' flag' ((hrest k q _).mp hk).2 ((hrest k' q' _).mp hk').2
  · intro k ptr flag' hk hptr' hnone
    rw [howner] at hk
    rw [hptr] at hptr'
    have hne : k ≠ r := by
      rintro rfl
      rw [Function.update_self] at hptr'
      cases hptr'
    rw [Function.update_of_ne hne] at hptr'
    apply hkeep
    apply h.weak k ptr flag' hk hptr'
    intro f hf
    obtain rfl | hset := mem_set_of_ne (g := g) hidle hf
    · exact nofun
    · exact hnone f (hafter ▸ hset)
  · intro f hf k flag' ptr hk hin how
    obtain rfl | hf := mem_threads hafter hf
    · rw [hdest] at hk
      cases hk
    · exact hkeep (h.moving f hf k flag' ptr hk hin (howner ▸ how))
  · intro f hf k hk
    obtain rfl | hf := mem_threads hafter hf
    · rw [huses] at hk
      cases hk
    · rw [howner]
      exact h.uses f hf k hk

/-- What a step does: it moves weak pointers, destroys a factory, or ends the making of one. -/
inductive Changed (s t : WeakPtrs) (step : WeakPtrStep) : Prop
  | moved {i : ℕ} {f g : Frame} : Moved s t i f g →
    (∀ j r, step ≠ .begin j (.destroyFactory r)) → Changed s t step
  | destroyed {i r p flag : ℕ} {g : Frame} : step = .begin i (.destroyFactory r) → s.Factory r p (some flag) →
    s.refs.threads[i]? = some .idle → t.refs.threads = s.refs.threads.set i g → g.destination = none →
    g.uses = [] → t.owner = s.owner → t.refs.ptr = Function.update s.refs.ptr r none →
    t.isValid = Function.update s.isValid flag false → Changed s t step
  | adopted {i p flag : ℕ} : step = .resume i → s.refs.threads[i]? = some (.adopting flag) →
    t.refs.threads = s.refs.threads.set i .idle →
    t.owner = Function.update s.owner s.refs.handles.length (some (.factory p)) →
    t.refs.ptr = Function.update s.refs.ptr s.refs.handles.length (some (some flag)) →
    t.isValid = Function.update s.isValid flag true → Changed s t step

theorem begin_changed {call : WeakPtrCall} {refCall : RefPtrCall} {u : WeakPtrs} {refs : RefPtrs}
    (hl : s.refs.Ledger) (hr : s.refs.Reserved) (h : s.Tracked) (hbegin : s.begin i call = some (refCall, u))
    (hnext : s.refs.next (.begin i refCall) = some refs) :
    Changed s { u with refs } (.begin i call) ∧ u.fault = s.fault := by
  obtain ⟨hidle, g, hbegan, hafter⟩ := RefPtrs.next_begin hl hnext
  by_cases hdestroy : ∃ factory, call = .destroyFactory factory
  · obtain ⟨r, rfl⟩ := hdestroy
    obtain ⟨p, hp, heq⟩ := Option.map_eq_some_iff.mp hbegin
    cases heq
    generalize hptr : refs.ptr = refPtr at hbegan
    cases hbegan with
    | @destruct _ x hfree =>
      have hfactory : s.Factory r p x := ⟨factory_eq_some.mp hp, RefPtrs.ptr_of_free hfree⟩
      obtain ⟨flag, rfl, hinvalidate⟩ := h.invalidate_eq hl hfactory
      rw [hinvalidate]
      refine ⟨.destroyed rfl hfactory hidle hafter ?_ ?_ rfl hptr rfl, rfl⟩
      · exact thenRelease_destination _
      · exact thenRelease_uses _
  · obtain ⟨hmoved, hfault⟩ := begin_moved hr h hidle hafter hbegan hbegin fun r hcall => hdestroy ⟨r, hcall⟩
    refine ⟨.moved hmoved ?_, hfault⟩
    rintro j r heq
    cases heq
    exact hdestroy ⟨r, rfl⟩

/-- No one else holds a flag that is not yet adopted. -/
theorem fresh_of_adopting (hl : s.refs.Ledger) (hf : s.refs.threads[i]? = some (.adopting flag)) :
    (∀ k, s.refs.ptr k ≠ some (some flag)) ∧
      ∀ f ∈ s.refs.threads, f.inHand = some flag → f = .adopting flag := by
  have hpos : 0 < s.refs.adoptions flag := List.countP_pos_iff.mpr ⟨_, List.mem_of_getElem? hf, by simp⟩
  have hle := RefPtrs.adoptions_le_inHand s.refs flag
  have hone : s.refs.holders flag + s.refs.inHand flag = 1 ∧ s.refs.adoptions flag = 1 := by
    have hacc := hl flag
    cases hc : s.refs.heap flag with
    | none =>
      rw [hc] at hacc
      have hnone := hacc.2.2.1
      omega
    | some c =>
      rw [hc] at hacc
      obtain ⟨-, -, -, -, hadopt, hrefs, -⟩ := hacc
      have hreq : c.adoptionRequired = true := by
        apply Bool.eq_true_of_not_eq_false
        intro hfalse
        rw [hfalse, if_neg Bool.false_ne_true] at hadopt
        omega
      rw [if_pos hreq] at hadopt
      exact ⟨hrefs hreq, hadopt⟩
  constructor
  · intro k hk
    have hheld := RefPtrs.holders_pos (RefPtrs.ptr_eq_some.mp hk)
    omega
  · intro f hmem hin
    by_contra hne
    obtain ⟨j, hj⟩ := List.mem_iff_getElem?.mp hmem
    have hlt := RefPtrs.adoptions_lt_inHand hj hin hne
    omega

theorem factory_of_adopted {owner : Option FlagOwner}
    (howner : t.owner = Function.update s.owner s.refs.handles.length owner) {y : Option (Option ℕ)}
    (hptr : t.refs.ptr = Function.update s.refs.ptr s.refs.handles.length y) (hk : k ≠ s.refs.handles.length)
    (q : ℕ) (x : Option ℕ) : t.Factory k q x ↔ s.Factory k q x := by
  rw [Factory, Factory, howner, hptr, Function.update_of_ne hk, Function.update_of_ne hk]

theorem Tracked.of_adopted (hl : s.refs.Ledger) (hr : s.refs.Reserved) (h : s.Tracked)
    (hf : s.refs.threads[i]? = some (.adopting flag)) (hafter : t.refs.threads = s.refs.threads.set i .idle)
    (howner : t.owner = Function.update s.owner s.refs.handles.length (some (.factory p)))
    (hptr : t.refs.ptr = Function.update s.refs.ptr s.refs.handles.length (some (some flag)))
    (hvalid : t.isValid = Function.update s.isValid flag true) : t.Tracked := by
  obtain ⟨hunheld, hothers⟩ := fresh_of_adopting hl hf
  have hunborn : s.NoFactory s.refs.handles.length := noFactory_of_unborn le_rfl
  have hnew : t.Factory s.refs.handles.length p (some flag) := by
    rw [Factory, howner, hptr, Function.update_self, Function.update_self]
    exact ⟨rfl, rfl⟩
  have hold : ∀ k, k ≠ s.refs.handles.length → ∀ q x, t.Factory k q x ↔ s.Factory k q x :=
    fun k hk => factory_of_adopted howner hptr hk
  have hkeep : ∀ {flag' ptr}, flag' ≠ flag → s.Matches flag' ptr → t.Matches flag' ptr := by
    intro flag' ptr hne hm k q hk
    by_cases hkn : k = s.refs.handles.length
    · subst hkn
      exact absurd (Option.some.inj (Option.some.inj (hk.2.symm.trans hnew.2))) hne
    · exact hm k q ((hold k hkn q _).mp hk)
  refine ⟨?_, ?_, ?_, ?_, ?_, ?_⟩
  · intro k q x hk
    by_cases hkn : k = s.refs.handles.length
    · subst hkn
      refine ⟨flag, Option.some.inj (hk.2.symm.trans hnew.2), ?_⟩
      rw [hvalid, Function.update_self]
    · obtain ⟨flag', rfl, hflag'⟩ := h.flagged k q x ((hold k hkn q x).mp hk)
      refine ⟨flag', rfl, ?_⟩
      rw [hvalid, Function.update_apply]
      split_ifs
      · rfl
      · exact hflag'
  · intro flag' hflag'
    by_cases hne : flag' = flag
    · subst hne
      exact ⟨_, p, hnew⟩
    · rw [hvalid, Function.update_of_ne hne] at hflag'
      obtain ⟨k, q, hk⟩ := h.valid flag' hflag'
      refine ⟨k, q, (hold k ?_ q _).mpr hk⟩
      rintro rfl
      exact hunborn q _ hk
  · intro k k' q q' flag' hk hk'
    by_cases hkn : k = s.refs.handles.length
    · by_cases hkn' : k' = s.refs.handles.length
      · exact hkn.trans hkn'.symm
      · subst hkn
        obtain rfl : flag' = flag := Option.some.inj (Option.some.inj (hk.2.symm.trans hnew.2))
        exact absurd ((hold k' hkn' q' _).mp hk').2 (hunheld k')
    · by_cases hkn' : k' = s.refs.handles.length
      · subst hkn'
        obtain rfl : flag' = flag := Option.some.inj (Option.some.inj (hk'.2.symm.trans hnew.2))
        exact absurd ((hold k hkn q _).mp hk).2 (hunheld k)
      · exact h.alone k k' q q' flag' ((hold k hkn q _).mp hk) ((hold k' hkn' q' _).mp hk')
  · intro k ptr flag' hk hptr' hnone
    have hkn : k ≠ s.refs.handles.length := by
      rintro rfl
      rw [howner, Function.update_self] at hk
      cases hk
    rw [howner, Function.update_of_ne hkn] at hk
    rw [hptr, Function.update_of_ne hkn] at hptr'
    apply hkeep
    · rintro rfl
      exact hunheld k hptr'
    · apply h.weak k ptr flag' hk hptr'
      intro f hmem
      obtain rfl | hset := mem_set_of_ne (g := .idle) hf hmem
      · exact nofun
      · exact hnone f (hafter ▸ hset)
  · intro f hmem k flag' ptr hdest hin hk
    obtain rfl | hmem := mem_threads hafter hmem
    · cases hdest
    · have hkn : k ≠ s.refs.handles.length := by
        rintro rfl
        exact unborn_free hr f hmem (destination_mem_uses hdest)
      rw [howner, Function.update_of_ne hkn] at hk
      apply hkeep
      · rintro rfl
        rw [hothers f hmem hin] at hdest
        cases hdest
      · exact h.moving f hmem k flag' ptr hdest hin hk
  · intro f hmem k hk
    obtain rfl | hmem := mem_threads hafter hmem
    · cases hk
    · have hkn : k ≠ s.refs.handles.length := by
        rintro rfl
        exact unborn_free hr f hmem hk
      rw [howner, Function.update_of_ne hkn]
      exact h.uses f hmem k hk

theorem Moved.of_put {refs : RefPtrs} (h : s.Tracked) (hf : s.refs.threads[i]? = some f)
    (hafter : refs.threads = s.refs.threads.set i g) (hdest : f.destination = some this) (hin : f.inHand = x)
    (hptr : refs.ptr = Function.update s.refs.ptr this (some x)) (hrest : g.destination = none)
    (huses : g.uses = []) : Moved s { s with refs } i f g := by
  have hmem := List.mem_of_getElem? hf
  have hne : ∀ k, k ≠ this → refs.ptr k = s.refs.ptr k := fun k hk => by rw [hptr, Function.update_of_ne hk]
  refine ⟨hf, hafter, rfl, ?_, ?_, ?_, fun _ _ _ _ _ _ => rfl, ?_⟩
  · intro k
    by_cases hk : k = this
    · subst hk
      obtain ⟨ptr, hweak⟩ := h.uses f hmem k (destination_mem_uses hdest)
      exact .inr ⟨noFactory_of_weakPtr hweak, noFactory_of_weakPtr hweak⟩
    · exact .inl ⟨rfl, hne k hk⟩
  · intro k ptr flag howner hflag _
    by_cases hk : k = this
    · subst hk
      change refs.ptr k = _ at hflag
      rw [hptr, Function.update_self] at hflag
      exact .inr (h.moving f hmem k flag ptr hdest (hin.trans (Option.some.inj hflag)) howner)
    · refine .inl ⟨howner, (hne k hk).symm.trans hflag, ?_⟩
      rw [hdest]
      exact fun heq => hk (Option.some.inj heq).symm
  · intro k ptr flag hk
    rw [hrest] at hk
    cases hk
  · intro k hk
    rw [huses] at hk
    cases hk

theorem Tracked.invalid_of_deleting (hl : s.refs.Ledger) (h : s.Tracked)
    (hf : s.refs.threads[i]? = some (.deleting flag)) : s.isValid flag = false := by
  apply Bool.eq_false_of_not_eq_true
  intro hvalid
  obtain ⟨k, p, -, hk⟩ := h.valid flag hvalid
  have hget := RefPtrs.ptr_eq_some.mp hk
  have hzero := (hl.counts (hl.allocated hget)).last.mpr (.inr (List.mem_of_getElem? hf))
  have hpos := RefPtrs.holders_pos hget
  omega

theorem resume_changed {refs : RefPtrs} (hl : s.refs.Ledger) (hr : s.refs.Reserved) (h : s.Tracked)
    (hnext : s.refs.next (.resume i) = some refs) :
    Changed s { s.resume i with refs } (.resume i) ∧ (s.resume i).fault = s.fault := by
  obtain ⟨f, g, hf, hresumed, hafter⟩ := RefPtrs.next_resume hl hr hnext
  generalize hptr : refs.ptr = refPtr at hresumed
  cases hresumed with
  | @adopting flag =>
    have hresume : s.resume i = { s.own s.refs.handles.length (.factory (s.making i)) with
        isValid := Function.update s.isValid flag true } := by
      unfold resume
      rw [hf]
    rw [hresume]
    exact ⟨.adopted rfl hf hafter rfl hptr rfl, rfl⟩
  | @assigning this r taken old hold =>
    have hresume : s.resume i = s := by
      unfold resume
      rw [hf]
    rw [hresume]
    exact ⟨.moved (.of_put h hf hafter rfl rfl hptr (thenRelease_destination _) (thenRelease_uses _)) nofun, rfl⟩
  | @swapping this temp old hold =>
    have hresume : s.resume i = s := by
      unfold resume
      rw [hf]
    rw [hresume]
    exact ⟨.moved (.of_put h hf hafter rfl rfl hptr (thenRelease_destination _) (thenRelease_uses _)) nofun, rfl⟩
  | @releasing object last =>
    have hresume : s.resume i = s := by
      unfold resume
      rw [hf]
    rw [hresume]
    refine ⟨.moved (.of_same hf hafter rfl rfl hptr rfl ?_ ?_) nofun, rfl⟩
    · cases last <;> rfl
    · cases last <;> rfl
  | @deleting object =>
    have hresume : s.resume i = s := by
      unfold resume
      rw [hf]
      simp only
      rw [h.invalid_of_deleting hl hf, if_neg Bool.false_ne_true]
    rw [hresume]
    exact ⟨.moved (.of_same hf hafter rfl rfl hptr rfl rfl rfl) nofun, rfl⟩

theorem Tracked.of_changed {step : WeakPtrStep} (hl : s.refs.Ledger) (hr : s.refs.Reserved) (h : s.Tracked)
    (hc : Changed s t step) : t.Tracked := by
  cases hc with
  | moved hmoved => exact h.of_moved hmoved
  | destroyed _ hfactory hidle hafter hdest huses howner hptr hvalid =>
    exact h.of_destroyed hfactory hidle hafter hdest huses howner hptr hvalid
  | adopted _ hf hafter howner hptr hvalid => exact h.of_adopted hl hr hf hafter howner hptr hvalid

structure Inv (s : WeakPtrs) : Prop where
  fault : s.fault = none
  refsFault : s.refs.fault = none
  ledger : s.refs.Ledger
  reserved : s.refs.Reserved
  tracked : s.Tracked

theorem inv_create (threads : ℕ) : (create threads).Inv := by
  refine ⟨rfl, rfl, RefPtrs.ledger_create threads, RefPtrs.reserved_create threads, nofun, nofun,
    nofun, nofun, ?_, ?_⟩
  · exact fun _ _ _ _ _ _ _ howner => nomatch howner
  · intro f hf k hk
    rw [List.eq_of_mem_replicate hf] at hk
    cases hk

theorem Inv.changed {step : WeakPtrStep} (h : s.Inv) (hnext : s.next step = some t) :
    Changed s t step ∧ t.Inv := by
  obtain ⟨-, hnext⟩ := Option.ite_none_right_eq_some.mp hnext
  cases step with
  | «begin» i call =>
    obtain ⟨⟨refCall, u⟩, hbegin, hnext⟩ := Option.bind_eq_some_iff.mp hnext
    obtain ⟨refs, hrefs, rfl⟩ := Option.map_eq_some_iff.mp hnext
    have hkept := RefPtrs.next_kept h.ledger h.reserved hrefs
    obtain ⟨hchanged, hfault⟩ := begin_changed h.ledger h.reserved h.tracked hbegin hrefs
    exact ⟨hchanged, hfault.trans h.fault, hkept.fault.trans h.refsFault, hkept.ledger, hkept.reserved,
      h.tracked.of_changed h.ledger h.reserved hchanged⟩
  | resume i =>
    obtain ⟨refs, hrefs, rfl⟩ := Option.map_eq_some_iff.mp hnext
    have hkept := RefPtrs.next_kept h.ledger h.reserved hrefs
    obtain ⟨hchanged, hfault⟩ := resume_changed h.ledger h.reserved h.tracked hrefs
    exact ⟨hchanged, hfault.trans h.fault, hkept.fault.trans h.refsFault, hkept.ledger, hkept.reserved,
      h.tracked.of_changed h.ledger h.reserved hchanged⟩

theorem inv_of_run {threads : ℕ} {steps : List WeakPtrStep} (h : run next (create threads) steps = some s) :
    s.Inv := by
  apply @Reachable.invariant WeakPtrs WeakPtrStep next (fun _ _ => True) Inv (create threads) s
  · exact inv_create threads
  · exact fun _ _ _ _ hs _ hnext => (hs.changed hnext).2
  · exact ⟨steps, meets_true _ _, h⟩

theorem Inv.get_eq (h : s.Inv) (hweak : s.weakPtr k = some ptr) (hfree : s.refs.free k = some (some flag)) :
    s.get k = some (.ok (if s.isValid flag then ptr else none)) := by
  rw [get, hweak, hfree]
  change some (if s.refs.heap flag = none then _ else _) = _
  rw [if_neg (lives_of_ptr h.ledger (RefPtrs.ptr_of_free hfree))]

/-- `get` never looks at a flag that is gone, and it gives the pointer of the factory exactly as long as
this lives. -/
structure Safe (s : WeakPtrs) : Prop where
  faultless : s.fault = none ∧ s.refs.fault = none
  answers : ∀ h fault, s.get h ≠ some (.error fault)
  get : ∀ h p, s.get h = some (.ok (some p)) ↔ ∃ factory flag ptr, s.Factory factory p (some flag) ∧
    s.weakPtr h = some ptr ∧ s.refs.free h = some (some flag)

theorem Inv.safe (h : s.Inv) : s.Safe := by
  have hcases : ∀ k r, s.get k = some r → r = .ok none ∨ ∃ ptr flag, s.weakPtr k = some ptr ∧
      s.refs.free k = some (some flag) ∧ r = .ok (if s.isValid flag then ptr else none) := by
    intro k r hget
    obtain ⟨ptr, hweak, hmap⟩ := Option.bind_eq_some_iff.mp hget
    obtain ⟨x, hfree, hx⟩ := Option.map_eq_some_iff.mp hmap
    cases x with
    | none => exact .inl hx.symm
    | some flag =>
      rw [h.get_eq hweak hfree] at hget
      exact .inr ⟨ptr, flag, hweak, hfree, (Option.some.inj hget).symm⟩
  refine ⟨⟨h.fault, h.refsFault⟩, ?_, ?_⟩
  · intro k fault hget
    obtain hnone | ⟨ptr, flag, -, -, hr⟩ := hcases k _ hget
    · cases hnone
    · cases hr
  · intro k p
    constructor
    · intro hget
      obtain hnone | ⟨ptr, flag, hweak, hfree, hr⟩ := hcases k _ hget
      · cases hnone
      · cases hvalid : s.isValid flag with
        | false =>
          rw [hvalid] at hr
          cases hr
        | true =>
          rw [hvalid] at hr
          obtain ⟨factory, q, hfactory⟩ := h.tracked.valid flag hvalid
          have hmatches := h.tracked.matches_of_free (weakPtr_eq_some.mp hweak) hfree rfl factory q hfactory
          obtain rfl : p = q := Option.some.inj ((Except.ok.inj hr).trans hmatches)
          exact ⟨factory, flag, ptr, hfactory, hweak, hfree⟩
    · rintro ⟨factory, flag, ptr, hfactory, hweak, hfree⟩
      obtain ⟨flag', heq, hvalid⟩ := h.tracked.flagged factory p _ hfactory
      cases heq
      rw [h.get_eq hweak hfree, if_pos hvalid,
        h.tracked.matches_of_free (weakPtr_eq_some.mp hweak) hfree rfl factory p hfactory]

theorem weakPtr_safe {threads : ℕ} {steps : List WeakPtrStep} (h : run next (create threads) steps = some s) :
    s.Safe :=
  (inv_of_run h).safe

/-- The weak pointers are copied and reset by two operations while the factory is destroyed by a third. -/
def destroyedWhileCopied : List WeakPtrStep :=
  [.begin 0 (.makeFactory 7), .resume 0, .begin 0 (.getWeakPtr 0), .begin 1 .construct,
    .begin 1 (.copyAssign 2 1), .begin 0 (.destroyFactory 0), .resume 0, .resume 1, .begin 0 (.reset 1),
    .resume 0, .resume 0]

theorem weakPtr_safe_destroyedWhileCopied :
    ∃ s, run next (create 2) destroyedWhileCopied = some s ∧ s.get 2 = some (.ok none) ∧ s.Safe :=
  ⟨_, rfl, rfl, @weakPtr_safe _ 2 destroyedWhileCopied rfl⟩

end WeakPtrs

end EnvironmentCheck
