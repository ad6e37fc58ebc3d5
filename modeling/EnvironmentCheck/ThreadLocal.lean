import EnvironmentCheck.Library.Transition
import EnvironmentCheck.MessageLoopTaskQueues

namespace EnvironmentCheck

open Transition

abbrev PthreadKey := ℕ

/-- One `FOREVER_THREAD_LOCAL` variable: the `key_` of every thread's instance, and what pthreads
keeps for the keys that exist. -/
structure ThreadLocalPointers (Obj : Type) where
  keyOf : ThreadId → Option PthreadKey
  keys : List PthreadKey
  specific : ThreadId → PthreadKey → Option Obj
  stored : List Obj
  destroyed : List Obj

inductive ThreadLocalEvent (Obj : Type) where
  | construct (thread : ThreadId) (key : PthreadKey)
  | reset (thread : ThreadId) (ptr : Option Obj)
  | exit (thread : ThreadId)

namespace ThreadLocalPointers

variable {Obj : Type}

def create : ThreadLocalPointers Obj := ⟨fun _ => none, [], fun _ _ => none, [], []⟩

/-- A new key holds null in every thread. -/
def pthreadKeyCreate (l : ThreadLocalPointers Obj) (key : PthreadKey) :
    Option (ThreadLocalPointers Obj) :=
  if key ∈ l.keys then none
  else some
    { l with
      keys := key :: l.keys
      specific := fun thread => Function.update (l.specific thread) key none }

def pthreadKeyDelete (l : ThreadLocalPointers Obj) (key : PthreadKey) : ThreadLocalPointers Obj :=
  { l with keys := l.keys.filter (· ≠ key) }

def destroy (l : ThreadLocalPointers Obj) (ptr : Option Obj) : ThreadLocalPointers Obj :=
  { l with destroyed := l.destroyed ++ ptr.toList }

def swap (l : ThreadLocalPointers Obj) (thread : ThreadId) (key : PthreadKey) (ptr : Option Obj) :
    Option Obj × ThreadLocalPointers Obj :=
  (l.specific thread key,
    { l with
      specific := Function.update l.specific thread
        (Function.update (l.specific thread) key ptr)
      stored := l.stored ++ ptr.toList })

def get (l : ThreadLocalPointers Obj) (thread : ThreadId) : Option Obj :=
  (l.keyOf thread).bind (l.specific thread)

def construct (l : ThreadLocalPointers Obj) (thread : ThreadId) (key : PthreadKey) :
    Option (ThreadLocalPointers Obj) :=
  if l.keyOf thread ≠ none then none
  else (l.pthreadKeyCreate key).map fun created =>
    { created with keyOf := Function.update l.keyOf thread (some key) }

def reset (l : ThreadLocalPointers Obj) (thread : ThreadId) (ptr : Option Obj) :
    Option (ThreadLocalPointers Obj) :=
  (l.keyOf thread).map fun key => (l.swap thread key ptr).2.destroy (l.swap thread key ptr).1

def runKeyDestructors (l : ThreadLocalPointers Obj) (thread : ThreadId) :
    ThreadLocalPointers Obj :=
  { l with
    destroyed := l.destroyed ++ l.keys.filterMap (l.specific thread)
    specific := Function.update l.specific thread fun _ => none }

def destructor (l : ThreadLocalPointers Obj) (thread : ThreadId) (key : PthreadKey) :
    ThreadLocalPointers Obj :=
  { l.pthreadKeyDelete key with keyOf := Function.update l.keyOf thread none }

/-- The thread's `thread_local`s are destroyed before its pthread keys are looked at. -/
def exit (l : ThreadLocalPointers Obj) (thread : ThreadId) : ThreadLocalPointers Obj :=
  match l.keyOf thread with
  | none => l.runKeyDestructors thread
  | some key => (l.destructor thread key).runKeyDestructors thread

def next (l : ThreadLocalPointers Obj) : ThreadLocalEvent Obj → Option (ThreadLocalPointers Obj)
  | .construct thread key => l.construct thread key
  | .reset thread ptr => l.reset thread ptr
  | .exit thread => some (l.exit thread)

/-- Every object stored is held by one thread, or has been destroyed, once. -/
def DestroyedOnce [DecidableEq Obj] (l : ThreadLocalPointers Obj) : Prop :=
  ∀ o ∈ l.stored, (l.destroyed.count o = 1 ∧ ∀ thread, l.get thread ≠ some o) ∨
    (l.destroyed.count o = 0 ∧ ∃ thread, ∀ thread', l.get thread' = some o ↔ thread' = thread)

/-- `reset` gets null or an object that was never stored, and a thread ends only with null. -/
def ReleasedFirst (l : ThreadLocalPointers Obj) : ThreadLocalEvent Obj → Prop
  | .construct _ _ => True
  | .reset _ ptr => ∀ o ∈ ptr, o ∉ l.stored
  | .exit thread => l.get thread = none

instance [DecidableEq Obj] (l : ThreadLocalPointers Obj) : DecidablePred l.ReleasedFirst
  | .construct _ _ => .isTrue trivial
  | .reset _ ptr => inferInstanceAs (Decidable (∀ o ∈ ptr, o ∉ l.stored))
  | .exit thread => inferInstanceAs (Decidable (l.get thread = none))

structure Inv (l : ThreadLocalPointers Obj) : Prop where
  own : ∀ thread key o, l.specific thread key = some o → l.keyOf thread = some key
  live : ∀ thread key, l.keyOf thread = some key → key ∈ l.keys
  distinct : ∀ thread thread' key, l.keyOf thread = some key → l.keyOf thread' = some key →
    thread' = thread
  stored : ∀ thread o, l.get thread = some o → o ∈ l.stored
  destroyed : ∀ o ∈ l.destroyed, o ∈ l.stored

variable {l m : ThreadLocalPointers Obj} {thread : ThreadId} {key : PthreadKey} {ptr : Option Obj}

theorem Inv.specific_eq_none (h : l.Inv) (hk : l.keyOf thread ≠ some key) :
    l.specific thread key = none := by
  cases ho : l.specific thread key with
  | none => rfl
  | some o => exact absurd (h.own thread key o ho) hk

theorem construct_eq (h : l.construct thread key = some m) :
    l.keyOf thread = none ∧ key ∉ l.keys ∧ m =
      { l with
        keyOf := Function.update l.keyOf thread (some key)
        keys := key :: l.keys
        specific := fun thread => Function.update (l.specific thread) key none } := by
  unfold construct pthreadKeyCreate at h
  split_ifs at h with hkey hmem
  · cases h
  · exact ⟨not_not.mp hkey, hmem, (Option.some.inj h).symm⟩

theorem reset_eq (h : l.reset thread ptr = some m) :
    ∃ key, l.keyOf thread = some key ∧ m =
      { l with
        specific := Function.update l.specific thread
          (Function.update (l.specific thread) key ptr)
        stored := l.stored ++ ptr.toList
        destroyed := l.destroyed ++ (l.get thread).toList } := by
  obtain ⟨key, hkey, rfl⟩ := Option.map_eq_some_iff.mp h
  refine ⟨key, hkey, ?_⟩
  simp [swap, destroy, get, hkey]

theorem exit_eq (h : l.Inv) (thread : ThreadId) :
    ∃ keys, l.exit thread =
      { l with
        keyOf := Function.update l.keyOf thread none
        keys := keys
        specific := Function.update l.specific thread fun _ => none } ∧
      ∀ thread' key, thread' ≠ thread → l.keyOf thread' = some key → key ∈ keys := by
  cases hkey : l.keyOf thread with
  | none =>
    have hnothing : l.keys.filterMap (l.specific thread) = [] := by
      rw [List.filterMap_eq_nil_iff]
      intro key _
      apply h.specific_eq_none
      simp [hkey]
    have hsame : Function.update l.keyOf thread none = l.keyOf := by
      rw [← hkey, Function.update_eq_self]
    refine ⟨l.keys, ?_, fun thread' key _ hk => h.live thread' key hk⟩
    simp [exit, hkey, runKeyDestructors, hnothing, hsame]
  | some key =>
    have hnothing : (l.keys.filter (· ≠ key)).filterMap (l.specific thread) = [] := by
      rw [List.filterMap_eq_nil_iff]
      intro key' hk
      apply h.specific_eq_none
      intro he
      have hne : key' ≠ key := by simpa using (List.mem_filter.mp hk).2
      exact hne (Option.some.inj (he.symm.trans hkey))
    refine ⟨l.keys.filter (· ≠ key), ?_, fun thread' key' hne hk => ?_⟩
    · simp only [exit, hkey, runKeyDestructors, destructor, pthreadKeyDelete, hnothing,
        List.append_nil]
    · apply List.mem_filter.mpr
      refine ⟨h.live thread' key' hk, ?_⟩
      have hkk : key' ≠ key := fun he => hne (h.distinct thread thread' key hkey (he ▸ hk))
      simpa using hkk

theorem get_construct (h : l.Inv) (hn : l.construct thread key = some m) (thread' : ThreadId) :
    m.get thread' = l.get thread' := by
  obtain ⟨hkey, hfresh, rfl⟩ := construct_eq hn
  unfold get
  by_cases ht : thread' = thread
  · subst ht
    simp [hkey]
  · simp only [Function.update_of_ne ht]
    cases hk : l.keyOf thread' with
    | none => rfl
    | some key' =>
      have hne : key' ≠ key := fun he => hfresh (he ▸ h.live thread' key' hk)
      simp [hne]

theorem get_reset (hn : l.reset thread ptr = some m) (thread' : ThreadId) :
    m.get thread' = if thread' = thread then ptr else l.get thread' := by
  obtain ⟨key, hkey, rfl⟩ := reset_eq hn
  unfold get
  split_ifs with ht
  · subst ht
    simp [hkey]
  · simp only [Function.update_of_ne ht]

theorem get_exit (h : l.Inv) (thread thread' : ThreadId) :
    (l.exit thread).get thread' = if thread' = thread then none else l.get thread' := by
  obtain ⟨keys, he, -⟩ := exit_eq h thread
  rw [he]
  unfold get
  split_ifs with ht
  · subst ht
    simp
  · simp only [Function.update_of_ne ht]

theorem inv_create : (create : ThreadLocalPointers Obj).Inv := by
  constructor
  · intro thread key o ho
    cases ho
  · intro thread key hk
    cases hk
  · intro thread thread' key hk
    cases hk
  · intro thread o ho
    cases ho
  · intro o ho
    cases ho

theorem inv_construct (h : l.Inv) (hn : l.construct thread key = some m) : m.Inv := by
  have hget := get_construct h hn
  obtain ⟨hkey, hfresh, rfl⟩ := construct_eq hn
  have hkeyOf : ∀ thread' key', thread' ≠ thread →
      Function.update l.keyOf thread (some key) thread' = some key' → l.keyOf thread' = some key' := by
    intro thread' key' hne hk
    rwa [Function.update_of_ne hne] at hk
  refine ⟨?_, ?_, ?_, ?_, h.destroyed⟩
  · intro thread' key' o ho
    have hne : key' ≠ key := by
      rintro rfl
      simp at ho
    simp only [Function.update_of_ne hne] at ho
    have hown := h.own thread' key' o ho
    have ht : thread' ≠ thread := by
      rintro rfl
      rw [hkey] at hown
      cases hown
    simp only [Function.update_of_ne ht]
    exact hown
  · intro thread' key' hk
    by_cases ht : thread' = thread
    · subst ht
      simp only [Function.update_self, Option.some.injEq] at hk
      exact hk ▸ List.mem_cons_self
    · exact List.mem_cons_of_mem _ (h.live thread' key' (hkeyOf thread' key' ht hk))
  · intro thread₁ thread₂ key' h₁ h₂
    by_cases ht₁ : thread₁ = thread
    · subst ht₁
      simp only [Function.update_self, Option.some.injEq] at h₁
      subst h₁
      by_contra hne
      exact hfresh (h.live _ _ (hkeyOf thread₂ key hne h₂))
    · by_cases ht₂ : thread₂ = thread
      · subst ht₂
        simp only [Function.update_self, Option.some.injEq] at h₂
        subst h₂
        exact absurd (h.live _ _ (hkeyOf thread₁ key ht₁ h₁)) hfresh
      · exact h.distinct _ _ _ (hkeyOf thread₁ key' ht₁ h₁) (hkeyOf thread₂ key' ht₂ h₂)
  · intro thread' o ho
    rw [hget] at ho
    exact h.stored thread' o ho

theorem inv_reset (h : l.Inv) (hn : l.reset thread ptr = some m) : m.Inv := by
  have hget := get_reset hn
  obtain ⟨key, hkey, rfl⟩ := reset_eq hn
  refine ⟨?_, h.live, h.distinct, ?_, ?_⟩
  · intro thread' key' o ho
    by_cases ht : thread' = thread
    · subst ht
      simp only [Function.update_self] at ho
      by_cases hk : key' = key
      · subst hk
        exact hkey
      · rw [Function.update_of_ne hk] at ho
        exact h.own thread' key' o ho
    · simp only [Function.update_of_ne ht] at ho
      exact h.own thread' key' o ho
  · intro thread' o ho
    rw [hget] at ho
    split_ifs at ho
    · exact List.mem_append_right _ (Option.mem_toList.mpr ho)
    · exact List.mem_append_left _ (h.stored thread' o ho)
  · intro o ho
    cases List.mem_append.mp ho with
    | inl hold => exact List.mem_append_left _ (h.destroyed o hold)
    | inr hnew => exact List.mem_append_left _ (h.stored thread o (Option.mem_toList.mp hnew))

theorem inv_exit (h : l.Inv) (thread : ThreadId) : (l.exit thread).Inv := by
  have hget := get_exit h thread
  obtain ⟨keys, he, hkeys⟩ := exit_eq h thread
  rw [he] at hget ⊢
  have hkeyOf : ∀ thread' key', Function.update l.keyOf thread none thread' = some key' →
      thread' ≠ thread ∧ l.keyOf thread' = some key' := by
    intro thread' key' hk
    by_cases ht : thread' = thread
    · subst ht
      simp at hk
    · rw [Function.update_of_ne ht] at hk
      exact ⟨ht, hk⟩
  refine ⟨?_, ?_, ?_, ?_, h.destroyed⟩
  · intro thread' key' o ho
    by_cases ht : thread' = thread
    · subst ht
      simp at ho
    · simp only [Function.update_of_ne ht] at ho ⊢
      exact h.own thread' key' o ho
  · intro thread' key' hk
    obtain ⟨hne, hk⟩ := hkeyOf thread' key' hk
    exact hkeys thread' key' hne hk
  · intro thread₁ thread₂ key' h₁ h₂
    exact h.distinct _ _ _ (hkeyOf _ _ h₁).2 (hkeyOf _ _ h₂).2
  · intro thread' o ho
    rw [hget] at ho
    split_ifs at ho
    exact h.stored thread' o ho

theorem inv_next {e : ThreadLocalEvent Obj} (h : l.Inv) (hn : l.next e = some m) : m.Inv := by
  cases e with
  | construct thread key => exact inv_construct h hn
  | reset thread ptr => exact inv_reset h hn
  | exit thread =>
    rw [← Option.some.inj hn]
    exact inv_exit h thread

section Ownership

variable [DecidableEq Obj]

theorem count_toList (ptr : Option Obj) (o : Obj) :
    ptr.toList.count o = if ptr = some o then 1 else 0 := by
  cases ptr with
  | none => simp
  | some p => simp [List.count_singleton]

theorem count_destroyed_reset (hn : l.reset thread ptr = some m) (o : Obj) :
    m.destroyed.count o = l.destroyed.count o + if l.get thread = some o then 1 else 0 := by
  obtain ⟨key, -, rfl⟩ := reset_eq hn
  rw [List.count_append, count_toList]

theorem fresh_of_destroyedOnce_reset (hp : l.DestroyedOnce) (hn : l.reset thread ptr = some m)
    (hd : m.DestroyedOnce) {o : Obj} (ho : ptr = some o) : o ∉ l.stored := by
  intro hold
  have hget := get_reset hn
  have hcount := count_destroyed_reset hn o
  obtain ⟨key, -, hm⟩ := reset_eq hn
  have hstored : o ∈ m.stored := by
    rw [hm]
    exact List.mem_append_left _ hold
  have hnow : m.get thread = some o := by rw [hget, if_pos rfl, ho]
  cases hd o hstored with
  | inl hgone => exact hgone.2 thread hnow
  | inr hheld =>
    obtain ⟨hzero, t₁, hholder⟩ := hheld
    obtain rfl := (hholder thread).mp hnow
    cases hp o hold with
    | inl hgone => omega
    | inr hheld' =>
      obtain ⟨-, t₀, hholder'⟩ := hheld'
      have ht₀ := (hholder' t₀).mpr rfl
      by_cases ht : t₀ = thread
      · rw [ht] at ht₀
        rw [if_pos ht₀] at hcount
        omega
      · apply ht
        rw [← hholder, hget, if_neg ht, ht₀]

theorem destroyedOnce_reset (h : l.Inv) (hp : l.DestroyedOnce) (hn : l.reset thread ptr = some m)
    (hfresh : ∀ o ∈ ptr, o ∉ l.stored) : m.DestroyedOnce := by
  intro o ho
  have hget := get_reset hn
  have hcount := count_destroyed_reset hn o
  obtain ⟨key, -, hm⟩ := reset_eq hn
  rw [hm] at ho
  cases List.mem_append.mp ho with
  | inl hold =>
    have hptr : ptr ≠ some o := fun he => hfresh o he hold
    cases hp o hold with
    | inl hgone =>
      rw [if_neg (hgone.2 thread)] at hcount
      refine .inl ⟨hcount.trans hgone.1, fun t => ?_⟩
      rw [hget]
      split_ifs
      · exact hptr
      · exact hgone.2 t
    | inr hheld =>
      obtain ⟨hzero, t₀, hholder⟩ := hheld
      by_cases ht : thread = t₀
      · rw [if_pos ((hholder thread).mpr ht)] at hcount
        refine .inl ⟨by omega, fun t => ?_⟩
        rw [hget]
        split_ifs with htt
        · exact hptr
        · rw [ne_eq, hholder]
          exact fun he => htt (he.trans ht.symm)
      · rw [if_neg fun he => ht ((hholder thread).mp he)] at hcount
        refine .inr ⟨by omega, t₀, fun t => ?_⟩
        rw [hget]
        split_ifs with htt
        · exact iff_of_false hptr fun he => ht (htt.symm.trans he)
        · exact hholder t
  | inr hnew =>
    have hptr : ptr = some o := Option.mem_toList.mp hnew
    have hunstored : ∀ t, l.get t ≠ some o := fun t he => hfresh o hptr (h.stored t o he)
    have hundestroyed : o ∉ l.destroyed := fun he => hfresh o hptr (h.destroyed o he)
    rw [if_neg (hunstored thread), List.count_eq_zero.mpr hundestroyed] at hcount
    refine .inr ⟨hcount, thread, fun t => ?_⟩
    rw [hget]
    split_ifs with htt
    · exact iff_of_true hptr htt
    · exact iff_of_false (hunstored t) htt

theorem destroyedOnce_exit_iff (h : l.Inv) (hp : l.DestroyedOnce) (thread : ThreadId) :
    (l.exit thread).DestroyedOnce ↔ l.get thread = none := by
  have hget := get_exit h thread
  obtain ⟨keys, he, -⟩ := exit_eq h thread
  have hstored : (l.exit thread).stored = l.stored := by rw [he]
  have hdestroyed : (l.exit thread).destroyed = l.destroyed := by rw [he]
  unfold DestroyedOnce
  rw [hstored, hdestroyed]
  constructor
  · intro hd
    by_contra hsome
    obtain ⟨o, ho⟩ := Option.ne_none_iff_exists'.mp hsome
    have hold := h.stored thread o ho
    cases hp o hold with
    | inl hgone => exact hgone.2 thread ho
    | inr hheld =>
      obtain ⟨hzero, t₀, hholder⟩ := hheld
      cases hd o hold with
      | inl hgone => omega
      | inr hheld' =>
        obtain ⟨-, t₁, hholder'⟩ := hheld'
        have ht₁ := (hholder' t₁).mpr rfl
        rw [hget] at ht₁
        split_ifs at ht₁ with ht
        apply ht
        rw [(hholder t₁).mp ht₁, (hholder thread).mp ho]
  · intro hnone o ho
    have hsame : ∀ t, (l.exit thread).get t = l.get t := by
      intro t
      rw [hget]
      split_ifs with ht
      · rw [ht, hnone]
      · rfl
    simp only [hsame]
    exact hp o ho

theorem destroyedOnce_next_iff {e : ThreadLocalEvent Obj} (h : l.Inv) (hp : l.DestroyedOnce)
    (hn : l.next e = some m) : m.DestroyedOnce ↔ l.ReleasedFirst e := by
  cases e with
  | construct thread key =>
    have hget := get_construct h hn
    obtain ⟨-, -, rfl⟩ := construct_eq hn
    apply iff_of_true _ trivial
    intro o ho
    simp only [hget]
    exact hp o ho
  | reset thread ptr =>
    constructor
    · intro hd o ho
      exact fresh_of_destroyedOnce_reset hp hn hd ho
    · exact destroyedOnce_reset h hp hn
  | exit thread =>
    rw [← Option.some.inj hn]
    exact destroyedOnce_exit_iff h hp thread

theorem destroyedOnce_iff (es : List (ThreadLocalEvent Obj)) (hr : (run next create es).isSome) :
    Always next DestroyedOnce create es ↔ Meets next ReleasedFirst create es := by
  have hcreate : (create : ThreadLocalPointers Obj).DestroyedOnce := by
    intro o ho
    cases ho
  apply always_iff_meets inv_create hcreate _ _ hr
  · intro l e m h hn _ _
    exact inv_next h hn
  · intro l e m h hn hp
    exact destroyedOnce_next_iff h hp hn

end Ownership

def attachAndExit : List (ThreadLocalEvent ℕ) := [.construct 1 0, .reset 1 (some 7), .exit 1]

theorem destroyedOnce_iff_attachAndExit :
    Always next DestroyedOnce create attachAndExit ↔ Meets next ReleasedFirst create attachAndExit :=
  destroyedOnce_iff attachAndExit rfl

theorem attachAndExit_leaks : ∃ l, run next create attachAndExit = some l ∧ 7 ∈ l.stored ∧
    l.destroyed = [] ∧ (∀ thread, l.get thread = none) ∧ ¬ l.DestroyedOnce := by
  have hget : ∀ thread, ((run next create attachAndExit).get rfl).get thread = none := by
    intro thread
    by_cases ht : thread = 1
    · subst ht
      rfl
    · have hkey : ((run next create attachAndExit).get rfl).keyOf thread = none := by
        change Function.update (Function.update (fun _ => none) 1 (some 0)) 1 none thread = none
        rw [Function.update_of_ne ht, Function.update_of_ne ht]
      rw [get, hkey, Option.bind_none]
  refine ⟨_, rfl, List.mem_cons_self, rfl, hget, fun h => ?_⟩
  cases h 7 List.mem_cons_self with
  | inl hgone => cases hgone.1
  | inr hheld =>
    obtain ⟨-, thread, hholder⟩ := hheld
    have hsome := (hget thread).symm.trans ((hholder thread).mpr rfl)
    cases hsome

end ThreadLocalPointers

end EnvironmentCheck
