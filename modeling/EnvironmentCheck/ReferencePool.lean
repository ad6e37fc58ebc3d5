import EnvironmentCheck.Library.LinkedList
import Mathlib.Data.List.Infix
import Mathlib.Data.List.Nodup

namespace EnvironmentCheck

open LinkedList

/-! The references to native objects, which `NativeObjectReference` keeps in a list of its own. -/

/-- The pool's head, and the two links that each reference has. -/
structure ReferencePool (α : Type*) where
  head : Option α
  prev : α → Option α
  next : α → Option α

namespace ReferencePool

variable {α : Type*} {pool : ReferencePool α} {l r : List α} {ref : α}

/-- The list that is read from the head through the next links. -/
def Holds (pool : ReferencePool α) (l : List α) : Prop :=
  Represents pool.head pool.prev pool.next l

/-- No reference was added; the links of a new one are null. -/
def empty : ReferencePool α where
  head := none
  prev := fun _ => none
  next := fun _ => none

theorem empty_holds : (empty : ReferencePool α).Holds [] := ⟨rfl, trivial, List.nodup_nil⟩

/-! ### Histories -/

inductive Call (α : Type*) where
  | add (ref : α)
  | remove (ref : α)
  deriving DecidableEq

def added (es : List (Call α)) : List α :=
  es.filterMap fun
    | .add ref => some ref
    | .remove _ => none

def removed (es : List (Call α)) : List α :=
  es.filterMap fun
    | .add _ => none
    | .remove ref => some ref

/-- Each reference is added once, and removed at most once after it was added. -/
structure Legal (es : List (Call α)) : Prop where
  added_once : (added es).Nodup
  removed_once : (removed es).Nodup
  removed_later : ∀ front ref, front ++ [Call.remove ref] <+: es → ref ∈ added front

variable {es : List (Call α)}

@[simp] theorem added_snoc_add : added (es ++ [Call.add ref]) = added es ++ [ref] := by
  simp [added]

@[simp] theorem added_snoc_remove : added (es ++ [Call.remove ref]) = added es := by
  simp [added]

@[simp] theorem removed_snoc_add : removed (es ++ [Call.add ref]) = removed es := by
  simp [removed]

@[simp] theorem removed_snoc_remove : removed (es ++ [Call.remove ref]) = removed es ++ [ref] := by
  simp [removed]

theorem legal_nil : Legal ([] : List (Call α)) :=
  ⟨List.nodup_nil, List.nodup_nil, fun front ref h => by simp at h⟩

theorem legal_add : Legal (es ++ [Call.add ref]) ↔ Legal es ∧ ref ∉ added es := by
  constructor
  · rintro ⟨hadded, hremoved, hlater⟩
    rw [added_snoc_add, ← List.concat_eq_append, List.nodup_concat] at hadded
    rw [removed_snoc_add] at hremoved
    refine ⟨⟨hadded.2, hremoved, fun front r hf => hlater front r ?_⟩, hadded.1⟩
    exact hf.trans (List.prefix_append _ _)
  · rintro ⟨⟨hadded, hremoved, hlater⟩, href⟩
    constructor
    · rw [added_snoc_add, ← List.concat_eq_append, List.nodup_concat]
      exact ⟨href, hadded⟩
    · rwa [removed_snoc_add]
    · intro front r hf
      obtain heq | hf := List.prefix_concat_iff.mp hf
      · cases (List.append_inj' heq rfl).2
      · exact hlater front r hf

theorem legal_remove :
    Legal (es ++ [Call.remove ref]) ↔ Legal es ∧ ref ∈ added es ∧ ref ∉ removed es := by
  constructor
  · rintro ⟨hadded, hremoved, hlater⟩
    rw [added_snoc_remove] at hadded
    rw [removed_snoc_remove, ← List.concat_eq_append, List.nodup_concat] at hremoved
    refine ⟨⟨hadded, hremoved.2, fun front r hf => hlater front r ?_⟩, ?_, hremoved.1⟩
    · exact hf.trans (List.prefix_append _ _)
    · exact hlater es ref (List.prefix_refl _)
  · rintro ⟨⟨hadded, hremoved, hlater⟩, hmem, href⟩
    constructor
    · rwa [added_snoc_remove]
    · rw [removed_snoc_remove, ← List.concat_eq_append, List.nodup_concat]
      exact ⟨href, hremoved⟩
    · intro front r hf
      obtain heq | hf := List.prefix_concat_iff.mp hf
      · obtain ⟨rfl, hlast⟩ := List.append_inj' heq rfl
        cases hlast
        exact hmem
      · exact hlater front r hf

theorem Legal.removed_subset (h : Legal es) : removed es ⊆ added es := by
  induction es using List.reverseRecOn with
  | nil => exact List.Subset.refl _
  | append_singleton es e ih =>
    cases e with
    | add ref =>
      rw [added_snoc_add, removed_snoc_add]
      exact List.subset_append_of_subset_left _ (ih (legal_add.mp h).1)
    | remove ref =>
      obtain ⟨hes, hmem, _⟩ := legal_remove.mp h
      rw [added_snoc_remove, removed_snoc_remove]
      exact List.append_subset.mpr ⟨ih hes, by simpa using hmem⟩

/-! ### The calls -/

variable [DecidableEq α]

def add (pool : ReferencePool α) (ref : α) : ReferencePool α where
  prev := relink (Function.update pool.prev ref none) pool.head (some ref)
  next := Function.update pool.next ref pool.head
  head := some ref

def remove (pool : ReferencePool α) (ref : α) : ReferencePool α :=
  let next := pool.next ref
  let prev := pool.prev ref
  let cleared : ReferencePool α :=
    { pool with
      next := Function.update pool.next ref none
      prev := Function.update pool.prev ref none }
  let unlinked : ReferencePool α :=
    match prev with
    | some _ => { cleared with next := relink cleared.next prev next }
    | none => { cleared with head := next }
  { unlinked with prev := relink unlinked.prev next prev }

theorem add_holds (h : pool.Holds l) (hr : ref ∉ l) : (pool.add ref).Holds (ref :: l) :=
  h.push hr

theorem remove_eq : pool.remove ref =
    { head := if pool.prev ref = none then pool.next ref else pool.head
      prev := relink (Function.update pool.prev ref none) (pool.next ref) (pool.prev ref)
      next := relink (Function.update pool.next ref none) (pool.prev ref) (pool.next ref) } := by
  unfold remove
  cases pool.prev ref <;> rfl

theorem remove_holds (h : pool.Holds l) (hr : ref ∈ l) :
    (pool.remove ref).Holds (l.filter (· ≠ ref)) := by
  obtain ⟨a, b, rfl⟩ := List.append_of_mem hr
  have ha : ∀ x ∈ a, x ≠ ref := fun x hx =>
    (List.nodup_append.mp h.nodup).2.2 x hx ref List.mem_cons_self
  have hb : ∀ x ∈ b, x ≠ ref := fun x hx =>
    ne_of_mem_of_not_mem hx (List.nodup_cons.mp (List.nodup_append.mp h.nodup).2.1).1
  have hothers : (a ++ ref :: b).filter (· ≠ ref) = a ++ b := by
    rw [List.filter_append, List.filter_cons_of_neg (by simp),
      List.filter_eq_self.mpr (by simpa using ha), List.filter_eq_self.mpr (by simpa using hb)]
  rw [hothers, remove_eq]
  exact h.unlink

def call (pool : ReferencePool α) : Call α → ReferencePool α
  | .add ref => pool.add ref
  | .remove ref => pool.remove ref

def after (es : List (Call α)) : ReferencePool α :=
  es.foldl call empty

theorem after_snoc (e : Call α) : after (es ++ [e]) = (after es).call e := by
  rw [after, List.foldl_append]
  rfl

/-- The references added and not yet removed, the most recent first. -/
def live (es : List (Call α)) : List α :=
  (added es).reverse.filter (· ∉ removed es)

theorem mem_live : ref ∈ live es ↔ ref ∈ added es ∧ ref ∉ removed es := by
  simp [live]

theorem live_add (h : ref ∉ removed es) : live (es ++ [Call.add ref]) = ref :: live es := by
  rw [live, added_snoc_add, removed_snoc_add, List.reverse_append, List.reverse_singleton,
    List.singleton_append, List.filter_cons_of_pos (by simpa using h)]
  rfl

theorem live_remove : live (es ++ [Call.remove ref]) = (live es).filter (· ≠ ref) := by
  rw [live, added_snoc_remove, removed_snoc_remove, live, List.filter_filter]
  apply List.filter_congr
  intro x _
  simp [not_or, and_comm]

theorem after_holds (h : Legal es) : (after es).Holds (live es) := by
  induction es using List.reverseRecOn with
  | nil => exact empty_holds
  | append_singleton es e ih =>
    rw [after_snoc]
    cases e with
    | add ref =>
      obtain ⟨hes, hnew⟩ := legal_add.mp h
      rw [live_add fun hmem => hnew (hes.removed_subset hmem)]
      exact add_holds (ih hes) fun hmem => hnew (mem_live.mp hmem).1
    | remove ref =>
      obtain ⟨hes, href⟩ := legal_remove.mp h
      rw [live_remove]
      exact remove_holds (ih hes) (mem_live.mpr href)

/-- What `n` steps from the head reach. -/
def list (pool : ReferencePool α) (n : ℕ) : List α :=
  reached pool.next n pool.head

theorem pool_linked (es : List (Call α)) (h : Legal es) :
    (∀ n, (after es).list n = (live es).take n) ∧ (live es).Nodup ∧
      (∀ ref, ref ∈ live es ↔ ref ∈ added es ∧ ref ∉ removed es) ∧
      (live es).Sublist (added es).reverse ∧
      (∀ x ∈ live es, ∀ y, (after es).next x = some y ↔ y ∈ live es ∧ (after es).prev y = some x) ∧
      (∀ y ∈ live es, ∀ x, (after es).prev y = some x ↔ x ∈ live es ∧ (after es).next x = some y) ∧
      (∀ x ∈ (after es).head, (after es).prev x = none) ∧
      ∀ ref, Legal (es ++ [Call.remove ref]) → ∀ n, (live es).length ≤ n →
        (after (es ++ [Call.remove ref])).list n = ((after es).list n).filter (· ≠ ref) := by
  have hes := after_holds h
  have hlist : ∀ n, (after es).list n = (live es).take n := fun n => Represents.reached hes n
  have horder : (live es).Sublist (added es).reverse := List.filter_sublist
  have hnext : ∀ x ∈ live es, ∀ y,
      (after es).next x = some y ↔ y ∈ live es ∧ (after es).prev y = some x :=
    fun x hx y => Represents.next_eq_iff hes hx
  have hprev : ∀ y ∈ live es, ∀ x,
      (after es).prev y = some x ↔ x ∈ live es ∧ (after es).next x = some y :=
    fun y hy x => Represents.prev_eq_iff hes hy
  have hhead : ∀ x ∈ (after es).head, (after es).prev x = none :=
    fun x hx => Represents.prev_head hes hx
  refine ⟨hlist, hes.nodup, fun _ => mem_live, horder, hnext, hprev, hhead, ?_⟩
  intro ref href n hn
  have hle : ((live es).filter (· ≠ ref)).length ≤ n := (List.length_filter_le _ _).trans hn
  have hbefore : (after es).list n = live es := (hlist n).trans (List.take_of_length_le hn)
  have hafter : (after (es ++ [Call.remove ref])).list n = (live es).filter (· ≠ ref) := by
    have hrest := (after_holds href).reached n
    rwa [live_remove, List.take_of_length_le hle] at hrest
  rw [hbefore, hafter]

theorem pool_linked_three :
    Legal [.add 1, .add 2, .add 3, .remove 2] ∧
      ∀ n, (after [.add 1, .add 2, .add 3, .remove 2]).list n = ([3, 1] : List ℕ).take n := by
  have hsteps : Legal ([] ++ [Call.add 1] ++ [Call.add 2] ++ [Call.add 3] ++ [Call.remove 2]) := by
    simp only [legal_remove, legal_add, legal_nil, true_and]
    decide
  have h : Legal ([.add 1, .add 2, .add 3, .remove 2] : List (Call ℕ)) := hsteps
  have hlive : live [.add 1, .add 2, .add 3, .remove 2] = ([3, 1] : List ℕ) := by decide
  rw [← hlive]
  exact ⟨h, (pool_linked _ h).1⟩

/-! ### The finalizer thread -/

/-- What `referenceQueue.remove()` came to. For a reference, whether the native finalizer
returned. -/
inductive Dequeued (α : Type*) where
  | reference (ref : α) (finalized : Bool)
  | interrupted

def cleanup (pool : ReferencePool α) (ref : α) (finalized : Bool) : ReferencePool α :=
  if finalized then pool.remove ref else pool

def finalizerRun (pool : ReferencePool α) : List (Dequeued α) → ReferencePool α
  | [] => pool
  | .interrupted :: _ => pool
  | .reference ref finalized :: ds => finalizerRun (pool.cleanup ref finalized) ds

/-- The references that the thread removes. -/
def cleaned : List (Dequeued α) → List α
  | [] => []
  | .interrupted :: _ => []
  | .reference ref true :: ds => ref :: cleaned ds
  | .reference _ false :: ds => cleaned ds

theorem finalizerRun_holds {ds : List (Dequeued α)} (h : pool.Holds l) (hd : (cleaned ds).Nodup)
    (hl : cleaned ds ⊆ l) : (pool.finalizerRun ds).Holds (l.filter (· ∉ cleaned ds)) := by
  fun_induction cleaned ds generalizing pool l with
  | case1 => simpa [finalizerRun] using h
  | case2 ds => simpa [finalizerRun] using h
  | case3 ref ds ih =>
    obtain ⟨hnew, hd⟩ := List.nodup_cons.mp hd
    obtain ⟨href, hl⟩ := List.cons_subset.mp hl
    have hrest : cleaned ds ⊆ l.filter (· ≠ ref) := fun x hx =>
      List.mem_filter.mpr ⟨hl hx, by simpa using ne_of_mem_of_not_mem hx hnew⟩
    have hlast := ih (remove_holds h href) hd hrest
    rw [List.filter_filter] at hlast
    simpa [finalizerRun, cleanup, not_or, Bool.and_comm] using hlast
  | case4 ref ds ih => simpa [finalizerRun, cleanup] using ih h hd hl

end ReferencePool

end EnvironmentCheck
