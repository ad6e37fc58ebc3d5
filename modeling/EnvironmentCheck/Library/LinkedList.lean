import Mathlib.Order.Basic

namespace EnvironmentCheck

namespace LinkedList

variable {α : Type*} {prev next : α → Option α} {p q : Option α} {l r : List α} {x y : α}

/-- Nodes that are linked both ways, between what stands before them and what stands after. -/
def Segment (prev next : α → Option α) (p : Option α) : List α → Option α → Prop
  | [], _ => True
  | x :: l, q => prev x = p ∧ next x = l.head?.or q ∧ Segment prev next (some x) l q

theorem segment_append : Segment prev next p (l ++ r) q ↔
    Segment prev next p l (r.head?.or q) ∧ Segment prev next (l.getLast?.or p) r q := by
  induction l generalizing p with
  | nil => simp [Segment]
  | cons x l ih =>
    have hlast : (x :: l).getLast?.or p = l.getLast?.or (some x) := by
      rw [List.getLast?_cons]
      cases l.getLast? <;> rfl
    have hhead : (l ++ r).head?.or q = l.head?.or (r.head?.or q) := by
      rw [List.head?_append, Option.or_assoc]
    rw [List.cons_append, Segment, Segment, ih, hlast, hhead, and_assoc, and_assoc]

theorem segment_congr {prev' next' : α → Option α} (h : Segment prev next p l q)
    (hprev : ∀ x ∈ l, prev' x = prev x) (hnext : ∀ x ∈ l, next' x = next x) :
    Segment prev' next' p l q := by
  induction l generalizing p with
  | nil => trivial
  | cons x l ih =>
    obtain ⟨hp, hq, hl⟩ := h
    refine ⟨(hprev x List.mem_cons_self).trans hp, (hnext x List.mem_cons_self).trans hq, ?_⟩
    exact ih hl (fun y hy => hprev y (List.mem_cons_of_mem x hy))
      fun y hy => hnext y (List.mem_cons_of_mem x hy)

/-! ### Lists without anything before or after -/

structure Represents (head : Option α) (prev next : α → Option α) (l : List α) : Prop where
  head_eq : head = l.head?
  linked : Segment prev next none l none
  nodup : l.Nodup

variable {head : Option α}

/-- What is reached from a node in this many steps. -/
def reached (next : α → Option α) : ℕ → Option α → List α
  | 0, _ => []
  | _ + 1, none => []
  | n + 1, some x => x :: reached next n (next x)

theorem reached_of_segment (h : Segment prev next p l none) (n : ℕ) :
    reached next n l.head? = l.take n := by
  induction l generalizing p n with
  | nil => cases n <;> rfl
  | cons x l ih =>
    obtain ⟨_, hq, hl⟩ := h
    cases n with
    | zero => rfl
    | succ n =>
      rw [Option.or_none] at hq
      rw [List.head?_cons, reached, hq, ih hl, List.take_succ_cons]

theorem Represents.reached (h : Represents head prev next l) (n : ℕ) :
    reached next n head = l.take n := by
  rw [h.head_eq]
  exact reached_of_segment h.linked n

/-- The neighbours of a node. -/
theorem Represents.neighbours (h : Represents head prev next (l ++ x :: r)) :
    prev x = l.getLast? ∧ next x = r.head? := by
  obtain ⟨_, hp, hq, _⟩ := segment_append.mp h.linked
  rw [Option.or_none] at hp hq
  exact ⟨hp, hq⟩

theorem Represents.next_eq_iff (h : Represents head prev next l) (hx : x ∈ l) :
    next x = some y ↔ y ∈ l ∧ prev y = some x := by
  constructor
  · intro hy
    obtain ⟨a, b, rfl⟩ := List.append_of_mem hx
    rw [h.neighbours.2] at hy
    obtain ⟨c, rfl⟩ := List.head?_eq_some_iff.mp hy
    refine ⟨by simp, ?_⟩
    rw [← List.singleton_append, ← List.append_assoc] at h
    rw [h.neighbours.1, List.getLast?_concat]
  · rintro ⟨hmem, hprev⟩
    obtain ⟨a, b, rfl⟩ := List.append_of_mem hmem
    rw [h.neighbours.1] at hprev
    obtain ⟨c, rfl⟩ := List.getLast?_eq_some_iff.mp hprev
    rw [List.append_assoc, List.singleton_append] at h
    rw [h.neighbours.2, List.head?_cons]

theorem Represents.prev_eq_iff (h : Represents head prev next l) (hy : y ∈ l) :
    prev y = some x ↔ x ∈ l ∧ next x = some y := by
  constructor
  · intro hx
    obtain ⟨a, b, rfl⟩ := List.append_of_mem hy
    have hmem : x ∈ a ++ y :: b := by
      rw [h.neighbours.1] at hx
      exact List.mem_append_left _ (List.mem_of_mem_getLast? hx)
    exact ⟨hmem, (h.next_eq_iff hmem).mpr ⟨hy, hx⟩⟩
  · rintro ⟨hmem, hnext⟩
    exact ((h.next_eq_iff hmem).mp hnext).2

theorem Represents.prev_head (h : Represents head prev next l) (hx : x ∈ head) : prev x = none := by
  cases l with
  | nil =>
    rw [h.head_eq] at hx
    cases hx
  | cons y l =>
    rw [h.head_eq] at hx
    cases hx
    exact h.linked.1

/-! ### Linking and unlinking -/

section

variable [DecidableEq α]

/-- The links after the node, where there is one, got this one. -/
def relink (f : α → Option α) (node link : Option α) : α → Option α :=
  match node with
  | none => f
  | some y => Function.update f y link

theorem relink_of_not_mem {f : α → Option α} {node link : Option α} (h : x ∉ node) :
    relink f node link x = f x := by
  cases node with
  | none => rfl
  | some y =>
    have hne : x ≠ y := by
      rintro rfl
      exact h rfl
    rw [relink, Function.update_of_ne hne]

theorem relink_self (f : α → Option α) (link : Option α) : relink f (some x) link x = link := by
  rw [relink, Function.update_self]

theorem relink_of_ne {f : α → Option α} {link : Option α} (h : y ≠ x) :
    relink f (some x) link y = f y := by
  rw [relink, Function.update_of_ne h]

theorem segment_relink_prev (h : Segment prev next p l q) (hl : l.Nodup) (p' : Option α) :
    Segment (relink prev l.head? p') next p' l q := by
  cases l with
  | nil => trivial
  | cons x l =>
    obtain ⟨_, hq, hrest⟩ := h
    refine ⟨relink_self prev p', hq, segment_congr hrest ?_ fun _ _ => rfl⟩
    intro y hy
    exact relink_of_ne (ne_of_mem_of_not_mem hy (List.nodup_cons.mp hl).1)

theorem segment_relink_next (h : Segment prev next p l q) (hl : l.Nodup) (q' : Option α) :
    Segment prev (relink next l.getLast? q') p l q' := by
  obtain rfl | ⟨l, x, rfl⟩ := List.eq_nil_or_concat l
  · trivial
  · rw [List.concat_eq_append] at h hl ⊢
    obtain ⟨hfront, hp, _⟩ := segment_append.mp h
    have hx : x ∉ l := fun hmem => (List.nodup_append.mp hl).2.2 x hmem x (by simp) rfl
    rw [List.getLast?_concat]
    refine segment_append.mpr ⟨segment_congr hfront (fun _ _ => rfl) ?_, hp, ?_, trivial⟩
    · intro y hy
      exact relink_of_ne (ne_of_mem_of_not_mem hy hx)
    · exact relink_self next q'

/-- A node put before the first one. -/
theorem Represents.push (h : Represents head prev next l) (hx : x ∉ l) :
    Represents (some x) (relink (Function.update prev x none) head (some x))
      (Function.update next x head) (x :: l) := by
  have hkeep : Segment (Function.update prev x none) (Function.update next x head) none l none :=
    segment_congr h.linked
      (fun y hy => Function.update_of_ne (ne_of_mem_of_not_mem hy hx) none prev)
      fun y hy => Function.update_of_ne (ne_of_mem_of_not_mem hy hx) head next
  have hhead : x ∉ l.head? := fun hmem => hx (List.mem_of_mem_head? hmem)
  rw [h.head_eq] at hkeep ⊢
  refine ⟨rfl, ⟨?_, ?_, segment_relink_prev hkeep h.nodup (some x)⟩,
    List.nodup_cons.mpr ⟨hx, h.nodup⟩⟩
  · rw [relink_of_not_mem hhead, Function.update_self]
  · rw [Function.update_self, Option.or_none]

/-- A node taken out; its neighbours are linked with each other. -/
theorem Represents.unlink (h : Represents head prev next (l ++ x :: r)) :
    Represents (if prev x = none then next x else head)
      (relink (Function.update prev x none) (next x) (prev x))
      (relink (Function.update next x none) (prev x) (next x)) (l ++ r) := by
  obtain ⟨hprev, hnext⟩ := h.neighbours
  obtain ⟨hl, hxr, hlr⟩ := List.nodup_append.mp h.nodup
  obtain ⟨hx, hr⟩ := List.nodup_cons.mp hxr
  have hxl : x ∉ l := fun hmem => hlr x hmem x List.mem_cons_self rfl
  have hdisjoint : ∀ y ∈ l, y ∉ r := fun y hy hmem => hlr y hy y (List.mem_cons_of_mem x hmem) rfl
  obtain ⟨hfront, _, _, hback⟩ := segment_append.mp h.linked
  have hkeep (m : List α) (hm : x ∉ m) (f : α → Option α) (y : α) (hy : y ∈ m) :
      Function.update f x none y = f y :=
    Function.update_of_ne (ne_of_mem_of_not_mem hy hm) none f
  rw [hprev, hnext]
  refine ⟨?_, segment_append.mpr ⟨?_, ?_⟩, ?_⟩
  · rw [h.head_eq]
    cases l with
    | nil => rfl
    | cons y l =>
      rw [if_neg (by simp)]
      rfl
  · rw [Option.or_none]
    have hlast := segment_relink_next (segment_congr hfront (hkeep l hxl prev) (hkeep l hxl next))
      hl r.head?
    refine segment_congr hlast ?_ fun _ _ => rfl
    intro y hy
    exact relink_of_not_mem fun hmem => hdisjoint y hy (List.mem_of_mem_head? hmem)
  · rw [Option.or_none]
    have hfirst := segment_relink_prev (segment_congr hback (hkeep r hx prev) (hkeep r hx next))
      hr l.getLast?
    refine segment_congr hfirst (fun _ _ => rfl) ?_
    intro y hy
    exact relink_of_not_mem fun hmem => hdisjoint y (List.mem_of_mem_getLast? hmem) hy
  · exact List.nodup_append.mpr ⟨hl, hr, fun y hy z hz heq => hdisjoint y hy (heq ▸ hz)⟩

end

end LinkedList

end EnvironmentCheck
