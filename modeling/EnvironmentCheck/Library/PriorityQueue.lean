import Mathlib.Data.List.Sort

namespace EnvironmentCheck

/-- A heap by what it shows: its elements in the order in which they are removed. -/
@[ext] structure PriorityQueue (α : Type*) (le : α → α → Prop) where
  elems : List α
  sorted : elems.Pairwise le

namespace PriorityQueue

variable {α : Type*} {le : α → α → Prop}

instance : Membership α (PriorityQueue α le) := ⟨fun q x => x ∈ q.elems⟩

theorem mem_def {x : α} {q : PriorityQueue α le} : x ∈ q ↔ x ∈ q.elems := Iff.rfl

def empty : PriorityQueue α le := ⟨[], .nil⟩

def push [DecidableRel le] [Std.Total le] [IsTrans α le] (q : PriorityQueue α le) (x : α) :
    PriorityQueue α le :=
  ⟨q.elems.orderedInsert le x, q.sorted.orderedInsert x _⟩

def top (q : PriorityQueue α le) : Option α := q.elems.head?

def pop (q : PriorityQueue α le) : PriorityQueue α le := ⟨q.elems.tail, q.sorted.tail⟩

def size (q : PriorityQueue α le) : ℕ := q.elems.length

def isEmpty (q : PriorityQueue α le) : Bool := q.elems.isEmpty

@[simp] theorem elems_empty : (empty : PriorityQueue α le).elems = [] := rfl

@[simp] theorem elems_pop (q : PriorityQueue α le) : q.pop.elems = q.elems.tail := rfl

@[simp] theorem isEmpty_iff (q : PriorityQueue α le) : q.isEmpty = true ↔ q.elems = [] :=
  List.isEmpty_iff

@[simp] theorem isEmpty_eq_false (q : PriorityQueue α le) : q.isEmpty = false ↔ q.elems ≠ [] :=
  List.isEmpty_eq_false_iff

theorem push_perm [DecidableRel le] [Std.Total le] [IsTrans α le] (q : PriorityQueue α le) (x : α) :
    (q.push x).elems.Perm (x :: q.elems) :=
  List.perm_orderedInsert le x q.elems

theorem elems_of_top {q : PriorityQueue α le} {x : α} (h : q.top = some x) :
    q.elems = x :: q.pop.elems := by
  unfold top at h
  cases he : q.elems with
  | nil => simp [he] at h
  | cons y ys =>
    simp only [he, List.head?_cons, Option.some.injEq] at h
    simp [he, h]

theorem top_mem {q : PriorityQueue α le} {x : α} (h : q.top = some x) : x ∈ q.elems := by
  rw [elems_of_top h]
  exact List.mem_cons_self

theorem top_le {q : PriorityQueue α le} {x y : α} (h : q.top = some x) (hy : y ∈ q.elems) :
    y = x ∨ le x y := by
  have hs := q.sorted
  rw [elems_of_top h] at hs hy
  rcases List.mem_cons.mp hy with rfl | hy
  · exact .inl rfl
  · exact .inr (List.rel_of_pairwise_cons hs hy)

theorem top_isSome {q : PriorityQueue α le} (h : q.elems ≠ []) : ∃ x, q.top = some x := by
  obtain ⟨x, xs, hx⟩ := List.exists_cons_of_ne_nil h
  exact ⟨x, by simp [top, hx]⟩

theorem mem_of_mem_pop {q : PriorityQueue α le} {x : α} (h : x ∈ q.pop.elems) : x ∈ q.elems :=
  List.mem_of_mem_tail h

end PriorityQueue

end EnvironmentCheck
