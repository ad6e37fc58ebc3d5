import EnvironmentCheck.Library.Tally
import EnvironmentCheck.Library.Transition
import Mathlib.Logic.Function.Basic

namespace EnvironmentCheck

open Transition

inductive MemoryFault where
  | nullPointer
  | useAfterFree
  deriving DecidableEq, Repr

structure SharedPtr where
  ptr : Option ℕ
  ctrl : Option ℕ
  deriving DecidableEq, Repr

/-- Handles by the order of their construction, `none` after the destructor. Objects and control
blocks are numbered as they are allocated, the block with its object; `refCount` has the blocks that
exist. A handle takes up 16 bytes, so that no count reaches `2 ^ 64`. -/
structure SharedPtrs where
  handles : List (Option SharedPtr)
  refCount : ℕ → Option ℕ
  fresh : ℕ
  deletedObjects : List ℕ
  deletedBlocks : List ℕ
  fault : Option MemoryFault

inductive SharedPtrCall where
  | construct (null : Bool)
  | copyConstruct (other : ℕ)
  | moveConstruct (other : ℕ)
  | copyAssign (this other : ℕ)
  | moveAssign (this other : ℕ)
  | reset (this : ℕ)
  | destruct (this : ℕ)

namespace SharedPtr

def null : SharedPtr := ⟨none, none⟩

end SharedPtr

namespace SharedPtrs

def create : SharedPtrs := ⟨[], fun _ => none, 0, [], [], none⟩

def ref (l : SharedPtrs) (ctrl : Option ℕ) : Except MemoryFault SharedPtrs :=
  match ctrl with
  | none => .error .nullPointer
  | some block =>
    match l.refCount block with
    | none => .error .useAfterFree
    | some count => .ok { l with refCount := Function.update l.refCount block (some (count + 1)) }

def deref (l : SharedPtrs) (ctrl : Option ℕ) : Except MemoryFault (ℕ × SharedPtrs) :=
  match ctrl with
  | none => .error .nullPointer
  | some block =>
    match l.refCount block with
    | none => .error .useAfterFree
    | some count =>
      .ok (count - 1, { l with refCount := Function.update l.refCount block (some (count - 1)) })

def delete (l : SharedPtrs) (object : ℕ) (ctrl : Option ℕ) : SharedPtrs :=
  { l with
    refCount := fun block => if ctrl = some block then none else l.refCount block
    deletedObjects := l.deletedObjects ++ [object]
    deletedBlocks := l.deletedBlocks ++ ctrl.toList }

def maybeDestroy (l : SharedPtrs) (this : SharedPtr) : Except MemoryFault SharedPtrs :=
  match this.ptr with
  | none => .ok l
  | some object => (l.deref this.ctrl).map fun r =>
    if r.1 = 0 then r.2.delete object this.ctrl else r.2

def put (l : SharedPtrs) (i : ℕ) (handle : Option SharedPtr) : SharedPtrs :=
  { l with handles := l.handles.set i handle }

def append (l : SharedPtrs) (handle : SharedPtr) : SharedPtrs :=
  { l with handles := l.handles ++ [some handle] }

def construct (l : SharedPtrs) (null : Bool) : SharedPtrs :=
  if null then l.append .null
  else
    { l with
      handles := l.handles ++ [some ⟨some l.fresh, some l.fresh⟩]
      refCount := Function.update l.refCount l.fresh (some 1)
      fresh := l.fresh + 1 }

def copyConstruct (l : SharedPtrs) (other : SharedPtr) : Except MemoryFault SharedPtrs :=
  if other.ptr.isSome then (l.append other).ref other.ctrl else .ok (l.append other)

def moveConstruct (l : SharedPtrs) (j : ℕ) (other : SharedPtr) : SharedPtrs :=
  (l.append other).put j (some .null)

def copyAssign (l : SharedPtrs) (i : ℕ) (this other : SharedPtr) :
    Except MemoryFault SharedPtrs :=
  (l.maybeDestroy this).bind fun l => (l.put i (some other)).ref other.ctrl

def moveAssign (l : SharedPtrs) (i j : ℕ) (this other : SharedPtr) :
    Except MemoryFault SharedPtrs :=
  (l.maybeDestroy this).map fun l => (l.put i (some other)).put j (some .null)

def reset (l : SharedPtrs) (i : ℕ) (this : SharedPtr) : Except MemoryFault SharedPtrs :=
  (l.maybeDestroy this).map fun l => l.put i (some .null)

def destruct (l : SharedPtrs) (i : ℕ) (this : SharedPtr) : Except MemoryFault SharedPtrs :=
  (l.maybeDestroy this).map fun l => l.put i none

def handle (l : SharedPtrs) (i : ℕ) : Option SharedPtr := l.handles[i]?.join

/-- A fault ends the run. -/
def settle (l : SharedPtrs) : Except MemoryFault SharedPtrs → SharedPtrs
  | .ok m => m
  | .error fault => { l with fault := some fault }

def call (l : SharedPtrs) : SharedPtrCall → Option (Except MemoryFault SharedPtrs)
  | .construct null => some (.ok (l.construct null))
  | .copyConstruct other => (l.handle other).map l.copyConstruct
  | .moveConstruct other => (l.handle other).map fun o => .ok (l.moveConstruct other o)
  | .copyAssign this other =>
    (l.handle this).bind fun t => (l.handle other).map fun o => l.copyAssign this t o
  | .moveAssign this other =>
    (l.handle this).bind fun t => (l.handle other).map fun o => l.moveAssign this other t o
  | .reset this => (l.handle this).map fun t => l.reset this t
  | .destruct this => (l.handle this).map fun t => l.destruct this t

def next (l : SharedPtrs) (c : SharedPtrCall) : Option SharedPtrs :=
  if l.fault = none then (l.call c).map l.settle else none

def useCount (l : SharedPtrs) (this : SharedPtr) : ℕ :=
  if this.ptr.isSome then (this.ctrl.bind l.refCount).getD 0 else 0

def refers (block : ℕ) (handle : Option SharedPtr) : Bool := handle.bind (·.ptr) = some block

def holders (handles : List (Option SharedPtr)) (block : ℕ) : ℕ := handles.countP (refers block)

/-- A block counts `c` handles while there are any, and is gone with its object otherwise. -/
structure Counts (l : SharedPtrs) (c : ℕ → ℕ) : Prop where
  live : ∀ b < l.fresh, 0 < c b →
    l.refCount b = some (c b) ∧ l.deletedObjects.count b = 0 ∧ l.deletedBlocks.count b = 0
  gone : ∀ b < l.fresh, c b = 0 →
    l.refCount b = none ∧ l.deletedObjects.count b = 1 ∧ l.deletedBlocks.count b = 1

structure Ledger (l : SharedPtrs) : Prop where
  sound : l.fault = none
  counts : l.Counts (holders l.handles)

/-- An assignment has a source that is not empty, and not the last handle when it is its own. -/
def KeepsSource (l : SharedPtrs) : SharedPtrCall → Prop
  | .copyAssign this other =>
    ∀ o ∈ l.handle other, (if this = other then 2 else 1) ≤ l.useCount o
  | _ => True

instance (l : SharedPtrs) : DecidablePred l.KeepsSource
  | .copyAssign this other => inferInstanceAs (Decidable
      (∀ o ∈ l.handle other, (if this = other then 2 else 1) ≤ l.useCount o))
  | .construct _ | .copyConstruct _ | .moveConstruct _ | .moveAssign _ _ | .reset _
  | .destruct _ => .isTrue trivial

structure Sound (n : ℕ) (p : SharedPtr) : Prop where
  ctrl : p.ctrl = p.ptr
  lt : ∀ b, p.ptr = some b → b < n

structure Inv (l : SharedPtrs) : Prop where
  handles : ∀ p, some p ∈ l.handles → Sound l.fresh p
  unused : ∀ b, l.fresh ≤ b →
    l.refCount b = none ∧ l.deletedObjects.count b = 0 ∧ l.deletedBlocks.count b = 0

section Handles

variable {handles : List (Option SharedPtr)} {i j b : ℕ} {h h' : Option SharedPtr}

theorem holders_append (handles : List (Option SharedPtr)) (h : Option SharedPtr) (b : ℕ) :
    holders (handles ++ [h]) b = holders handles b + if refers b h then 1 else 0 := by
  rw [holders, List.countP_append, List.countP_singleton, holders]

theorem holders_set (hi : handles[i]? = some h) (h' : Option SharedPtr) (b : ℕ) :
    holders (handles.set i h') b + (if refers b h then 1 else 0) =
      holders handles b + if refers b h' then 1 else 0 :=
  countP_set_add (refers b) hi h'

theorem holders_pos (hi : handles[i]? = some h) (hb : refers b h = true) : 0 < holders handles b :=
  List.countP_pos_iff.mpr ⟨h, List.mem_of_getElem? hi, hb⟩

theorem refers_some {p : SharedPtr} : refers b (some p) = true ↔ p.ptr = some b := by
  simp [refers]

@[simp] theorem refers_none : refers b none = false := rfl

@[simp] theorem refers_null : refers b (some .null) = false := rfl

end Handles

variable {l m : SharedPtrs} {c c' : ℕ → ℕ} {i j b : ℕ} {this other : SharedPtr}

theorem handle_eq_some : l.handle i = some this ↔ l.handles[i]? = some (some this) := by
  unfold handle
  exact Option.join_eq_some_iff

theorem Counts.congr (h : l.Counts c) (hc : ∀ b, c' b = c b) : l.Counts c' := by
  obtain rfl : c' = c := funext hc
  exact h

theorem Counts.put (h : l.Counts c) (i : ℕ) (x : Option SharedPtr) : (l.put i x).Counts c :=
  ⟨h.live, h.gone⟩

theorem Counts.ref (h : l.Counts c) (hb : b < l.fresh) (hc : 0 < c b) :
    l.ref (some b) =
        .ok { l with refCount := Function.update l.refCount b (some (c b + 1)) } ∧
      Counts { l with refCount := Function.update l.refCount b (some (c b + 1)) }
        (Function.update c b (c b + 1)) := by
  have hlive := h.live b hb hc
  constructor
  · simp only [SharedPtrs.ref, hlive.1]
  · constructor
    · intro d hd hpos
      by_cases he : d = b
      · subst he
        simp only [Function.update_self]
        exact ⟨trivial, hlive.2⟩
      · simp only [Function.update_of_ne he] at hpos ⊢
        exact h.live d hd hpos
    · intro d hd hzero
      by_cases he : d = b
      · subst he
        simp at hzero
      · simp only [Function.update_of_ne he] at hzero ⊢
        exact h.gone d hd hzero

/-- What `MaybeDestroy` leaves as it is. -/
structure Keeps (l m : SharedPtrs) : Prop where
  handles : m.handles = l.handles
  fresh : m.fresh = l.fresh
  fault : m.fault = l.fault
  unused : ∀ b, l.fresh ≤ b → m.refCount b = l.refCount b ∧
    m.deletedObjects.count b = l.deletedObjects.count b ∧
    m.deletedBlocks.count b = l.deletedBlocks.count b

theorem Counts.release (h : l.Counts c) (hb : b < l.fresh) (hc : 1 < c b) :
    Counts { l with refCount := Function.update l.refCount b (some (c b - 1)) }
      fun d => c d - if b = d then 1 else 0 := by
  have hlive := h.live b hb (by omega)
  constructor
  · intro d hd hpos
    by_cases he : b = d
    · subst he
      simpa using hlive.2
    · simp only [he, ↓reduceIte, Nat.sub_zero, Function.update_of_ne (Ne.symm he)] at hpos ⊢
      exact h.live d hd hpos
  · intro d hd hzero
    by_cases he : b = d
    · subst he
      simp only [↓reduceIte] at hzero
      omega
    · simp only [he, ↓reduceIte, Nat.sub_zero, Function.update_of_ne (Ne.symm he)] at hzero ⊢
      exact h.gone d hd hzero

theorem count_append_singleton_of_ne {xs : List ℕ} {d : ℕ} (hne : b ≠ d) :
    (xs ++ [b]).count d = xs.count d := by
  simp [List.count_append, hne]

theorem Counts.delete (h : l.Counts c) (hb : b < l.fresh) (hc : c b = 1) (count : ℕ) :
    (delete { l with refCount := Function.update l.refCount b (some count) } b (some b)).Counts
      fun d => c d - if b = d then 1 else 0 := by
  have hlive := h.live b hb (by omega)
  constructor
  · intro d hd hpos
    by_cases he : b = d
    · subst he
      simp only [↓reduceIte] at hpos
      omega
    · simp only [he, ↓reduceIte, Nat.sub_zero] at hpos
      have hother := h.live d hd hpos
      simp only [SharedPtrs.delete, Option.some.injEq, he, ↓reduceIte, Nat.sub_zero,
        Option.toList_some, count_append_singleton_of_ne he, Function.update_of_ne (Ne.symm he)]
      exact hother
  · intro d hd hzero
    by_cases he : b = d
    · subst he
      simp only [SharedPtrs.delete, Option.toList_some, List.count_append, List.count_singleton,
        ↓reduceIte, hlive.2]
      simp
    · simp only [he, ↓reduceIte, Nat.sub_zero] at hzero
      have hother := h.gone d hd hzero
      simp only [SharedPtrs.delete, Option.some.injEq, he, ↓reduceIte,
        Option.toList_some, count_append_singleton_of_ne he, Function.update_of_ne (Ne.symm he)]
      exact hother

theorem Counts.maybeDestroy (h : l.Counts c) (hpair : this.ctrl = this.ptr)
    (hb : ∀ b, this.ptr = some b → b < l.fresh ∧ 0 < c b) :
    ∃ m, l.maybeDestroy this = .ok m ∧ Keeps l m ∧
      m.Counts fun b => c b - if this.ptr = some b then 1 else 0 := by
  unfold SharedPtrs.maybeDestroy
  cases hptr : this.ptr with
  | none =>
    refine ⟨l, rfl, ⟨rfl, rfl, rfl, fun _ _ => ⟨rfl, rfl, rfl⟩⟩, h.congr fun b => ?_⟩
    simp
  | some b =>
    obtain ⟨hlt, hpos⟩ := hb b hptr
    have hlive := h.live b hlt hpos
    have hctrl : this.ctrl = some b := hpair.trans hptr
    simp only [deref, hctrl, hlive.1, Except.map, Except.ok.injEq, exists_eq_left']
    by_cases hlast : c b = 1
    · rw [if_pos (by omega)]
      refine ⟨⟨rfl, rfl, rfl, fun d hd => ?_⟩, ?_⟩
      · have hne : b ≠ d := by omega
        simp only [SharedPtrs.delete, Option.some.injEq, hne, ↓reduceIte, Option.toList_some,
          count_append_singleton_of_ne hne, Function.update_of_ne hne.symm, and_self]
      · simpa only [Option.some.injEq] using h.delete hlt hlast (c b - 1)
    · rw [if_neg (by omega)]
      refine ⟨⟨rfl, rfl, rfl, fun d hd => ?_⟩, ?_⟩
      · have hne : d ≠ b := by omega
        simp only [Function.update_of_ne hne, and_self]
      · simpa only [Option.some.injEq] using h.release hlt (by omega)

theorem inv_create : create.Inv := by
  constructor
  · intro p hp
    cases hp
  · intro b _
    exact ⟨rfl, rfl, rfl⟩

theorem ledger_create : create.Ledger := by
  refine ⟨rfl, ?_, ?_⟩
  · intro b hb
    exact absurd hb (Nat.not_lt_zero b)
  · intro b hb
    exact absurd hb (Nat.not_lt_zero b)

theorem Inv.sound (h : l.Inv) (hi : l.handle i = some this) : Sound l.fresh this :=
  h.handles this (List.mem_of_getElem? (handle_eq_some.mp hi))

theorem sound_null (n : ℕ) : Sound n .null := by
  refine ⟨rfl, fun b hb => ?_⟩
  cases hb

theorem sound_set {handles : List (Option SharedPtr)} {n : ℕ} {x : Option SharedPtr}
    (h : ∀ p, some p ∈ handles → Sound n p) (hx : ∀ p, x = some p → Sound n p) (i : ℕ) :
    ∀ p, some p ∈ handles.set i x → Sound n p := by
  intro p hp
  cases List.mem_or_eq_of_mem_set hp with
  | inl hold => exact h p hold
  | inr hnew => exact hx p hnew.symm

theorem sound_append {handles : List (Option SharedPtr)} {n : ℕ}
    (h : ∀ p, some p ∈ handles → Sound n p) (hother : Sound n other) :
    ∀ p, some p ∈ handles ++ [some other] → Sound n p := by
  intro p hp
  cases List.mem_append.mp hp with
  | inl hold => exact h p hold
  | inr hnew =>
    obtain rfl := Option.some.inj (List.mem_singleton.mp hnew)
    exact hother

theorem Keeps.unused_eq (hk : Keeps l m) (h : l.Inv) (hb : l.fresh ≤ b) :
    m.refCount b = none ∧ m.deletedObjects.count b = 0 ∧ m.deletedBlocks.count b = 0 := by
  have hsame := hk.unused b hb
  have hunused := h.unused b hb
  exact ⟨hsame.1.trans hunused.1, hsame.2.1.trans hunused.2.1, hsame.2.2.trans hunused.2.2⟩

theorem maybeDestroy_counts (h : l.Inv) (hl : l.Ledger) (hi : l.handle i = some this) :
    ∃ m, l.maybeDestroy this = .ok m ∧ Keeps l m ∧ m.Counts (holders (l.handles.set i none)) := by
  have hsound := h.sound hi
  have hmem := handle_eq_some.mp hi
  obtain ⟨m, hm, hkeeps, hcounts⟩ := hl.counts.maybeDestroy hsound.ctrl
    fun b hb => ⟨hsound.lt b hb, holders_pos hmem (refers_some.mpr hb)⟩
  refine ⟨m, hm, hkeeps, hcounts.congr fun b => ?_⟩
  have hset := holders_set hmem none b
  simp only [refers_none, refers_some, Bool.false_eq_true, ↓reduceIte, Nat.add_zero] at hset
  omega

theorem ledger_put (h : l.Inv) (hl : l.Ledger) (hk : Keeps l m) {c : ℕ → ℕ} (hc : m.Counts c)
    {handles : List (Option SharedPtr)} (hh : ∀ b, holders handles b = c b)
    (hs : ∀ p, some p ∈ handles → Sound l.fresh p) :
    Inv { m with handles := handles } ∧ Ledger { m with handles := handles } := by
  have hcounts := hc.congr hh
  refine ⟨⟨?_, ?_⟩, ⟨hk.fault.trans hl.sound, hcounts.live, hcounts.gone⟩⟩
  · simp only [hk.fresh]
    exact hs
  · intro b hb
    simp only [hk.fresh] at hb
    exact hk.unused_eq h hb

theorem getElem?_set_none (hi : l.handle i = some this) :
    (l.handles.set i none)[i]? = some none := by
  have hlt := (List.getElem?_eq_some_iff.mp (handle_eq_some.mp hi)).1
  rw [List.getElem?_set_self hlt]

theorem reset_ok (h : l.Inv) (hl : l.Ledger) (hi : l.handle i = some this) :
    ∃ m, l.reset i this = .ok m ∧ m.Inv ∧ m.Ledger := by
  obtain ⟨m, hm, hk, hc⟩ := maybeDestroy_counts h hl hi
  refine ⟨m.put i (some .null), by rw [reset, hm]; rfl, ?_⟩
  unfold put
  rw [hk.handles]
  apply ledger_put h hl hk hc
  · intro b
    have hset := holders_set (getElem?_set_none hi) (some .null) b
    simpa using hset
  · apply sound_set h.handles
    rintro p ⟨⟩
    exact sound_null _

theorem destruct_ok (h : l.Inv) (hl : l.Ledger) (hi : l.handle i = some this) :
    ∃ m, l.destruct i this = .ok m ∧ m.Inv ∧ m.Ledger := by
  obtain ⟨m, hm, hk, hc⟩ := maybeDestroy_counts h hl hi
  refine ⟨m.put i none, by rw [destruct, hm]; rfl, ?_⟩
  unfold put
  rw [hk.handles]
  apply ledger_put h hl hk hc
  · intro b
    rfl
  · apply sound_set h.handles
    rintro p ⟨⟩

theorem moveAssign_ok (h : l.Inv) (hl : l.Ledger) (hi : l.handle i = some this)
    (hj : l.handle j = some other) : ∃ m, l.moveAssign i j this other = .ok m ∧ m.Inv ∧ m.Ledger := by
  obtain ⟨m, hm, hk, hc⟩ := maybeDestroy_counts h hl hi
  refine ⟨(m.put i (some other)).put j (some .null), by rw [moveAssign, hm]; rfl, ?_⟩
  have hmem : (l.handles.set i (some other))[j]? = some (some other) := by
    by_cases hij : i = j
    · subst hij
      exact List.getElem?_set_self (List.getElem?_eq_some_iff.mp (handle_eq_some.mp hi)).1
    · rw [List.getElem?_set_ne hij]
      exact handle_eq_some.mp hj
  have hcount : ∀ b, holders ((l.handles.set i (some other)).set j (some .null)) b =
      holders (l.handles.set i none) b := by
    intro b
    have hset := holders_set (getElem?_set_none hi) (some other) b
    have hclear := holders_set hmem (some .null) b
    rw [List.set_set] at hset
    simp only [refers_none, refers_null, Bool.false_eq_true, ↓reduceIte, Nat.add_zero] at hset hclear
    omega
  unfold put
  rw [hk.handles]
  apply ledger_put h hl hk hc hcount
  apply sound_set
  · apply sound_set h.handles
    rintro p ⟨⟩
    exact h.sound hj
  · rintro p ⟨⟩
    exact sound_null _

theorem moveConstruct_ok (h : l.Inv) (hl : l.Ledger) (hj : l.handle j = some other) :
    (l.moveConstruct j other).Inv ∧ (l.moveConstruct j other).Ledger := by
  have hk : Keeps l l := ⟨rfl, rfl, rfl, fun _ _ => ⟨rfl, rfl, rfl⟩⟩
  apply ledger_put h hl hk hl.counts
  · intro b
    have hlt := (List.getElem?_eq_some_iff.mp (handle_eq_some.mp hj)).1
    have hmem : (l.handles ++ [some other])[j]? = some (some other) := by
      rw [List.getElem?_append_left hlt]
      exact handle_eq_some.mp hj
    have hclear := holders_set hmem (some .null) b
    rw [holders_append] at hclear
    simp only [refers_null, Bool.false_eq_true, ↓reduceIte, Nat.add_zero] at hclear
    exact Nat.add_right_cancel hclear
  · apply sound_set (sound_append h.handles (h.sound hj))
    rintro p ⟨⟩
    exact sound_null _

theorem ref_ledger (h : l.Inv) (hk : Keeps l m) {handles : List (Option SharedPtr)} (hb : b < l.fresh)
    (hl : l.Ledger) (hc : m.Counts c) (hpos : 0 < c b)
    (hh : ∀ d, holders handles d = c d + if b = d then 1 else 0)
    (hs : ∀ p, some p ∈ handles → Sound l.fresh p) :
    ∃ n, ref { m with handles := handles } (some b) = .ok n ∧ n.Inv ∧ n.Ledger := by
  have hc' : Counts { m with handles := handles } c := ⟨hc.live, hc.gone⟩
  obtain ⟨href, hcounts⟩ := hc'.ref (b := b) (by rw [hk.fresh]; exact hb) hpos
  refine ⟨_, href, ⟨?_, ?_⟩, ⟨hk.fault.trans hl.sound, hcounts.congr fun d => ?_⟩⟩
  · simp only [hk.fresh]
    exact hs
  · intro d hd
    simp only [hk.fresh] at hd
    have hne : d ≠ b := by omega
    simp only [Function.update_of_ne hne]
    exact hk.unused_eq h hd
  · simp only [hh]
    by_cases hd : d = b
    · subst hd
      simp
    · rw [Function.update_of_ne hd, if_neg (Ne.symm hd), Nat.add_zero]

theorem copyConstruct_ok (h : l.Inv) (hl : l.Ledger) (hj : l.handle j = some other) :
    ∃ m, l.copyConstruct other = .ok m ∧ m.Inv ∧ m.Ledger := by
  have hk : Keeps l l := ⟨rfl, rfl, rfl, fun _ _ => ⟨rfl, rfl, rfl⟩⟩
  have hsound := h.sound hj
  have hs := sound_append h.handles hsound
  unfold copyConstruct append
  cases hptr : other.ptr with
  | none =>
    refine ⟨_, rfl, ?_⟩
    apply ledger_put h hl hk hl.counts _ hs
    intro b
    rw [holders_append, if_neg, Nat.add_zero]
    simp [refers, hptr]
  | some b =>
    rw [hsound.ctrl, hptr, Option.isSome_some, if_pos rfl]
    apply ref_ledger h hk (hsound.lt b hptr) hl hl.counts _ _ hs
    · exact holders_pos (handle_eq_some.mp hj) (refers_some.mpr hptr)
    · intro d
      rw [holders_append]
      simp [refers, hptr]

theorem construct_ok (h : l.Inv) (hl : l.Ledger) (null : Bool) :
    (l.construct null).Inv ∧ (l.construct null).Ledger := by
  have hk : Keeps l l := ⟨rfl, rfl, rfl, fun _ _ => ⟨rfl, rfl, rfl⟩⟩
  cases null with
  | true =>
    apply ledger_put h hl hk hl.counts
    · intro b
      simp [holders_append]
    · exact sound_append h.handles (sound_null _)
  | false =>
    have hnew : holders l.handles l.fresh = 0 := by
      apply List.countP_eq_zero.mpr
      intro p hp hrefers
      cases p with
      | none => cases hrefers
      | some p => exact lt_irrefl _ ((h.handles p hp).lt _ (refers_some.mp hrefers))
    have hcount : ∀ b, holders (l.handles ++ [some ⟨some l.fresh, some l.fresh⟩]) b =
        holders l.handles b + if l.fresh = b then 1 else 0 := by
      intro b
      simp [holders_append, refers]
    have hunused := h.unused l.fresh (le_refl _)
    refine ⟨⟨?_, fun b hb => ?_⟩, hl.sound, ⟨fun b hb hpos => ?_, fun b hb hzero => ?_⟩⟩
    · apply sound_append
      · intro p hp
        have hsound := h.handles p hp
        exact ⟨hsound.ctrl, fun b hb => Nat.lt_succ_of_lt (hsound.lt b hb)⟩
      · refine ⟨rfl, fun b hb => ?_⟩
        rw [← Option.some.inj hb]
        exact Nat.lt_succ_self _
    · have hlt : l.fresh < b := hb
      simp only [construct, Bool.false_eq_true, ↓reduceIte, Function.update_of_ne hlt.ne']
      exact h.unused b hlt.le
    · simp only [construct, Bool.false_eq_true, ↓reduceIte, hcount] at hpos ⊢
      by_cases he : l.fresh = b
      · subst he
        simp only [Function.update_self, ↓reduceIte, hnew]
        exact ⟨trivial, hunused.2⟩
      · have hlt : b < l.fresh := by
          have hle : b < l.fresh + 1 := hb
          omega
        simp only [he, ↓reduceIte, Nat.add_zero] at hpos ⊢
        rw [Function.update_of_ne (Ne.symm he)]
        exact hl.counts.live b hlt hpos
    · simp only [construct, Bool.false_eq_true, ↓reduceIte, hcount] at hzero ⊢
      have he : l.fresh ≠ b := by
        intro he
        simp only [he, ↓reduceIte] at hzero
        omega
      have hlt : b < l.fresh := by
        have hle : b < l.fresh + 1 := hb
        omega
      simp only [he, ↓reduceIte, Nat.add_zero] at hzero
      rw [Function.update_of_ne (Ne.symm he)]
      exact hl.counts.gone b hlt hzero

theorem useCount_eq (h : l.Inv) (hl : l.Ledger) (hj : l.handle j = some other) (hptr : other.ptr = some b) :
    l.useCount other = holders l.handles b := by
  have hsound := h.sound hj
  have hpos := holders_pos (handle_eq_some.mp hj) (refers_some.mpr hptr)
  have hlive := hl.counts.live b (hsound.lt b hptr) hpos
  simp [useCount, hptr, hsound.ctrl, hlive.1]

theorem useCount_null (hptr : other.ptr = none) : l.useCount other = 0 := by
  simp [useCount, hptr]

theorem holders_others (hi : l.handle i = some this) (hptr : other.ptr = some b)
    (hj : l.handle j = some other) :
    (if i = j then 2 else 1) ≤ holders l.handles b ↔ 0 < holders (l.handles.set i none) b := by
  have hset := holders_set (handle_eq_some.mp hi) none b
  simp only [refers_none, Bool.false_eq_true, ↓reduceIte, Nat.add_zero] at hset
  by_cases hij : i = j
  · subst hij
    obtain rfl : this = other := Option.some.inj (hi.symm.trans hj)
    rw [if_pos (refers_some.mpr hptr)] at hset
    rw [if_pos rfl]
    omega
  · have hmem : (l.handles.set i none)[j]? = some (some other) := by
      rw [List.getElem?_set_ne hij]
      exact handle_eq_some.mp hj
    have hpos := holders_pos hmem (refers_some.mpr hptr)
    rw [if_neg hij]
    apply iff_of_true _ hpos
    exact Nat.le_trans hpos (by omega)

theorem copyAssign_ok (h : l.Inv) (hl : l.Ledger) (hi : l.handle i = some this)
    (hj : l.handle j = some other) (hc : (if i = j then 2 else 1) ≤ l.useCount other) :
    ∃ m, l.copyAssign i this other = .ok m ∧ m.Inv ∧ m.Ledger := by
  have hsound := h.sound hj
  cases hptr : other.ptr with
  | none =>
    rw [useCount_null hptr] at hc
    split_ifs at hc <;> omega
  | some b =>
    rw [useCount_eq h hl hj hptr, holders_others hi hptr hj] at hc
    obtain ⟨m, hm, hk, hcounts⟩ := maybeDestroy_counts h hl hi
    unfold copyAssign put
    rw [hm, hsound.ctrl, hptr]
    simp only [Except.bind, hk.handles]
    apply ref_ledger h hk (hsound.lt b hptr) hl hcounts hc
    · intro d
      have hset := holders_set (getElem?_set_none hi) (some other) d
      rw [List.set_set] at hset
      simp only [refers_none, refers_some, hptr, Option.some.injEq, Bool.false_eq_true,
        ↓reduceIte, Nat.add_zero] at hset
      exact hset
    · apply sound_set h.handles
      rintro p ⟨⟩
      exact hsound

theorem copyAssign_error (h : l.Inv) (hl : l.Ledger) (hi : l.handle i = some this)
    (hj : l.handle j = some other) (hc : ¬ (if i = j then 2 else 1) ≤ l.useCount other) :
    ∃ fault, l.copyAssign i this other = .error fault := by
  have hsound := h.sound hj
  obtain ⟨m, hm, hk, hcounts⟩ := maybeDestroy_counts h hl hi
  unfold copyAssign
  rw [hm, hsound.ctrl]
  cases hptr : other.ptr with
  | none => exact ⟨.nullPointer, rfl⟩
  | some b =>
    rw [useCount_eq h hl hj hptr, holders_others hi hptr hj] at hc
    have hgone := hcounts.gone b (by rw [hk.fresh]; exact hsound.lt b hptr) (by omega)
    have hfreed : (m.put i (some other)).refCount b = none := hgone.1
    refine ⟨.useAfterFree, ?_⟩
    simp only [Except.bind, ref, hfreed]

theorem call_ok {op : SharedPtrCall} (h : l.Inv) (hl : l.Ledger) (hc : l.KeepsSource op)
    {r : Except MemoryFault SharedPtrs} (hr : l.call op = some r) :
    ∃ m, r = .ok m ∧ m.Inv ∧ m.Ledger := by
  cases op with
  | construct null =>
    rw [← Option.some.inj hr]
    exact ⟨_, rfl, construct_ok h hl null⟩
  | copyConstruct j =>
    obtain ⟨other, hj, rfl⟩ := Option.map_eq_some_iff.mp hr
    exact copyConstruct_ok h hl hj
  | moveConstruct j =>
    obtain ⟨other, hj, rfl⟩ := Option.map_eq_some_iff.mp hr
    exact ⟨_, rfl, moveConstruct_ok h hl hj⟩
  | copyAssign i j =>
    obtain ⟨this, hi, hr⟩ := Option.bind_eq_some_iff.mp hr
    obtain ⟨other, hj, rfl⟩ := Option.map_eq_some_iff.mp hr
    exact copyAssign_ok h hl hi hj (hc other hj)
  | moveAssign i j =>
    obtain ⟨this, hi, hr⟩ := Option.bind_eq_some_iff.mp hr
    obtain ⟨other, hj, rfl⟩ := Option.map_eq_some_iff.mp hr
    exact moveAssign_ok h hl hi hj
  | reset i =>
    obtain ⟨this, hi, rfl⟩ := Option.map_eq_some_iff.mp hr
    exact reset_ok h hl hi
  | destruct i =>
    obtain ⟨this, hi, rfl⟩ := Option.map_eq_some_iff.mp hr
    exact destruct_ok h hl hi

theorem call_error {op : SharedPtrCall} (h : l.Inv) (hl : l.Ledger) (hc : ¬ l.KeepsSource op)
    {r : Except MemoryFault SharedPtrs} (hr : l.call op = some r) : ∃ fault, r = .error fault := by
  cases op with
  | copyAssign i j =>
    obtain ⟨this, hi, hr⟩ := Option.bind_eq_some_iff.mp hr
    obtain ⟨other, hj, rfl⟩ := Option.map_eq_some_iff.mp hr
    apply copyAssign_error h hl hi hj
    intro hle
    apply hc
    intro o ho
    obtain rfl : other = o := Option.some.inj (hj.symm.trans ho)
    exact hle
  | _ => exact absurd trivial hc

theorem next_ok {op : SharedPtrCall} (h : l.Inv) (hl : l.Ledger) (hc : l.KeepsSource op)
    (hn : l.next op = some m) : m.Inv ∧ m.Ledger := by
  rw [next, if_pos hl.sound] at hn
  obtain ⟨r, hr, rfl⟩ := Option.map_eq_some_iff.mp hn
  obtain ⟨m, rfl, hm⟩ := call_ok h hl hc hr
  exact hm

theorem ledger_next_iff {op : SharedPtrCall} (h : l.Inv) (hl : l.Ledger) (hn : l.next op = some m) :
    m.Ledger ↔ l.KeepsSource op := by
  constructor
  · intro hm
    by_contra hc
    rw [next, if_pos hl.sound] at hn
    obtain ⟨r, hr, rfl⟩ := Option.map_eq_some_iff.mp hn
    obtain ⟨fault, rfl⟩ := call_error h hl hc hr
    have hsound := hm.sound
    cases hsound
  · intro hc
    exact (next_ok h hl hc hn).2

def assignEmpty : List SharedPtrCall :=
  [.construct false, .copyConstruct 0, .construct true, .copyAssign 0 2]

end SharedPtrs

end EnvironmentCheck
