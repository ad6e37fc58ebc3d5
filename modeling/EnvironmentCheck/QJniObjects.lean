import EnvironmentCheck.QJniObject
import EnvironmentCheck.Library.Transition

namespace EnvironmentCheck

open Transition Faulting

/-- Handles by the order of their construction, with their private data; `none` after the
destructor. -/
structure QJniObjects where
  handles : List (Option ℕ)
  heap : JniHeap
  fault : Option JniFault
  deriving DecidableEq, Repr

inductive JniCall where
  | construct
  | constructByName (a : LoadAnswer) (b : NewObjectAnswer)
  | constructByClass (clazz : Option JObject) (b : NewObjectAnswer)
  | constructByObject (obj : Option JObject)
  | access (this : ℕ) (id : Bool)
  | objectAccess (this : ℕ) (a : CallAnswer)
  | staticAccess (a : LoadAnswer) (id : Bool)
  | staticObjectAccess (a : LoadAnswer) (b : CallAnswer)
  | isClassAvailable (a : LoadAnswer)
  | copy (other : ℕ)
  | assign (this other : ℕ)
  | assignObject (this : ℕ) (obj : Option JObject)
  | destruct (this : ℕ)

namespace QJniObjects

open Jni

variable (classOf : ℕ → ℕ)

def create : QJniObjects := ⟨[], ⟨[], []⟩, none⟩

def handle (l : QJniObjects) (i : ℕ) : Option ℕ := l.handles[i]?.join

def append (l : QJniObjects) (p : ℕ) : List (Option ℕ) := l.handles ++ [some p]

/-- `none` where a handle is gone, or a reference in the arguments is not live any more. -/
def call (l : QJniObjects) : JniCall → Option (Jni (List (Option ℕ)))
  | .construct => some (l.append <$> newPrivate .null)
  | .constructByName a b => some (l.append <$> ofClassName classOf a b)
  | .constructByClass clazz b =>
    if ∀ o ∈ clazz, Live l.heap o then some (l.append <$> ofClass clazz b) else none
  | .constructByObject obj =>
    if ∀ o ∈ obj, Live l.heap o then some (l.append <$> ofObject classOf obj) else none
  | .access this id => (l.handle this).map fun p => (fun _ => l.handles) <$> access p id
  | .objectAccess this a => (l.handle this).map fun p => l.append <$> objectAccess classOf p a
  | .staticAccess a id => some ((fun _ => l.handles) <$> staticAccess classOf a id)
  | .staticObjectAccess a b => some (l.append <$> staticObjectAccess classOf a b)
  | .isClassAvailable a => some ((fun _ => l.handles) <$> isClassAvailable classOf a)
  | .copy other => (l.handle other).map fun p => (fun _ => l.append p) <$> retain p
  | .assign this other =>
    (l.handle this).bind fun p => (l.handle other).map fun q => do
      retain q
      release p
      pure (l.handles.set this (some q))
  | .assignObject this obj =>
    if ∀ o ∈ obj, Live l.heap o then
      (l.handle this).map fun p => (fun q => l.handles.set this (some q)) <$> assign classOf p obj
    else none
  | .destruct this => (l.handle this).map fun p => (fun _ => l.handles.set this none) <$> release p

/-- A fault ends the run. -/
def settle (l : QJniObjects) (x : Jni (List (Option ℕ))) : QJniObjects :=
  match x l.heap with
  | .ok (handles, heap) => ⟨handles, heap, none⟩
  | .error fault => { l with fault := some fault }

def next (l : QJniObjects) (c : JniCall) : Option QJniObjects :=
  if l.fault = none then (l.call classOf c).map l.settle else none

/-- To destroy the objects that are left is to have each reference deleted exactly once. -/
structure Ledger (l : QJniObjects) : Prop where
  sound : l.fault = none
  released : Ensures (l.handles.reduceOption.forM release) l.heap
    fun _ t => ∀ ref ∈ t.refs, ref.deletions = 1

/-- No class is found by its name, and no object is assigned a reference that goes with the object's
last share of its private data. -/
def Balances (l : QJniObjects) : JniCall → Prop
  | .constructByName a _ | .staticAccess a _ | .staticObjectAccess a _ | .isClassAvailable a =>
    ¬ a.Finds
  | .assignObject this obj => ∀ p ∈ l.handle this, ¬ Drops l.heap p obj
  | _ => True

variable {l m : QJniObjects} {c : JniCall} {i p q : ℕ}

theorem handle_eq_some : l.handle i = some p ↔ l.handles[i]? = some (some p) := by
  unfold handle
  exact Option.join_eq_some_iff

def Inv (l : QJniObjects) : Prop := l.heap.Balanced l.handles.reduceOption []

theorem released {P R : List ℕ} {h : JniHeap} (hc : h.Counted P R) :
    Ensures (P.forM release) h fun _ t => t.Counted [] R := by
  apply ensures_forM (fun (P : List ℕ) (t : JniHeap) => t.Counted P R) hc
  intro p P t ht
  exact release_counted ht

theorem ledger_of_inv (h : l.Inv) (hs : l.fault = none) : l.Ledger := by
  refine ⟨hs, (released h.counted).mono fun _ t ht => ?_⟩
  exact ht.released_iff.mpr rfl

theorem not_ledger_of_held {r : ℕ} (h : l.heap.Counted l.handles.reduceOption [r]) : ¬ l.Ledger := by
  rintro ⟨_, _, t, hrun, hall⟩
  have hc := (released h).of_ok hrun
  cases hc.released_iff.mp hall

variable {classOf}

theorem Inv.split (h : l.Inv) (hi : l.handle i = some p) :
    l.heap.Balanced (p :: (l.handles.set i none).reduceOption) [] :=
  h.congr (reduceOption_perm (handle_eq_some.mp hi)) (List.Perm.refl [])

theorem mem_holders (hi : l.handle i = some p) : p ∈ l.handles.reduceOption := by
  rw [List.reduceOption_mem_iff]
  exact List.mem_of_getElem? (handle_eq_some.mp hi)

theorem balanced_append {h : JniHeap} (hb : h.Balanced (p :: l.handles.reduceOption) []) :
    h.Balanced (l.append p).reduceOption [] :=
  hb.congr (reduceOption_append_perm l.handles p) (List.Perm.refl [])

theorem balanced_set {h : JniHeap} (hi : l.handle i = some p)
    (hb : h.Balanced (q :: (l.handles.set i none).reduceOption) []) :
    h.Balanced (l.handles.set i (some q)).reduceOption [] :=
  hb.congr (reduceOption_set_perm (handle_eq_some.mp hi) q) (List.Perm.refl [])

theorem call_ok (h : l.Inv) (hc : l.Balances c) {x : Jni (List (Option ℕ))}
    (hx : l.call classOf c = some x) :
    Ensures x l.heap fun handles t => t.Balanced handles.reduceOption [] := by
  cases c with
  | construct =>
    obtain rfl := Option.some.inj hx
    apply (newNull_ensures h).map
    rintro p t ⟨ht, _⟩
    exact balanced_append ht
  | constructByName a b =>
    obtain rfl := Option.some.inj hx
    apply (ofClassName_absent classOf h a b hc).map
    intro p t ht
    exact balanced_append ht
  | constructByClass clazz b =>
    simp only [call, Option.ite_none_right_eq_some, Option.some.injEq] at hx
    obtain ⟨hlive, rfl⟩ := hx
    apply (ofClass_ensures h hlive b).map
    intro p t ht
    exact balanced_append ht
  | constructByObject obj =>
    simp only [call, Option.ite_none_right_eq_some, Option.some.injEq] at hx
    obtain ⟨hlive, rfl⟩ := hx
    apply (ofObject_ensures classOf h hlive).map
    rintro p t ⟨ht, _⟩
    exact balanced_append ht
  | access i id =>
    obtain ⟨p, hi, rfl⟩ := Option.map_eq_some_iff.mp hx
    apply (access_ensures h (mem_holders hi) id).map
    rintro _ _ rfl
    exact h
  | objectAccess i a =>
    obtain ⟨p, hi, rfl⟩ := Option.map_eq_some_iff.mp hx
    apply (objectAccess_ensures classOf h (mem_holders hi) a).map
    rintro q t ⟨ht, _⟩
    exact balanced_append ht
  | staticAccess a id =>
    obtain rfl := Option.some.inj hx
    apply (staticAccess_ensures classOf h a id).map
    rintro _ t ⟨clazz, ht, hfinds⟩
    obtain rfl : clazz = none := Option.not_isSome_iff_eq_none.mp (mt hfinds.mp hc)
    exact ht
  | staticObjectAccess a b =>
    obtain rfl := Option.some.inj hx
    apply (staticObjectAccess_ensures classOf h a b).map
    rintro p t ⟨clazz, ht, hfinds⟩
    obtain rfl : clazz = none := Option.not_isSome_iff_eq_none.mp (mt hfinds.mp hc)
    exact balanced_append ht
  | isClassAvailable a =>
    obtain rfl := Option.some.inj hx
    apply (isClassAvailable_ensures classOf h a).map
    rintro _ t ⟨clazz, ht, hfinds⟩
    obtain rfl : clazz = none := Option.not_isSome_iff_eq_none.mp (mt hfinds.mp hc)
    exact ht
  | copy j =>
    obtain ⟨p, hj, rfl⟩ := Option.map_eq_some_iff.mp hx
    apply (retain_ensures h (mem_holders hj)).map
    intro _ t ht
    exact balanced_append ht
  | assign i j =>
    obtain ⟨p, hi, hx⟩ := Option.bind_eq_some_iff.mp hx
    obtain ⟨q, hj, rfl⟩ := Option.map_eq_some_iff.mp hx
    apply (retain_ensures h (mem_holders hj)).bind
    intro _ t ht
    have hsplit : t.Balanced (p :: q :: (l.handles.set i none).reduceOption) [] :=
      ht.congr (((reduceOption_perm (handle_eq_some.mp hi)).cons q).trans (List.Perm.swap p q _))
        (List.Perm.refl [])
    apply (release_ensures hsplit).bind
    intro _ u hu
    exact ensures_pure (balanced_set hi hu)
  | assignObject i obj =>
    simp only [call, Option.ite_none_right_eq_some, Option.map_eq_some_iff] at hx
    obtain ⟨hlive, p, hi, rfl⟩ := hx
    apply (assign_ensures classOf (h.split hi) hlive (hc p hi)).map
    intro q t ht
    exact balanced_set hi ht
  | destruct i =>
    obtain ⟨p, hi, rfl⟩ := Option.map_eq_some_iff.mp hx
    apply (release_ensures (h.split hi)).map
    intro _ t ht
    exact ht

theorem counted_append {h : JniHeap} {R : List ℕ} (hc : h.Counted (p :: l.handles.reduceOption) R) :
    h.Counted (l.append p).reduceOption R :=
  hc.congr (reduceOption_append_perm l.handles p) (List.Perm.refl R)

theorem call_fails (h : l.Inv) (hc : ¬ l.Balances c) {x : Jni (List (Option ℕ))}
    (hx : l.call classOf c = some x) :
    x l.heap = .error .deletedReference ∨
      Ensures x l.heap fun handles t => ∃ r, t.Counted handles.reduceOption [r] := by
  cases c with
  | constructByName a b =>
    obtain rfl := Option.some.inj hx
    right
    apply (ofClassName_ensures classOf h a b (not_not.mp hc)).map
    rintro p t ⟨r, ht⟩
    exact ⟨r, counted_append ht⟩
  | staticAccess a id =>
    obtain rfl := Option.some.inj hx
    right
    apply (staticAccess_ensures classOf h a id).map
    rintro _ t ⟨clazz, ht, hfinds⟩
    obtain ⟨r, rfl⟩ := Option.isSome_iff_exists.mp (hfinds.mpr (not_not.mp hc))
    exact ⟨r, ht.counted⟩
  | staticObjectAccess a b =>
    obtain rfl := Option.some.inj hx
    right
    apply (staticObjectAccess_ensures classOf h a b).map
    rintro p t ⟨clazz, ht, hfinds⟩
    obtain ⟨r, rfl⟩ := Option.isSome_iff_exists.mp (hfinds.mpr (not_not.mp hc))
    exact ⟨r, counted_append ht.counted⟩
  | isClassAvailable a =>
    obtain rfl := Option.some.inj hx
    right
    apply (isClassAvailable_ensures classOf h a).map
    rintro _ t ⟨clazz, ht, hfinds⟩
    obtain ⟨r, rfl⟩ := Option.isSome_iff_exists.mp (hfinds.mpr (not_not.mp hc))
    exact ⟨r, ht.counted⟩
  | assignObject i obj =>
    simp only [call, Option.ite_none_right_eq_some, Option.map_eq_some_iff] at hx
    obtain ⟨hlive, p, hi, rfl⟩ := hx
    left
    have hdrops : Drops l.heap p obj := by
      by_contra hkeeps
      apply hc
      intro q hq
      obtain rfl : p = q := Option.some.inj (hi.symm.trans hq)
      exact hkeeps
    have herror := assign_error classOf (h.split hi) hlive hdrops
    rw [← bind_pure_comp]
    exact bind_error herror _
  | _ => exact absurd trivial hc

theorem settle_ok {x : Jni (List (Option ℕ))} {post : List (Option ℕ) → JniHeap → Prop}
    (hx : Ensures x l.heap post) : (l.settle x).fault = none ∧
      post (l.settle x).handles (l.settle x).heap := by
  obtain ⟨handles, t, hrun, hpost⟩ := hx
  rw [settle, hrun]
  exact ⟨rfl, hpost⟩

theorem next_ok (h : l.Inv) (hs : l.fault = none) (hc : l.Balances c)
    (hn : l.next classOf c = some m) : m.Inv ∧ m.fault = none := by
  rw [next, if_pos hs] at hn
  obtain ⟨x, hx, rfl⟩ := Option.map_eq_some_iff.mp hn
  have hsettle := settle_ok (call_ok h hc hx)
  exact ⟨hsettle.2, hsettle.1⟩

theorem ledger_next_iff (h : l.Inv) (hl : l.Ledger) (hn : l.next classOf c = some m) :
    m.Ledger ↔ l.Balances c := by
  constructor
  · intro hm
    by_contra hc
    rw [next, if_pos hl.sound] at hn
    obtain ⟨x, hx, rfl⟩ := Option.map_eq_some_iff.mp hn
    obtain herror | hheld := call_fails h hc hx
    · have hsound := hm.sound
      rw [settle, herror] at hsound
      cases hsound
    · obtain ⟨r, hr⟩ := (settle_ok hheld).2
      exact not_ledger_of_held hr hm
  · intro hc
    obtain ⟨hinv, hsound⟩ := next_ok h hl.sound hc hn
    exact ledger_of_inv hinv hsound

theorem inv_create : create.Inv := by
  refine ⟨⟨fun p => rfl, fun s hs => ?_, fun r => rfl⟩, fun s hs => ?_⟩
  · cases hs
  · cases hs

theorem ledger_iff_balances (classOf : ℕ → ℕ) (es : List JniCall)
    (hr : (run (next classOf) create es).isSome) :
    Always (next classOf) Ledger create es ↔ Meets (next classOf) Balances create es := by
  apply always_iff_meets inv_create (ledger_of_inv inv_create rfl) _ _ hr
  · intro l c m h hn hl hc
    exact (next_ok h hl.sound hc hn).1
  · intro l c m h hn hl
    exact ledger_next_iff h hl hn

def classFound : LoadAnswer := ⟨some 0, some 1, ⟨true, some 2, false⟩, false⟩

def constructedByName : List JniCall :=
  [.constructByName classFound ⟨true, some 3⟩, .copy 0, .destruct 0, .destruct 1]

theorem ledger_iff_balances_byName :
    Always (next id) Ledger create constructedByName ↔
      Meets (next id) Balances create constructedByName :=
  ledger_iff_balances id constructedByName rfl

theorem classReference_leaks :
    (∃ l, run (next id) create constructedByName = some l ∧ l.handles.reduceOption = [] ∧
      l.fault = none ∧ ⟨2, 0⟩ ∈ l.heap.refs ∧ ¬ l.Ledger) ∧
    (∃ l, run (next id) create [.isClassAvailable classFound] = some l ∧ l.handles = [] ∧
      l.fault = none ∧ ⟨2, 0⟩ ∈ l.heap.refs ∧ ¬ l.Ledger) ∧
    ∃ l, run (next (· + 1)) create [.constructByObject (some (.outside 5)),
      .assignObject 0 (some (.globalRef 1))] = some l ∧ l.fault = some .deletedReference ∧
        ¬ l.Ledger := by
  refine ⟨⟨⟨[none, none], ⟨[none, none, none, none],
      [⟨0, 1⟩, ⟨0, 1⟩, ⟨1, 1⟩, ⟨1, 1⟩, ⟨2, 1⟩, ⟨2, 1⟩, ⟨2, 0⟩, ⟨3, 1⟩]⟩, none⟩,
      rfl, rfl, rfl, by decide, fun h => ?_⟩,
    ⟨⟨[], ⟨[none, none, none],
      [⟨0, 1⟩, ⟨0, 1⟩, ⟨1, 1⟩, ⟨1, 1⟩, ⟨2, 1⟩, ⟨2, 1⟩, ⟨2, 0⟩]⟩, none⟩,
      rfl, rfl, rfl, by decide, fun h => ?_⟩,
    ⟨_, rfl, rfl, fun h => ?_⟩⟩
  · have hall := h.released.of_ok rfl ⟨2, 0⟩ (by decide)
    cases hall
  · have hall := h.released.of_ok rfl ⟨2, 0⟩ (by decide)
    cases hall
  · cases h.sound

end QJniObjects
end EnvironmentCheck
