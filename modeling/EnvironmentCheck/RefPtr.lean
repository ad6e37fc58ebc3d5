import EnvironmentCheck.Library.Tally
import EnvironmentCheck.Library.Transition

namespace EnvironmentCheck

open Transition

/-- `RefCountedThreadSafeBase` -/
structure RefCounted where
  refCount : ℕ
  adoptionRequired : Bool
  destructionStarted : Bool
  deriving DecidableEq, Repr

inductive RefPtrFault where
  | useAfterFree
  | adoption
  | destruction
  | refCount
  deriving DecidableEq, Repr

/-- Where an operation on handles stands between two of its steps. -/
inductive Frame where
  | idle
  | adopting (object : ℕ)
  | assigning (this r : ℕ) (taken : Option ℕ)
  | swapping (this : ℕ) (temp : Option ℕ)
  | releasing (object : ℕ)
  | deleting (object : ℕ)
  deriving DecidableEq, Repr

namespace Frame

def inHand : Frame → Option ℕ
  | .idle => none
  | .adopting object => some object
  | .assigning _ _ taken => taken
  | .swapping _ temp => temp
  | .releasing object => some object
  | .deleting _ => none

/-- The handles that the operation will still touch. -/
def uses : Frame → List ℕ
  | .assigning this r _ => [this, r]
  | .swapping this _ => [this]
  | _ => []

end Frame

/-- Handles by the order of their construction, with their `ptr_`, and `none` after the destructor;
objects by the order of their allocation. An operation takes a slot of `threads`. What the
destructor of an object does with handles takes further ones. -/
structure RefPtrs where
  heap : ℕ → Option RefCounted
  fresh : ℕ
  destroyed : List ℕ
  handles : List (Option (Option ℕ))
  threads : List Frame
  fault : Option RefPtrFault

inductive RefPtrCall where
  | makeRefCounted
  | construct (p : Option ℕ)
  | copyConstruct (r : ℕ)
  | moveConstruct (r : ℕ)
  | copyAssign (this r : ℕ)
  | convertAssign (this r : ℕ) (sameAddress : Bool)
  | moveAssign (this r : ℕ)
  | assignNull (this : ℕ)
  | swap (this r : ℕ)
  | destruct (this : ℕ)
  deriving DecidableEq, Repr

inductive RefPtrStep where
  | begin (thread : ℕ) (call : RefPtrCall)
  | resume (thread : ℕ)
  deriving DecidableEq, Repr

namespace RefPtrs

def create (threads : ℕ) : RefPtrs :=
  ⟨fun _ => none, 0, [], [], List.replicate threads .idle, none⟩

def checked (s : RefPtrs) (object : ℕ) : Except RefPtrFault RefCounted :=
  match s.heap object with
  | none => .error .useAfterFree
  | some c =>
    if c.adoptionRequired then .error .adoption
    else if c.destructionStarted then .error .destruction
    else .ok c

def store (s : RefPtrs) (object : ℕ) (c : RefCounted) : RefPtrs :=
  { s with heap := Function.update s.heap object (some c) }

def addRef (s : RefPtrs) (object : ℕ) : Except RefPtrFault RefPtrs :=
  (s.checked object).map fun c => s.store object { c with refCount := c.refCount + 1 }

/-- True where the object is to be deleted. -/
def release (s : RefPtrs) (object : ℕ) : Except RefPtrFault (Bool × RefPtrs) :=
  (s.checked object).bind fun c =>
    if c.refCount = 0 then .error .refCount
    else
      .ok (c.refCount = 1,
        s.store object ⟨c.refCount - 1, c.adoptionRequired, c.refCount = 1⟩)

/-- `new T` -/
def allocate (s : RefPtrs) : RefPtrs :=
  { s with heap := Function.update s.heap s.fresh (some ⟨1, true, false⟩), fresh := s.fresh + 1 }

def adopt (s : RefPtrs) (object : ℕ) : Except RefPtrFault RefPtrs :=
  match s.heap object with
  | none => .error .useAfterFree
  | some c =>
    if c.adoptionRequired then .ok (s.store object { c with adoptionRequired := false })
    else .error .adoption

def delete (s : RefPtrs) (object : ℕ) : Except RefPtrFault RefPtrs :=
  match s.heap object with
  | none => .error .useAfterFree
  | some c =>
    if c.adoptionRequired then .error .adoption
    else if c.destructionStarted then
      .ok { s with heap := Function.update s.heap object none, destroyed := s.destroyed ++ [object] }
    else .error .destruction

def put (s : RefPtrs) (h : ℕ) (p : Option ℕ) : RefPtrs :=
  { s with handles := s.handles.set h (some p) }

def append (s : RefPtrs) (p : Option ℕ) : RefPtrs := { s with handles := s.handles ++ [some p] }

def endLife (s : RefPtrs) (h : ℕ) : RefPtrs := { s with handles := s.handles.set h none }

def goTo (s : RefPtrs) (i : ℕ) (frame : Frame) : RefPtrs :=
  { s with threads := s.threads.set i frame }

def ptr (s : RefPtrs) (h : ℕ) : Option (Option ℕ) := s.handles[h]?.join

/-- The `ptr_` of a handle that no other operation is working on. -/
def free (s : RefPtrs) (h : ℕ) : Option (Option ℕ) :=
  if ∃ frame ∈ s.threads, h ∈ frame.uses then none else s.ptr h

/-- `if (p) p->AddRef()` -/
def addRefIfSet (s : RefPtrs) : Option ℕ → Except RefPtrFault RefPtrs
  | none => .ok s
  | some object => s.addRef object

/-- `if (p) p->Release()` -/
def thenRelease : Option ℕ → Frame
  | none => .idle
  | some object => .releasing object

/-- A raw pointer given to a constructor is null or points to a live adopted object. -/
def RawOk (s : RefPtrs) : Option ℕ → Prop
  | none => True
  | some object => ∃ c ∈ s.heap object, 0 < c.refCount ∧ c.adoptionRequired = false

instance (s : RefPtrs) (p : Option ℕ) : Decidable (s.RawOk p) :=
  match p with
  | none => .isTrue trivial
  | some object => inferInstanceAs (Decidable (∃ c ∈ s.heap object, _ ∧ _))

def begin (s : RefPtrs) (i : ℕ) : RefPtrCall → Option (Except RefPtrFault RefPtrs)
  | .makeRefCounted => some (.ok (s.allocate.goTo i (.adopting s.fresh)))
  | .construct p =>
    if s.RawOk p then some ((s.addRefIfSet p).map fun s => s.append p) else none
  | .copyConstruct r => (s.free r).map fun p => (s.addRefIfSet p).map fun s => s.append p
  | .moveConstruct r => (s.free r).map fun p => .ok ((s.append p).put r none)
  | .copyAssign this r =>
    (s.free this).bind fun old => (s.free r).map fun p =>
      if p = old then .ok s else (s.addRefIfSet p).map fun s => s.goTo i (.assigning this r p)
  | .convertAssign this r sameAddress =>
    (s.free this).bind fun old => (s.free r).map fun p =>
      if p = old ∧ (p = none ∨ sameAddress) then .ok s
      else (s.addRefIfSet p).map fun s => s.goTo i (.assigning this r p)
  | .moveAssign this r =>
    (s.free this).bind fun _ => (s.free r).map fun p =>
      .ok ((s.put r none).goTo i (.swapping this p))
  | .assignNull this => (s.free this).map fun _ => .ok (s.goTo i (.swapping this none))
  | .swap this r =>
    (s.free this).bind fun p => (s.free r).map fun q => .ok ((s.put this q).put r p)
  | .destruct this =>
    (s.free this).map fun p => .ok ((s.endLife this).goTo i (thenRelease p))

def resume (s : RefPtrs) (i : ℕ) : Frame → Option (Except RefPtrFault RefPtrs)
  | .idle => none
  | .adopting object =>
    some ((s.adopt object).map fun s => (s.append (some object)).goTo i .idle)
  | .assigning this r _ =>
    (s.ptr this).bind fun old => (s.ptr r).map fun p =>
      .ok ((s.put this p).goTo i (thenRelease old))
  | .swapping this temp =>
    (s.ptr this).map fun old => .ok ((s.put this temp).goTo i (thenRelease old))
  | .releasing object =>
    some ((s.release object).map fun (last, s) =>
      s.goTo i (if last then .deleting object else .idle))
  | .deleting object => some ((s.delete object).map fun s => s.goTo i .idle)

def settle (s : RefPtrs) : Except RefPtrFault RefPtrs → RefPtrs
  | .ok t => t
  | .error fault => { s with fault := some fault }

def perform (s : RefPtrs) : RefPtrStep → Option (Except RefPtrFault RefPtrs)
  | .begin i call => if s.threads[i]? = some .idle then s.begin i call else none
  | .resume i => s.threads[i]?.bind fun frame => s.resume i frame

def next (s : RefPtrs) (step : RefPtrStep) : Option RefPtrs :=
  if s.fault = none then (s.perform step).map s.settle else none

def refers (object : ℕ) (handle : Option (Option ℕ)) : Bool := handle = some (some object)

def holds (object : ℕ) (frame : Frame) : Bool := frame.inHand = some object

def holders (s : RefPtrs) (object : ℕ) : ℕ := s.handles.countP (refers object)

/-- The references to an object that operations are handing over. -/
def inHand (s : RefPtrs) (object : ℕ) : ℕ := s.threads.countP (holds object)

end RefPtrs

end EnvironmentCheck
