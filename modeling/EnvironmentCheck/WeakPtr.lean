import EnvironmentCheck.RefPtr

namespace EnvironmentCheck

/-- What a `RefPtr` is the `flag_` of, with the `ptr_` next to it. -/
inductive FlagOwner where
  | factory (ptr : ℕ)
  | weakPtr (ptr : Option ℕ)
  deriving DecidableEq, Repr

inductive WeakPtrFault where
  | nullFlag
  | useAfterFree
  | invalidatedTwice
  | destroyedValid
  deriving DecidableEq, Repr

/-- The flags are objects that `refs` counts, `is_valid_` is theirs, and `making` has the pointers of the
factories whose flag is not yet adopted, by operation. -/
structure WeakPtrs where
  refs : RefPtrs
  owner : ℕ → Option FlagOwner
  isValid : ℕ → Bool
  making : ℕ → ℕ
  fault : Option WeakPtrFault

inductive WeakPtrCall where
  | makeFactory (ptr : ℕ)
  | getWeakPtr (factory : ℕ)
  | destroyFactory (factory : ℕ)
  | construct
  | copyConstruct (r : ℕ)
  | moveConstruct (r : ℕ)
  | copyAssign (this r : ℕ)
  | moveAssign (this r : ℕ)
  | reset (this : ℕ)
  | destruct (this : ℕ)
  deriving DecidableEq, Repr

inductive WeakPtrStep where
  | begin (thread : ℕ) (call : WeakPtrCall)
  | resume (thread : ℕ)
  deriving DecidableEq, Repr

namespace WeakPtrs

def create (threads : ℕ) : WeakPtrs := ⟨.create threads, fun _ => none, fun _ => false, fun _ => 0, none⟩

/-- The pointer of a factory. -/
def factory (s : WeakPtrs) (h : ℕ) : Option ℕ :=
  match s.owner h with
  | some (.factory ptr) => some ptr
  | _ => none

/-- The pointer of a weak pointer, which may be null. -/
def weakPtr (s : WeakPtrs) (h : ℕ) : Option (Option ℕ) :=
  match s.owner h with
  | some (.weakPtr ptr) => some ptr
  | _ => none

/-- `Invalidate`, by way of the flag of a factory. -/
def invalidate (s : WeakPtrs) (h : ℕ) : WeakPtrs :=
  match s.refs.ptr h with
  | some (some flag) =>
    if s.refs.heap flag = none then { s with fault := some .useAfterFree }
    else if s.isValid flag then { s with isValid := Function.update s.isValid flag false }
    else { s with fault := some .invalidatedTwice }
  | _ => { s with fault := some .nullFlag }

def own (s : WeakPtrs) (h : ℕ) (owner : FlagOwner) : WeakPtrs :=
  { s with owner := Function.update s.owner h (some owner) }

/-- What the operation does to its `RefPtr`, and what it does besides. -/
def begin (s : WeakPtrs) (i : ℕ) : WeakPtrCall → Option (RefPtrCall × WeakPtrs)
  | .makeFactory ptr => some (.makeRefCounted, { s with making := Function.update s.making i ptr })
  | .getWeakPtr factory =>
    (s.factory factory).map fun ptr => (.copyConstruct factory, s.own s.refs.handles.length (.weakPtr (some ptr)))
  | .destroyFactory factory =>
    (s.factory factory).map fun _ => (.destruct factory, s.invalidate factory)
  | .construct => some (.construct none, s.own s.refs.handles.length (.weakPtr none))
  | .copyConstruct r =>
    (s.weakPtr r).map fun ptr => (.copyConstruct r, s.own s.refs.handles.length (.weakPtr ptr))
  | .moveConstruct r =>
    (s.weakPtr r).map fun ptr => (.moveConstruct r, s.own s.refs.handles.length (.weakPtr ptr))
  | .copyAssign this r =>
    (s.weakPtr this).bind fun _ => (s.weakPtr r).map fun ptr => (.copyAssign this r, s.own this (.weakPtr ptr))
  | .moveAssign this r =>
    (s.weakPtr this).bind fun _ => (s.weakPtr r).map fun ptr => (.moveAssign this r, s.own this (.weakPtr ptr))
  | .reset this => (s.weakPtr this).map fun _ => (.assignNull this, s)
  | .destruct this => (s.weakPtr this).map fun _ => (.destruct this, s)

/-- A factory is there once its flag is adopted, and a flag checks that it is invalid when it is deleted. -/
def resume (s : WeakPtrs) (i : ℕ) : WeakPtrs :=
  match s.refs.threads[i]? with
  | some (.adopting flag) =>
    { s.own s.refs.handles.length (.factory (s.making i)) with isValid := Function.update s.isValid flag true }
  | some (.deleting flag) => if s.isValid flag then { s with fault := some .destroyedValid } else s
  | _ => s

def next (s : WeakPtrs) (step : WeakPtrStep) : Option WeakPtrs :=
  if s.fault = none then
    match step with
    | .begin i call =>
      (s.begin i call).bind fun (refCall, t) => (s.refs.next (.begin i refCall)).map fun refs => { t with refs }
    | .resume i => (s.refs.next (.resume i)).map fun refs => { s.resume i with refs }
  else none

/-- `get` of a weak pointer that no operation is working on. -/
def get (s : WeakPtrs) (h : ℕ) : Option (Except WeakPtrFault (Option ℕ)) :=
  (s.weakPtr h).bind fun ptr => (s.refs.free h).map fun
    | none => .ok none
    | some flag =>
      if s.refs.heap flag = none then .error .useAfterFree
      else .ok (if s.isValid flag then ptr else none)

end WeakPtrs

end EnvironmentCheck
