import EnvironmentCheck.Library.Faulting
import EnvironmentCheck.Library.Transition

namespace EnvironmentCheck

inductive RefKind where
  | localRef
  | globalRef
  | weakGlobalRef
  deriving DecidableEq, Repr

structure JniRef where
  kind : RefKind
  object : ℕ
  live : Bool
  deriving DecidableEq, Repr

inductive JniRefFault where
  | deletedReference
  | wrongKind
  | wrongEnv
  | notLocal
  | nullReference
  deriving DecidableEq, Repr

/-- The references by the order of their creation, those whose objects are collected, and what the
classes here have created, taken over, deleted and given out, with the kind of the function. -/
structure JniThread where
  env : ℕ
  refs : List JniRef
  collected : List ℕ
  created : List (RefKind × ℕ)
  adopted : List (RefKind × ℕ)
  deleted : List (RefKind × ℕ)
  released : List (RefKind × ℕ)
  deriving DecidableEq, Repr

abbrev ScopedJni := Faulting JniThread JniRefFault

/-- An object of one of the three classes, with its `env_` and its `obj_`. -/
inductive JavaHandle where
  | localRef (env obj : Option ℕ)
  | globalRef (obj : Option ℕ)
  | weakGlobalRef (obj : Option ℕ)
  deriving DecidableEq, Repr

namespace JniThread

def create (env : ℕ) : JniThread := ⟨env, [], [], [], [], [], []⟩

def Live (j : JniThread) (r : ℕ) : Prop := ∃ ref ∈ j.refs[r]?, ref.live = true

instance (j : JniThread) (r : ℕ) : Decidable (j.Live r) :=
  inferInstanceAs (Decidable (∃ ref ∈ j.refs[r]?, ref.live = true))

def adopt (j : JniThread) (r : ℕ) : JniThread := { j with adopted := j.adopted ++ [(.localRef, r)] }

def release (j : JniThread) (kind : RefKind) (r : ℕ) : JniThread :=
  { j with released := j.released ++ [(kind, r)] }

def kill (j : JniThread) (r : ℕ) : JniThread :=
  { j with refs := j.refs.modify r fun ref => { ref with live := false } }

end JniThread

def attachCurrentThread : ScopedJni ℕ := fun j => .ok (j.env, j)

def checkEnv (env : Option ℕ) : ScopedJni PUnit := fun j =>
  if env = some j.env then .ok (⟨⟩, j) else .error .wrongEnv

/-- `NewLocalRef`, `NewGlobalRef` and `NewWeakGlobalRef` -/
def newRef (kind : RefKind) (r : ℕ) : ScopedJni (Option ℕ) := fun j =>
  match j.refs[r]? with
  | none => .error .deletedReference
  | some ref =>
    if ref.live then
      if ref.object ∈ j.collected then .ok (none, j)
      else
        .ok (some j.refs.length,
          { j with
            refs := j.refs ++ [⟨kind, ref.object, true⟩]
            created := j.created ++ [(kind, j.refs.length)] })
    else .error .deletedReference

/-- `DeleteLocalRef`, `DeleteGlobalRef` and `DeleteWeakGlobalRef` -/
def deleteRef (kind : RefKind) (r : ℕ) : ScopedJni PUnit := fun j =>
  match j.refs[r]? with
  | none => .error .deletedReference
  | some ref =>
    if ref.live then
      if ref.kind = kind then .ok (⟨⟩, { j.kill r with deleted := j.deleted ++ [(kind, r)] })
      else .error .wrongKind
    else .error .deletedReference

def newRefIfSet (kind : RefKind) : Option ℕ → ScopedJni (Option ℕ)
  | none => pure none
  | some r => newRef kind r

def deleteRefIfSet (kind : RefKind) : Option ℕ → ScopedJni PUnit
  | none => pure ⟨⟩
  | some r => deleteRef kind r

namespace JavaRef

/-- `JavaRef(env, obj)` -/
def init (env : Option ℕ) : Option ℕ → ScopedJni PUnit
  | none => pure ⟨⟩
  | some r => do
    checkEnv env
    fun j => if (j.refs[r]?.map (·.kind)) = some .localRef then .ok (⟨⟩, j) else .error .notLocal

def envOrCurrent : Option ℕ → ScopedJni ℕ
  | none => attachCurrentThread
  | some env => do
    checkEnv (some env)
    pure env

/-- What `SetNewLocalRef` and `SetNewGlobalRef` have in common: the new `obj_`, with `env`. -/
def setNewRef (kind : RefKind) (env this obj : Option ℕ) : ScopedJni (ℕ × Option ℕ) := do
  let env ← envOrCurrent env
  let obj ← newRefIfSet kind obj
  deleteRefIfSet kind this
  pure (env, obj)

def setNewLocalRef (env this obj : Option ℕ) : ScopedJni (ℕ × Option ℕ) :=
  setNewRef .localRef env this obj

def setNewGlobalRef (env this obj : Option ℕ) : ScopedJni (Option ℕ) :=
  Prod.snd <$> setNewRef .globalRef env this obj

def resetLocalRef (env : Option ℕ) : Option ℕ → ScopedJni PUnit
  | none => pure ⟨⟩
  | some r => do
    checkEnv env
    deleteRef .localRef r

def resetGlobalRef (this : Option ℕ) : ScopedJni PUnit := deleteRefIfSet .globalRef this

end JavaRef

namespace ScopedJavaLocalRef

/-- The copy constructor, from the `env_` and the `obj_` of the other. -/
def copy (env obj : Option ℕ) : ScopedJni JavaHandle :=
  (fun new => .localRef env new.2) <$> JavaRef.setNewLocalRef env none obj

/-- `ScopedJavaLocalRef(env, obj)` -/
def adopt (env obj : Option ℕ) : ScopedJni JavaHandle := do
  JavaRef.init env obj
  pure (.localRef env obj)

/-- `Reset(env, obj)` -/
def resetObj (this env obj : Option ℕ) : ScopedJni JavaHandle :=
  (fun new => .localRef (some new.1) new.2) <$> JavaRef.setNewLocalRef env this obj

def reset (env this : Option ℕ) : ScopedJni JavaHandle := do
  JavaRef.resetLocalRef env this
  pure (.localRef env none)

end ScopedJavaLocalRef

namespace ScopedJavaGlobalRef

/-- `Reset(env, obj)` -/
def resetObj (this env obj : Option ℕ) : ScopedJni JavaHandle :=
  .globalRef <$> JavaRef.setNewGlobalRef env this obj

def reset (this : Option ℕ) : ScopedJni JavaHandle := do
  JavaRef.resetGlobalRef this
  pure (.globalRef none)

end ScopedJavaGlobalRef

namespace JavaObjectWeakGlobalRef

/-- `JavaObjectWeakGlobalRef(env, obj)` -/
def create (env obj : Option ℕ) : ScopedJni JavaHandle := do
  checkEnv env
  let obj ← newRefIfSet .weakGlobalRef obj
  match obj with
  | none => fun _ => .error .nullReference
  | some r => pure (.weakGlobalRef (some r))

/-- `Assign`, where the other is not the object itself. -/
def assign (this other : Option ℕ) : ScopedJni JavaHandle := do
  deleteRefIfSet .weakGlobalRef this
  .weakGlobalRef <$> newRefIfSet .weakGlobalRef other

def reset (this : Option ℕ) : ScopedJni JavaHandle := do
  deleteRefIfSet .weakGlobalRef this
  pure (.weakGlobalRef none)

def getRealObject (env : Option ℕ) : Option ℕ → ScopedJni JavaHandle
  | none => ScopedJavaLocalRef.adopt env none
  | some r => do
    checkEnv env
    let real ← newRef .localRef r
    ScopedJavaLocalRef.adopt env real

end JavaObjectWeakGlobalRef

/-- Handles by the order of their construction, `none` after the destructor. -/
structure ScopedRefs where
  jni : JniThread
  handles : List (Option JavaHandle)
  fault : Option JniRefFault
  deriving DecidableEq, Repr

/-- The `other` of `localFrom`, `localResetRef`, `globalFrom` and `globalResetRef` is any object with
an `obj()`. -/
inductive JavaRefCall where
  | localDefault
  | localCopy (other : ℕ)
  | localFrom (other : ℕ)
  | localAdopt (env obj : Option ℕ)
  | localAssign (this other : ℕ)
  | localReset (this : ℕ)
  | localResetLocal (this other : ℕ)
  | localResetRef (this other : ℕ)
  | localResetObj (this : ℕ) (env obj : Option ℕ)
  | localRelease (this : ℕ)
  | globalDefault
  | globalCopy (other : ℕ)
  | globalFrom (other : ℕ)
  | globalNew (env obj : Option ℕ)
  | globalReset (this : ℕ)
  | globalResetRef (this other : ℕ)
  | globalResetObj (this : ℕ) (env obj : Option ℕ)
  | globalRelease (this : ℕ)
  | weakDefault
  | weakCopy (other : ℕ)
  | weakNew (env obj : Option ℕ)
  | weakAssign (this other : ℕ)
  | weakReset (this : ℕ)
  | weakGet (this : ℕ) (env : Option ℕ)
  | destruct (this : ℕ)
  deriving DecidableEq, Repr

/-- Besides the calls: references that the client gets from elsewhere, references that it deletes
itself, and objects that the collector takes. -/
inductive JavaRefStep where
  | call (c : JavaRefCall)
  | newRaw (kind : RefKind) (object : ℕ)
  | deleteRaw (r : ℕ)
  | collect (object : ℕ)
  deriving DecidableEq, Repr

namespace JavaHandle

def obj : JavaHandle → Option ℕ
  | .localRef _ obj => obj
  | .globalRef obj => obj
  | .weakGlobalRef obj => obj

def kind : JavaHandle → RefKind
  | .localRef _ _ => .localRef
  | .globalRef _ => .globalRef
  | .weakGlobalRef _ => .weakGlobalRef

def held (h : JavaHandle) : List (RefKind × ℕ) := (h.obj.map fun r => (h.kind, r)).toList

def destruct : JavaHandle → ScopedJni JavaHandle
  | .localRef env obj => ScopedJavaLocalRef.reset env obj
  | .globalRef obj => ScopedJavaGlobalRef.reset obj
  | .weakGlobalRef obj => JavaObjectWeakGlobalRef.reset obj

end JavaHandle

namespace ScopedRefs

def create (env : ℕ) : ScopedRefs := ⟨.create env, [], none⟩

def handle (s : ScopedRefs) (i : ℕ) : Option JavaHandle := s.handles[i]?.join

/-- The `env_` and the `obj_` of a `ScopedJavaLocalRef`. -/
def localRef (s : ScopedRefs) (i : ℕ) : Option (Option ℕ × Option ℕ) :=
  (s.handle i).bind fun
    | .localRef env obj => some (env, obj)
    | _ => none

def globalRef (s : ScopedRefs) (i : ℕ) : Option (Option ℕ) :=
  (s.handle i).bind fun
    | .globalRef obj => some obj
    | _ => none

def weakGlobalRef (s : ScopedRefs) (i : ℕ) : Option (Option ℕ) :=
  (s.handle i).bind fun
    | .weakGlobalRef obj => some obj
    | _ => none

def javaRef (s : ScopedRefs) (i : ℕ) : Option (Option ℕ) :=
  (s.handle i).bind fun
    | .localRef _ obj => some obj
    | .globalRef obj => some obj
    | .weakGlobalRef _ => none

def heldBy (h : Option JavaHandle) : List (RefKind × ℕ) := (h.map JavaHandle.held).getD []

def held (s : ScopedRefs) : List (RefKind × ℕ) := s.handles.flatMap heldBy

def construct (s : ScopedRefs) (x : ScopedJni JavaHandle) : Except JniRefFault ScopedRefs :=
  (x s.jni).map fun (h, jni) => { s with jni, handles := s.handles ++ [some h] }

def replace (s : ScopedRefs) (i : ℕ) (x : ScopedJni JavaHandle) : Except JniRefFault ScopedRefs :=
  (x s.jni).map fun (h, jni) => { s with jni, handles := s.handles.set i (some h) }

def destroy (s : ScopedRefs) (i : ℕ) (x : ScopedJni JavaHandle) : Except JniRefFault ScopedRefs :=
  (x s.jni).map fun (_, jni) => { s with jni, handles := s.handles.set i none }

/-- `ReleaseInternal`, with the reference given to the caller. -/
def release (s : ScopedRefs) (i : ℕ) (kind : RefKind) (obj : Option ℕ) (h : JavaHandle) : ScopedRefs :=
  { s with
    jni := obj.elim s.jni fun r => s.jni.release kind r
    handles := s.handles.set i (some h) }

def EnvOk (s : ScopedRefs) (env : Option ℕ) : Prop := env = none ∨ env = some s.jni.env

def ObjOk (s : ScopedRefs) (obj : Option ℕ) : Prop := ∀ r ∈ obj, s.jni.Live r

/-- A local reference may be adopted that no handle has adopted. -/
def AdoptOk (s : ScopedRefs) (env obj : Option ℕ) : Prop :=
  s.EnvOk env ∧ ∀ r ∈ obj, env = some s.jni.env ∧ r ∉ s.held.map Prod.snd ∧
    ∃ ref ∈ s.jni.refs[r]?, ref.live = true ∧ ref.kind = .localRef

def WeakOk (s : ScopedRefs) (env obj : Option ℕ) : Prop :=
  env = some s.jni.env ∧
    ∃ r ∈ obj, ∃ ref ∈ s.jni.refs[r]?, ref.live = true ∧ ref.object ∉ s.jni.collected

instance (s : ScopedRefs) (env : Option ℕ) : Decidable (s.EnvOk env) :=
  inferInstanceAs (Decidable (_ ∨ _))

instance (s : ScopedRefs) (obj : Option ℕ) : Decidable (s.ObjOk obj) :=
  inferInstanceAs (Decidable (∀ r ∈ obj, s.jni.Live r))

instance (s : ScopedRefs) (env obj : Option ℕ) : Decidable (s.AdoptOk env obj) :=
  inferInstanceAs (Decidable (_ ∧ ∀ r ∈ obj, _ ∧ _ ∧ ∃ ref ∈ s.jni.refs[r]?, _ ∧ _))

instance (s : ScopedRefs) (env obj : Option ℕ) : Decidable (s.WeakOk env obj) :=
  inferInstanceAs (Decidable (_ ∧ ∃ r ∈ obj, ∃ ref ∈ s.jni.refs[r]?, _ ∧ _))

def call (s : ScopedRefs) : JavaRefCall → Option (Except JniRefFault ScopedRefs)
  | .localDefault => some (s.construct (pure (.localRef none none)))
  | .localCopy other =>
    (s.localRef other).map fun (env, obj) => s.construct (ScopedJavaLocalRef.copy env obj)
  | .localFrom other =>
    (s.javaRef other).map fun obj => s.construct (ScopedJavaLocalRef.resetObj none none obj)
  | .localAdopt env obj =>
    if s.AdoptOk env obj then
      some ({ s with jni := obj.elim s.jni s.jni.adopt }.construct (ScopedJavaLocalRef.adopt env obj))
    else none
  | .localAssign this other | .localResetLocal this other =>
    (s.localRef this).bind fun (_, old) => (s.localRef other).map fun (env, obj) =>
      s.replace this (ScopedJavaLocalRef.resetObj old env obj)
  | .localReset this =>
    (s.localRef this).map fun (env, old) => s.replace this (ScopedJavaLocalRef.reset env old)
  | .localResetRef this other =>
    (s.localRef this).bind fun (env, old) => (s.javaRef other).map fun obj =>
      s.replace this (ScopedJavaLocalRef.resetObj old env obj)
  | .localResetObj this env obj =>
    if s.EnvOk env ∧ s.ObjOk obj then
      (s.localRef this).map fun (_, old) => s.replace this (ScopedJavaLocalRef.resetObj old env obj)
    else none
  | .localRelease this =>
    (s.localRef this).map fun (env, old) => .ok (s.release this .localRef old (.localRef env none))
  | .globalDefault => some (s.construct (pure (.globalRef none)))
  | .globalCopy other =>
    (s.globalRef other).map fun obj => s.construct (ScopedJavaGlobalRef.resetObj none none obj)
  | .globalFrom other =>
    (s.javaRef other).map fun obj => s.construct (ScopedJavaGlobalRef.resetObj none none obj)
  | .globalNew env obj =>
    if s.EnvOk env ∧ s.ObjOk obj then
      some (s.construct (ScopedJavaGlobalRef.resetObj none env obj))
    else none
  | .globalReset this =>
    (s.globalRef this).map fun old => s.replace this (ScopedJavaGlobalRef.reset old)
  | .globalResetRef this other =>
    (s.globalRef this).bind fun old => (s.javaRef other).map fun obj =>
      s.replace this (ScopedJavaGlobalRef.resetObj old none obj)
  | .globalResetObj this env obj =>
    if s.EnvOk env ∧ s.ObjOk obj then
      (s.globalRef this).map fun old => s.replace this (ScopedJavaGlobalRef.resetObj old env obj)
    else none
  | .globalRelease this =>
    (s.globalRef this).map fun old => .ok (s.release this .globalRef old (.globalRef none))
  | .weakDefault => some (s.construct (pure (.weakGlobalRef none)))
  | .weakCopy other =>
    (s.weakGlobalRef other).map fun obj => s.construct (JavaObjectWeakGlobalRef.assign none obj)
  | .weakNew env obj =>
    if s.WeakOk env obj then some (s.construct (JavaObjectWeakGlobalRef.create env obj)) else none
  | .weakAssign this other =>
    (s.weakGlobalRef this).bind fun old => (s.weakGlobalRef other).map fun obj =>
      if other = this then .ok s else s.replace this (JavaObjectWeakGlobalRef.assign old obj)
  | .weakReset this =>
    (s.weakGlobalRef this).map fun old => s.replace this (JavaObjectWeakGlobalRef.reset old)
  | .weakGet this env =>
    if env = some s.jni.env then
      (s.weakGlobalRef this).map fun obj =>
        s.construct (JavaObjectWeakGlobalRef.getRealObject env obj)
    else none
  | .destruct this => (s.handle this).map fun h => s.destroy this h.destruct

def perform (s : ScopedRefs) : JavaRefStep → Option (Except JniRefFault ScopedRefs)
  | .call c => s.call c
  | .newRaw kind object =>
    if object ∈ s.jni.collected then none
    else some (.ok { s with jni := { s.jni with refs := s.jni.refs ++ [⟨kind, object, true⟩] } })
  | .deleteRaw r =>
    if s.jni.Live r ∧ r ∉ s.held.map Prod.snd then some (.ok { s with jni := s.jni.kill r }) else none
  | .collect object =>
    if ∃ ref ∈ s.jni.refs, ref.live = true ∧ ref.kind ≠ .weakGlobalRef ∧ ref.object = object then none
    else some (.ok { s with jni := { s.jni with collected := object :: s.jni.collected } })

def settle (s : ScopedRefs) : Except JniRefFault ScopedRefs → ScopedRefs
  | .ok t => t
  | .error fault => { s with fault := some fault }

def next (s : ScopedRefs) (step : JavaRefStep) : Option ScopedRefs :=
  if s.fault = none then (s.perform step).map s.settle else none

end ScopedRefs

end EnvironmentCheck
