import EnvironmentCheck.Library.Transition
import Mathlib.Data.Int.Notation

namespace EnvironmentCheck

universe u

namespace UniqueObject

/-- What `UniqueObject` asks of its traits; `make` is what their constructor gives. -/
structure Traits (τ T : Type u) where
  make : τ
  invalidValue : T
  isValid : T → Bool
  invalid_not_valid : isValid invalidValue = false

structure Data (τ T : Type u) where
  traits : τ
  generic : T

variable {ι τ T : Type u} [DecidableEq ι] (tr : Traits τ T)

def Data.release (data : Data τ T) : T × Data τ T :=
  (data.generic, { data with generic := tr.invalidValue })

/-- The objects at each address, the values passed to `Free` and those released to the caller. -/
structure State (ι τ T : Type u) where
  objects : ι → Option (Data τ T)
  freed : List T
  released : List T

def start : State ι τ T where
  objects := fun _ => none
  freed := []
  released := []

namespace State

variable {tr} {s t : State ι τ T} {i j : ι} {v : T}

def held (s : State ι τ T) (i : ι) : Option T := (s.objects i).map Data.generic

def store (s : State ι τ T) (i : ι) (data : Data τ T) : State ι τ T :=
  { s with objects := Function.update s.objects i (some data) }

@[simp] theorem held_store (data : Data τ T) :
    (s.store i data).held = Function.update s.held i (some data.generic) := by
  funext k
  by_cases hk : k = i
  · subst hk
    simp [held, store]
  · simp [held, store, hk]

def create (s : State ι τ T) (i : ι) (data : Data τ T) : Option (State ι τ T) :=
  match s.objects i with
  | none => some (s.store i data)
  | some _ => none

theorem create_cases {data : Data τ T} (h : s.create i data = some t) :
    s.held i = none ∧ t.held = Function.update s.held i (some data.generic) ∧
      t.freed = s.freed ∧ t.released = s.released := by
  unfold create at h
  split at h
  case h_1 hi =>
    cases h
    exact ⟨by rw [held, hi, Option.map_none], held_store data, rfl, rfl⟩
  case h_2 => cases h

variable (tr) in
def release (s : State ι τ T) (i : ι) : Option (T × State ι τ T) := do
  let data ← s.objects i
  let (old, data) := data.release tr
  some (old, s.store i data)

theorem release_cases (h : s.release tr i = some (v, t)) :
    s.held i = some v ∧ t.held = Function.update s.held i (some tr.invalidValue) ∧
      t.freed = s.freed ∧ t.released = s.released := by
  obtain ⟨data, hi, h⟩ := Option.bind_eq_some_iff.mp h
  cases h
  exact ⟨by rw [held, hi, Option.map_some], held_store _, rfl, rfl⟩

/-- The traits are swapped, and then the values. -/
def swap (s : State ι τ T) (i j : ι) : Option (State ι τ T) := do
  let a ← s.objects i
  let b ← s.objects j
  some ((s.store i { traits := b.traits, generic := b.generic }).store j
    { traits := a.traits, generic := a.generic })

theorem swap_cases (h : s.swap i j = some t) :
    ∃ a b, s.held i = some a ∧ s.held j = some b ∧
      t.held = Function.update (Function.update s.held i (some b)) j (some a) ∧
      t.freed = s.freed ∧ t.released = s.released := by
  obtain ⟨a, hi, h⟩ := Option.bind_eq_some_iff.mp h
  obtain ⟨b, hj, h⟩ := Option.bind_eq_some_iff.mp h
  cases h
  refine ⟨a.generic, b.generic, by rw [held, hi, Option.map_some],
    by rw [held, hj, Option.map_some], ?_, rfl, rfl⟩
  rw [held_store, held_store]

end State

variable [DecidableEq T]

/-- The values passed to `Free`, and what is left. -/
def Data.freeIfNecessary (data : Data τ T) : List T × Data τ T :=
  if data.generic ≠ tr.invalidValue then
    ([data.generic], { data with generic := tr.invalidValue })
  else ([], data)

variable {tr} in
theorem Data.freed_eq {data : Data τ T} : (data.freeIfNecessary tr).1 =
    if data.generic = tr.invalidValue then [] else [data.generic] := by
  unfold freeIfNecessary
  by_cases h : data.generic = tr.invalidValue <;> simp [h]

/-- `none` where the check fails. -/
def Data.reset (data : Data τ T) (value : T) : Option (List T × Data τ T) :=
  if data.generic = tr.invalidValue ∨ data.generic ≠ value then
    let (freed, data) := data.freeIfNecessary tr
    some (freed, { data with generic := value })
  else none

variable {tr} in
theorem Data.reset_cases {data data' : Data τ T} {value : T} {freed : List T}
    (h : data.reset tr value = some (freed, data')) :
    (data.generic = tr.invalidValue ∨ data.generic ≠ value) ∧
      freed = (data.freeIfNecessary tr).1 ∧
      data' = { (data.freeIfNecessary tr).2 with generic := value } := by
  unfold reset at h
  split at h
  case isTrue hcheck =>
    obtain ⟨hfreed, hdata⟩ := Prod.mk.inj (Option.some.inj h)
    exact ⟨hcheck, hfreed.symm, hdata.symm⟩
  case isFalse => cases h

namespace State

variable {tr} {s t : State ι τ T} {i : ι} {v : T}

variable (tr) in
def reset (s : State ι τ T) (i : ι) (value : T) : Option (State ι τ T) := do
  let data ← s.objects i
  let (freed, data) ← data.reset tr value
  some { s.store i data with freed := s.freed ++ freed }

theorem reset_cases (h : s.reset tr i v = some t) :
    ∃ old, s.held i = some old ∧ (old = tr.invalidValue ∨ old ≠ v) ∧
      t.held = Function.update s.held i (some v) ∧
      t.freed = s.freed ++ (if old = tr.invalidValue then [] else [old]) ∧
      t.released = s.released := by
  obtain ⟨data, hi, h⟩ := Option.bind_eq_some_iff.mp h
  obtain ⟨⟨freed, data'⟩, hreset, h⟩ := Option.bind_eq_some_iff.mp h
  obtain rfl := Option.some.inj h
  obtain ⟨hcheck, rfl, rfl⟩ := Data.reset_cases hreset
  refine ⟨data.generic, by rw [held, hi, Option.map_some], hcheck, held_store _, ?_, rfl⟩
  rw [Data.freed_eq]

variable (tr) in
def destroy (s : State ι τ T) (i : ι) : Option (State ι τ T) := do
  let data ← s.objects i
  some { s with
    objects := Function.update s.objects i none
    freed := s.freed ++ (data.freeIfNecessary tr).1 }

theorem destroy_cases (h : s.destroy tr i = some t) :
    ∃ old, s.held i = some old ∧ t.held = Function.update s.held i none ∧
      t.freed = s.freed ++ (if old = tr.invalidValue then [] else [old]) ∧
      t.released = s.released := by
  obtain ⟨data, hi, h⟩ := Option.bind_eq_some_iff.mp h
  obtain rfl := Option.some.inj h
  refine ⟨data.generic, by rw [held, hi, Option.map_some], ?_, ?_, rfl⟩
  · funext k
    by_cases hk : k = i
    · subst hk
      simp [held]
    · simp [held, hk]
  · rw [Data.freed_eq]

end State

/-! ### Programs over such objects -/

inductive Event (ι τ T : Type u) where
  | construct (i : ι)
  | constructFrom (i : ι) (value : T)
  | constructWith (i : ι) (value : T) (traits : τ)
  | moveConstruct (i other : ι)
  | moveAssign (i other : ι)
  | reset (i : ι) (value : T)
  | release (i : ι)
  | swap (i other : ι)
  | destroy (i : ι)

/-- `none` where the check of `reset` fails, an object is not there, or its place is taken. -/
def next (s : State ι τ T) : Event ι τ T → Option (State ι τ T)
  | .construct i => s.create i { traits := tr.make, generic := tr.invalidValue }
  | .constructFrom i value => s.create i { traits := tr.make, generic := value }
  | .constructWith i value traits => s.create i { traits, generic := value }
  | .moveConstruct i other => do
    let (value, s) ← s.release tr other
    let data ← s.objects other
    s.create i { traits := data.traits, generic := value }
  | .moveAssign i other => do
    let (value, s) ← s.release tr other
    s.reset tr i value
  | .reset i value => s.reset tr i value
  | .release i => do
    let (value, s) ← s.release tr i
    some { s with released := s.released ++ [value] }
  | .swap i other => s.swap i other
  | .destroy i => s.destroy tr i

/-- The objects that the event needs are there, and there is none where one is made. -/
def Alive (s : State ι τ T) : Event ι τ T → Prop
  | .construct i | .constructFrom i _ | .constructWith i _ _ => (s.objects i).isNone
  | .moveConstruct i other => (s.objects i).isNone ∧ (s.objects other).isSome
  | .moveAssign i other | .swap i other => (s.objects i).isSome ∧ (s.objects other).isSome
  | .reset i _ | .release i | .destroy i => (s.objects i).isSome

instance (s : State ι τ T) : ∀ e, Decidable (Alive s e)
  | .construct i | .constructFrom i _ | .constructWith i _ _ =>
    inferInstanceAs (Decidable ((s.objects i).isNone = true))
  | .moveConstruct i other =>
    inferInstanceAs (Decidable ((s.objects i).isNone = true ∧ (s.objects other).isSome = true))
  | .moveAssign i other | .swap i other =>
    inferInstanceAs (Decidable ((s.objects i).isSome = true ∧ (s.objects other).isSome = true))
  | .reset i _ | .release i | .destroy i =>
    inferInstanceAs (Decidable ((s.objects i).isSome = true))

/-- The value that the event hands to an object. -/
def Event.hands : Event ι τ T → Option T
  | .constructFrom _ value | .constructWith _ value _ | .reset _ value => some value
  | _ => none

def handed (es : List (Event ι τ T)) : List T :=
  es.filterMap Event.hands

/-- What the object at `i` held is replaced, reset or destroyed. -/
def Event.Disposes (i : ι) : Event ι τ T → Prop
  | .reset k _ | .destroy k => k = i
  | .moveAssign k other => k = i ∧ other ≠ i
  | _ => False

def uniqueFDTraits : Traits Unit ℤ where
  make := ()
  invalidValue := -1
  isValid value := decide (0 ≤ value)
  invalid_not_valid := rfl

end UniqueObject

end EnvironmentCheck
