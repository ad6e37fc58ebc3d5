import EnvironmentCheck.UniqueObject

namespace EnvironmentCheck

universe u

namespace UniqueObject

open Transition

/-! What becomes of one handle. -/

inductive Place (ι : Type u) where
  | fresh
  | held (i : ι)
  | freed
  | released
  deriving DecidableEq

variable {ι τ T : Type u} [DecidableEq ι] [DecidableEq T] {tr : Traits τ T} {s t : State ι τ T}
  {e : Event ι τ T} {es : List (Event ι τ T)} {p : Place ι} {i : ι} {v : T}

/-- Where an event takes the handle. -/
def Place.after (v : T) (p : Place ι) : Event ι τ T → Place ι
  | .construct _ => p
  | .constructFrom i value | .constructWith i value _ => if value = v then .held i else p
  | .moveConstruct i other => if p = .held other then .held i else p
  | .moveAssign i other =>
    if p = .held other then .held i else if p = .held i then .freed else p
  | .reset i value => if value = v then .held i else if p = .held i then .freed else p
  | .release i => if p = .held i then .released else p
  | .swap i other => if p = .held other then .held i else if p = .held i then .held other else p
  | .destroy i => if p = .held i then .freed else p

structure At (v : T) (s : State ι τ T) (p : Place ι) : Prop where
  held : ∀ i, s.held i = some v ↔ p = .held i
  freed : s.freed.count v = if p = .freed then 1 else 0
  released : s.released.count v = if p = .released then 1 else 0

theorem At.mem_freed (h : At v s p) : v ∈ s.freed ↔ p = .freed := by
  rw [← List.one_le_count_iff, h.freed]
  split <;> simp_all

theorem At.mem_released (h : At v s p) : v ∈ s.released ↔ p = .released := by
  rw [← List.one_le_count_iff, h.released]
  split <;> simp_all

theorem at_start : At v (start : State ι τ T) .fresh := by
  constructor
  · intro i
    simp [start, State.held]
  · rfl
  · rfl

theorem at_create {data : Data τ T} (h : At v s p) (hn : s.create i data = some t)
    (hv : data.generic = v → p = .fresh) :
    At v t (if data.generic = v then .held i else p) := by
  obtain ⟨hi, hheld, hfreed, hreleased⟩ := State.create_cases hn
  have hne : p ≠ .held i := by
    intro hp
    rw [(h.held i).mpr hp] at hi
    cases hi
  constructor
  · intro k
    rw [hheld, Function.update_apply]
    grind [h.held k]
  · rw [hfreed, h.freed]
    grind
  · rw [hreleased, h.released]
    grind

theorem at_release (hv : v ≠ tr.invalidValue) {value : T} (h : At v s p)
    (hn : s.release tr i = some (value, t)) : (value = v ↔ p = .held i) ∧
      t.freed = s.freed ∧ t.released = s.released ∧
      ∀ k, t.held k = some v ↔ p = .held k ∧ k ≠ i := by
  obtain ⟨hi, hheld, hfreed, hreleased⟩ := State.release_cases hn
  refine ⟨by grind [h.held i], hfreed, hreleased, fun k => ?_⟩
  rw [hheld, Function.update_apply]
  grind [h.held k]

theorem at_moveConstruct (hv : v ≠ tr.invalidValue) {other : ι} (h : At v s p)
    (hn : next tr s (.moveConstruct i other) = some t) :
    At v t (p.after v (.moveConstruct i other : Event ι τ T)) := by
  obtain ⟨⟨value, u⟩, hrelease, hn⟩ := Option.bind_eq_some_iff.mp hn
  obtain ⟨data, _, hn⟩ := Option.bind_eq_some_iff.mp hn
  obtain ⟨hvalue, hfreed, hreleased, hothers⟩ := at_release hv h hrelease
  obtain ⟨hi, hheld, hfreed', hreleased'⟩ := State.create_cases hn
  constructor
  · intro k
    rw [hheld, Function.update_apply]
    grind [Place.after, hothers k, hothers i]
  · rw [hfreed', hfreed, h.freed]
    grind [Place.after]
  · rw [hreleased', hreleased, h.released]
    grind [Place.after]

/-- Between the release and the reset the handle may be in no object. -/
theorem at_moveAssign (hv : v ≠ tr.invalidValue) {other : ι} (h : At v s p)
    (hn : next tr s (.moveAssign i other) = some t) :
    At v t (p.after v (.moveAssign i other : Event ι τ T)) := by
  obtain ⟨⟨value, u⟩, hrelease, hn⟩ := Option.bind_eq_some_iff.mp hn
  obtain ⟨hvalue, hfreed, hreleased, hothers⟩ := at_release hv h hrelease
  obtain ⟨old, hi, _, hheld, hfreed', hreleased'⟩ := State.reset_cases hn
  constructor
  · intro k
    rw [hheld, Function.update_apply]
    grind [Place.after, hothers k, hothers i]
  · rw [hfreed', hfreed, List.count_append, h.freed]
    grind [Place.after, hothers i]
  · rw [hreleased', hreleased, h.released]
    grind [Place.after]

theorem at_reset (hv : v ≠ tr.invalidValue) {value : T} (h : At v s p)
    (hn : next tr s (.reset i value) = some t) (hone : value = v → p = .fresh) :
    At v t (p.after v (.reset i value : Event ι τ T)) := by
  obtain ⟨old, hi, _, hheld, hfreed, hreleased⟩ := State.reset_cases hn
  constructor
  · intro k
    rw [hheld, Function.update_apply]
    grind [Place.after, h.held k]
  · rw [hfreed, List.count_append, h.freed]
    grind [Place.after, h.held i]
  · rw [hreleased, h.released]
    grind [Place.after]

theorem at_released (hv : v ≠ tr.invalidValue) (h : At v s p)
    (hn : next tr s (.release i) = some t) : At v t (p.after v (.release i : Event ι τ T)) := by
  obtain ⟨⟨value, u⟩, hrelease, hn⟩ := Option.bind_eq_some_iff.mp hn
  obtain rfl := Option.some.inj hn
  obtain ⟨hvalue, hfreed, hreleased, hothers⟩ := at_release hv h hrelease
  constructor
  · intro k
    change u.held k = some v ↔ _
    grind [Place.after, hothers k]
  · change u.freed.count v = _
    rw [hfreed, h.freed]
    grind [Place.after]
  · change (u.released ++ [value]).count v = _
    rw [hreleased, List.count_append, h.released]
    grind [Place.after]

theorem at_swap {other : ι} (h : At v s p) (hn : next tr s (.swap i other) = some t) :
    At v t (p.after v (.swap i other : Event ι τ T)) := by
  obtain ⟨a, b, hi, hj, hheld, hfreed, hreleased⟩ := State.swap_cases hn
  constructor
  · intro k
    rw [hheld, Function.update_apply, Function.update_apply]
    grind [Place.after, h.held k, h.held i, h.held other]
  · rw [hfreed, h.freed]
    grind [Place.after]
  · rw [hreleased, h.released]
    grind [Place.after]

theorem at_destroy (hv : v ≠ tr.invalidValue) (h : At v s p)
    (hn : next tr s (.destroy i) = some t) : At v t (p.after v (.destroy i : Event ι τ T)) := by
  obtain ⟨old, hi, hheld, hfreed, hreleased⟩ := State.destroy_cases hn
  constructor
  · intro k
    rw [hheld, Function.update_apply]
    grind [Place.after, h.held k]
  · rw [hfreed, List.count_append, h.freed]
    grind [Place.after, h.held i]
  · rw [hreleased, h.released]
    grind [Place.after]

theorem at_next (hv : v ≠ tr.invalidValue) (h : At v s p) (hn : next tr s e = some t)
    (hone : e.hands = some v → p = .fresh) : At v t (p.after v e) := by
  cases e with
  | construct i =>
    have hc := at_create h hn fun heq => absurd heq.symm hv
    rwa [if_neg (Ne.symm hv)] at hc
  | constructFrom i value => exact at_create h hn fun heq => hone (congrArg some heq)
  | constructWith i value traits => exact at_create h hn fun heq => hone (congrArg some heq)
  | moveConstruct i other => exact at_moveConstruct hv h hn
  | moveAssign i other => exact at_moveAssign hv h hn
  | reset i value => exact at_reset hv h hn fun heq => hone (congrArg some heq)
  | release i => exact at_released hv h hn
  | swap i other => exact at_swap h hn
  | destroy i => exact at_destroy hv h hn

theorem after_fresh_iff :
    p.after v e = .fresh ↔ p = .fresh ∧ e.hands ≠ some v := by
  cases e <;> grind [Place.after, Event.hands]

theorem after_freed_iff (hone : e.hands = some v → p = .fresh) :
    p.after v e = .freed ↔ p = .freed ∨ ∃ i, p = .held i ∧ e.Disposes i := by
  cases e <;> grind [Place.after, Event.hands, Event.Disposes]

/-! ### Runs -/

omit [DecidableEq ι] [DecidableEq T] in
theorem handed_cons : handed (e :: es) = e.hands.toList ++ handed es := by
  cases h : e.hands <;> simp [handed, h]

theorem at_run (hv : v ≠ tr.invalidValue) (h : At v s p) (hr : run (next tr) s es = some t)
    (hone : (handed es).count v + (if p = .fresh then 0 else 1) ≤ 1) :
    At v t (es.foldl (Place.after v) p) := by
  induction es generalizing s p with
  | nil =>
    cases hr
    exact h
  | cons e es ih =>
    obtain ⟨u, hu, hr⟩ := Option.bind_eq_some_iff.mp hr
    rw [handed_cons, List.count_append] at hone
    have hfirst : e.hands = some v → p = .fresh := by
      intro hhands
      grind
    refine ih (at_next hv h hu hfirst) hr ?_
    have hfresh := after_fresh_iff (p := p) (v := v) (e := e)
    grind

theorem foldl_fresh_iff :
    es.foldl (Place.after v) p = .fresh ↔ p = .fresh ∧ v ∉ handed es := by
  induction es generalizing p with
  | nil => simp [handed]
  | cons e es ih =>
    rw [List.foldl_cons, ih, after_fresh_iff, handed_cons, List.mem_append, not_or, and_assoc]
    simp [Option.mem_toList]

/-- The check of `reset` holds where every handle is in its place. -/
theorem next_isSome (ha : Alive s e)
    (h : ∀ v, v ≠ tr.invalidValue → ∃ p, At v s p ∧ (e.hands = some v → p = .fresh)) :
    (next tr s e).isSome := by
  cases e with
  | construct i | constructFrom i value | constructWith i value traits =>
    simp [next, State.create, Option.isNone_iff_eq_none.mp ha]
  | moveConstruct i other =>
    obtain ⟨hi, hother⟩ := ha
    obtain ⟨data, hdata⟩ := Option.isSome_iff_exists.mp hother
    have hi := Option.isNone_iff_eq_none.mp hi
    have hne : i ≠ other := by
      rintro rfl
      rw [hi] at hdata
      cases hdata
    simp [next, State.release, hdata, State.create, State.store, hne, hi]
  | moveAssign i other =>
    obtain ⟨hi, hother⟩ := ha
    obtain ⟨old, hold⟩ := Option.isSome_iff_exists.mp hi
    obtain ⟨data, hdata⟩ := Option.isSome_iff_exists.mp hother
    by_cases hne : i = other
    · simp [next, State.release, hdata, State.reset, State.store, hne, Data.release, Data.reset]
    · have hcheck : old.generic = tr.invalidValue ∨ old.generic ≠ data.generic := by
        by_contra hboth
        obtain ⟨hvalid, heq⟩ := not_or.mp hboth
        obtain ⟨p, hp, _⟩ := h old.generic hvalid
        have hi := (hp.held i).mp (by rw [State.held, hold, Option.map_some])
        have hother := (hp.held other).mp (by
          rw [State.held, hdata, Option.map_some, not_not.mp heq])
        exact hne (Place.held.inj (hi.symm.trans hother))
      simp [next, State.release, hdata, State.reset, State.store, hne, hold, Data.release,
        Data.reset, hcheck]
  | reset i value =>
    obtain ⟨old, hold⟩ := Option.isSome_iff_exists.mp ha
    have hcheck : old.generic = tr.invalidValue ∨ old.generic ≠ value := by
      by_contra hboth
      obtain ⟨hvalid, heq⟩ := not_or.mp hboth
      obtain ⟨p, hp, hone⟩ := h old.generic hvalid
      have hi := (hp.held i).mp (by rw [State.held, hold, Option.map_some])
      rw [hone (congrArg some (not_not.mp heq).symm)] at hi
      cases hi
    simp [next, State.reset, hold, Data.reset, hcheck]
  | release i =>
    obtain ⟨data, hdata⟩ := Option.isSome_iff_exists.mp ha
    simp [next, State.release, hdata]
  | swap i other =>
    obtain ⟨hi, hother⟩ := ha
    obtain ⟨a, ha⟩ := Option.isSome_iff_exists.mp hi
    obtain ⟨b, hb⟩ := Option.isSome_iff_exists.mp hother
    simp [next, State.swap, ha, hb]
  | destroy i =>
    obtain ⟨data, hdata⟩ := Option.isSome_iff_exists.mp ha
    simp [next, State.destroy, hdata]

/-- Every handle is handed to one owner only. -/
def HandedOnce (tr : Traits τ T) (es : List (Event ι τ T)) : Prop :=
  ∀ v, v ≠ tr.invalidValue → (handed es).count v ≤ 1

omit [DecidableEq ι] in
theorem HandedOnce.front {fs : List (Event ι τ T)} (h : HandedOnce tr (es ++ fs)) :
    HandedOnce tr es := by
  intro v hv
  have hone := h v hv
  rw [handed, List.filterMap_append, List.count_append] at hone
  exact Nat.le_trans (Nat.le_add_right _ _) hone

theorem at_of_run (hv : v ≠ tr.invalidValue) (h : HandedOnce tr es)
    (hr : run (next tr) start es = some s) : At v s (es.foldl (Place.after v) .fresh) :=
  at_run hv at_start hr (h v hv)

theorem HandedOnce.fresh (h : HandedOnce tr (es ++ [e])) (hv : v ≠ tr.invalidValue)
    (hhands : e.hands = some v) : es.foldl (Place.after v) .fresh = .fresh := by
  refine foldl_fresh_iff.mpr ⟨rfl, fun hmem => ?_⟩
  have hone := h v hv
  rw [handed, List.filterMap_append, List.count_append] at hone
  have hfront : 1 ≤ (es.filterMap Event.hands).count v := List.one_le_count_iff.mpr hmem
  have hlast : ([e].filterMap Event.hands).count v = 1 := by simp [hhands]
  omega

theorem run_isSome (hm : Meets (next tr) Alive start es) (h : HandedOnce tr es) :
    ∃ s, run (next tr) start es = some s := by
  induction es using List.reverseRecOn with
  | nil => exact ⟨start, rfl⟩
  | append_singleton es e ih =>
    obtain ⟨hfront, hlast⟩ := (meets_append es [e]).mp hm
    obtain ⟨s, hs⟩ := ih hfront h.front
    rw [run_snoc hs, ← Option.isSome_iff_exists]
    refine next_isSome (hlast s hs).1 fun v hv => ?_
    exact ⟨_, at_of_run hv h.front hs, h.fresh hv⟩

/-! ### The ledger of a handle -/

/-- What a program has done to a handle. -/
structure Ledger (es : List (Event ι τ T)) (v : T) (s : State ι τ T) : Prop where
  freed_once : s.freed.count v ≤ 1
  released_kept : v ∈ s.released → v ∉ s.freed
  held_kept : ∀ i, s.held i = some v → v ∉ s.freed ∧ v ∉ s.released
  one_owner : ∀ i j, s.held i = some v → s.held j = some v → i = j
  accounted : v ∈ handed es → (∃ i, s.held i = some v) ∨ s.freed.count v = 1 ∨ v ∈ s.released

theorem At.ledger (h : At v s (es.foldl (Place.after v) .fresh)) : Ledger es v s := by
  constructor
  · rw [h.freed]
    split <;> omega
  · intro hr hf
    rw [h.mem_released] at hr
    rw [h.mem_freed, hr] at hf
    cases hf
  · intro i hi
    rw [h.mem_freed, h.mem_released, (h.held i).mp hi]
    exact ⟨by rintro ⟨⟩, by rintro ⟨⟩⟩
  · intro i j hi hj
    exact Place.held.inj (((h.held i).mp hi).symm.trans ((h.held j).mp hj))
  · intro hhanded
    cases hp : es.foldl (Place.after v) Place.fresh with
    | fresh => exact absurd hhanded (foldl_fresh_iff.mp hp).2
    | held i => exact Or.inl ⟨i, (h.held i).mpr hp⟩
    | freed => exact Or.inr (Or.inl (by rw [h.freed, if_pos hp]))
    | released => exact Or.inr (Or.inr (h.mem_released.mpr hp))

omit [DecidableEq T] in
theorem valid_ne (hv : tr.isValid v = true) : v ≠ tr.invalidValue := by
  rintro rfl
  rw [tr.invalid_not_valid] at hv
  cases hv

theorem frees_once (es : List (Event ι τ T)) (hm : Meets (next tr) Alive start es)
    (h : HandedOnce tr es) :
    (∃ s, run (next tr) start es = some s) ∧ ∀ v, tr.isValid v = true →
      (∀ front s, front <+: es → run (next tr) start front = some s → Ledger front v s) ∧
      ∀ front e before after, front ++ [e] <+: es → run (next tr) start front = some before →
        next tr before e = some after →
          (v ∈ after.freed ∧ v ∉ before.freed ↔ ∃ i, before.held i = some v ∧ e.Disposes i) ∧
          (v ∈ after.freed → ∀ i, after.held i ≠ some v) := by
  refine ⟨run_isSome hm h, fun v hvalid => ?_⟩
  have hv : v ≠ tr.invalidValue := valid_ne hvalid
  constructor
  · rintro front s ⟨rest, rfl⟩ hs
    exact (at_of_run hv h.front hs).ledger
  · rintro front e before after ⟨rest, rfl⟩ hbefore hafter
    have hfront : HandedOnce tr (front ++ [e]) := h.front
    have hb := at_of_run hv hfront.front hbefore
    have ha := at_next hv hb hafter (hfront.fresh hv)
    have hfreed := after_freed_iff (hfront.fresh hv)
    constructor
    · rw [ha.mem_freed, hb.mem_freed, hfreed]
      constructor
      · rintro ⟨hp | ⟨i, hi, hdisposes⟩, hkept⟩
        · exact absurd hp hkept
        · exact ⟨i, (hb.held i).mpr hi, hdisposes⟩
      · rintro ⟨i, hi, hdisposes⟩
        have hp := (hb.held i).mp hi
        refine ⟨Or.inr ⟨i, hp, hdisposes⟩, ?_⟩
        rw [hp]
        rintro ⟨⟩
    · intro hgone i hi
      have hp := ha.mem_freed.mp hgone
      rw [(ha.held i).mp hi] at hp
      cases hp

theorem frees_once_moved :
    ∃ s, run (next uniqueFDTraits) start
      [.constructFrom 0 5, .moveConstruct 1 0, .moveAssign 1 1, .swap 0 1, .reset 0 7,
        .construct 2, .moveAssign 2 0, .release 2, .destroy 0, .destroy 1, .destroy (2 : ℕ)] =
          some s := by
  refine (frees_once _ (by decide) ?_).1
  intro v _
  exact List.nodup_iff_count.mp (by decide) v

end UniqueObject

end EnvironmentCheck
