import Mathlib.Data.List.Basic
import Mathlib.Data.List.Induction
import Mathlib.Order.Basic

namespace EnvironmentCheck.Transition

variable {σ ε : Type*}

/-- `none` as soon as one of the steps is not possible. -/
def run (next : σ → ε → Option σ) : σ → List ε → Option σ
  | s, [] => some s
  | s, e :: es => (next s e).bind fun t => run next t es

def Meets (next : σ → ε → Option σ) (cond : σ → ε → Prop) : σ → List ε → Prop
  | _, [] => True
  | s, e :: es => cond s e ∧ ∀ t, next s e = some t → Meets next cond t es

def Always (next : σ → ε → Option σ) (p : σ → Prop) (s : σ) (es : List ε) : Prop :=
  ∀ front, front <+: es → ∀ t, run next s front = some t → p t

def Reachable (next : σ → ε → Option σ) (cond : σ → ε → Prop) (s₀ s : σ) : Prop :=
  ∃ es, Meets next cond s₀ es ∧ run next s₀ es = some s

variable {next : σ → ε → Option σ} {cond : σ → ε → Prop} {p : σ → Prop} {s₀ s t : σ} {e : ε}
  {es : List ε}

@[simp] theorem run_nil : run next s [] = some s := rfl

theorem run_cons : run next s (e :: es) = (next s e).bind fun u => run next u es := rfl

theorem run_cons_some (h : next s e = some t) : run next s (e :: es) = run next t es := by
  rw [run_cons, h, Option.bind_some]

theorem run_append (es fs : List ε) :
    run next s (es ++ fs) = (run next s es).bind fun u => run next u fs := by
  induction es generalizing s with
  | nil => rfl
  | cons e es ih =>
    simp only [List.cons_append, run_cons, Option.bind_assoc]
    congr 1
    funext u
    exact ih

theorem run_snoc (h : run next s es = some t) (e : ε) : run next s (es ++ [e]) = next t e := by
  rw [run_append, h, Option.bind_some, run_cons]
  cases next t e <;> rfl

theorem run_snoc_iff : run next s (es ++ [e]) = some t ↔
    ∃ u, run next s es = some u ∧ next u e = some t := by
  rw [run_append, Option.bind_eq_some_iff]
  simp [run_cons]

theorem run_keeps (keep : ∀ s e t, p s → next s e = some t → p t) (hs : p s)
    (hr : run next s es = some t) : p t := by
  induction es generalizing s with
  | nil =>
    cases hr
    exact hs
  | cons e es ih =>
    obtain ⟨u, hu, hr⟩ := Option.bind_eq_some_iff.mp hr
    exact ih (keep s e u hs hu) hr

/-- What each step records of an event, the run records of all its steps. -/
theorem run_records {event : ε} (record : ∀ s e t, next s e = some t → (p t ↔ p s ∨ e = event))
    (hr : run next s es = some t) : p t ↔ p s ∨ event ∈ es := by
  induction es generalizing s with
  | nil =>
    cases hr
    simp
  | cons e es ih =>
    obtain ⟨u, hu, hr⟩ := Option.bind_eq_some_iff.mp hr
    rw [ih hr, record s e u hu, List.mem_cons, or_assoc, eq_comm]

theorem run_mono {α : Type*} [Preorder α] {f : σ → α} (hs : ∀ s e t, next s e = some t → f s ≤ f t)
    (hr : run next s es = some t) : f s ≤ f t := by
  induction es generalizing s with
  | nil =>
    cases hr
    exact le_refl _
  | cons e es ih =>
    obtain ⟨u, hu, hr⟩ := Option.bind_eq_some_iff.mp hr
    exact le_trans (hs s e u hu) (ih hr)

theorem meets_append (es fs : List ε) :
    Meets next cond s (es ++ fs) ↔
      Meets next cond s es ∧ ∀ t, run next s es = some t → Meets next cond t fs := by
  induction es generalizing s with
  | nil => simp [Meets]
  | cons e es ih =>
    simp only [List.cons_append, Meets, ih, run_cons]
    constructor
    · rintro ⟨hc, h⟩
      refine ⟨⟨hc, fun t ht => (h t ht).1⟩, fun u hu => ?_⟩
      obtain ⟨t, ht, hu⟩ := Option.bind_eq_some_iff.mp hu
      exact (h t ht).2 u hu
    · rintro ⟨⟨hc, h⟩, hf⟩
      exact ⟨hc, fun t ht => ⟨h t ht, fun u hu => hf u (by rw [ht, Option.bind_some, hu])⟩⟩

theorem Reachable.refl : Reachable next cond s₀ s₀ := ⟨[], trivial, rfl⟩

theorem Reachable.step (h : Reachable next cond s₀ s) (hc : cond s e) (he : next s e = some t) :
    Reachable next cond s₀ t := by
  obtain ⟨es, hm, hr⟩ := h
  refine ⟨es ++ [e], (meets_append es [e]).mpr ⟨hm, ?_⟩, (run_snoc hr e).trans he⟩
  intro u hu
  obtain rfl : s = u := Option.some.inj (hr.symm.trans hu)
  exact ⟨hc, fun _ _ => trivial⟩

theorem Reachable.extend (h : Reachable next cond s₀ s) (hm : Meets next cond s es)
    (hr : run next s es = some t) : Reachable next cond s₀ t := by
  obtain ⟨front, hfront, hs⟩ := h
  refine ⟨front ++ es, (meets_append front es).mpr ⟨hfront, ?_⟩, ?_⟩
  · intro u hu
    obtain rfl : s = u := Option.some.inj (hs.symm.trans hu)
    exact hm
  · rw [run_append, hs, Option.bind_some, hr]

theorem Reachable.invariant (hi : p s₀)
    (hs : ∀ s e t, Reachable next cond s₀ s → p s → cond s e → next s e = some t → p t)
    (h : Reachable next cond s₀ s) : p s := by
  obtain ⟨es, hm, hr⟩ := h
  induction es using List.reverseRecOn generalizing s with
  | nil =>
    cases hr
    exact hi
  | append_singleton es e ih =>
    obtain ⟨u, hu, hnext⟩ := run_snoc_iff.mp hr
    rw [meets_append] at hm
    exact hs u e s ⟨es, hm.1, hu⟩ (ih hm.1 hu) (hm.2 u hu).1 hnext

theorem Meets.mono {cond' : σ → ε → Prop} (hc : ∀ s e, cond s e → cond' s e)
    (h : Meets next cond s es) : Meets next cond' s es := by
  induction es generalizing s with
  | nil => trivial
  | cons e es ih => exact ⟨hc s e h.1, fun t ht => ih (h.2 t ht)⟩

/-- Two conditions that say the same where an invariant holds, which the first one keeps. -/
theorem meets_congr {cond' : σ → ε → Prop} (inv : σ → Prop)
    (keep : ∀ s e t, inv s → cond s e → next s e = some t → inv t)
    (same : ∀ s e, inv s → (cond s e ↔ cond' s e)) (hs : inv s) :
    Meets next cond s es ↔ Meets next cond' s es := by
  induction es generalizing s with
  | nil => exact Iff.rfl
  | cons e es ih =>
    constructor
    · rintro ⟨hc, h⟩
      exact ⟨(same s e hs).mp hc, fun t ht => (ih (keep s e t hs hc ht)).mp (h t ht)⟩
    · rintro ⟨hc, h⟩
      have hc' := (same s e hs).mpr hc
      exact ⟨hc', fun t ht => (ih (keep s e t hs hc' ht)).mpr (h t ht)⟩

theorem meets_true (s : σ) (es : List ε) : Meets next (fun _ _ => True) s es := by
  induction es generalizing s with
  | nil => trivial
  | cons e es ih => exact ⟨trivial, fun t _ => ih t⟩

theorem Reachable.mono {cond' : σ → ε → Prop} (hc : ∀ s e, cond s e → cond' s e)
    (h : Reachable next cond s₀ s) : Reachable next cond' s₀ s := by
  obtain ⟨es, hm, hr⟩ := h
  exact ⟨es, hm.mono hc, hr⟩

def decideMeets [∀ s e, Decidable (cond s e)] : ∀ (s : σ) (es : List ε), Decidable (Meets next cond s es)
  | _, [] => .isTrue trivial
  | s, e :: es =>
    match h : next s e with
    | none => decidable_of_iff (cond s e) (by simp [Meets, h])
    | some t =>
      haveI := decideMeets t es
      decidable_of_iff (cond s e ∧ Meets next cond t es) (by simp [Meets, h])

instance [∀ s e, Decidable (cond s e)] (s : σ) (es : List ε) : Decidable (Meets next cond s es) :=
  decideMeets s es

theorem always_nil : Always next p s [] ↔ p s := by
  simp [Always, List.prefix_nil]

theorem always_cons :
    Always next p s (e :: es) ↔ p s ∧ ∀ t, next s e = some t → Always next p t es := by
  constructor
  · intro h
    refine ⟨h [] List.nil_prefix s rfl, fun t ht front hf u hu => ?_⟩
    exact h (e :: front) ((List.prefix_cons_inj e).mpr hf) u (by rw [run_cons_some ht, hu])
  · rintro ⟨hp, h⟩ front hf u hu
    cases front with
    | nil =>
      cases hu
      exact hp
    | cons e' front =>
      obtain ⟨rfl, hfront⟩ := List.cons_prefix_cons.mp hf
      obtain ⟨t, ht, hu⟩ := Option.bind_eq_some_iff.mp hu
      exact h t ht front hfront u hu

theorem always_of_last {inv : σ → Prop} (hi : inv s)
    (keep : ∀ s e t, inv s → next s e = some t → inv t)
    (back : ∀ s e t, inv s → next s e = some t → p t → p s) (hr : run next s es = some t)
    (ht : p t) : Always next p s es := by
  have first : ∀ {es s t}, inv s → run next s es = some t → p t → p s := by
    intro es
    induction es with
    | nil =>
      intro s t _ hr ht
      cases hr
      exact ht
    | cons e es ih =>
      intro s t hi hr ht
      obtain ⟨u, hu, hr⟩ := Option.bind_eq_some_iff.mp hr
      exact back s e u hi hu (ih (keep s e u hi hu) hr ht)
  intro front hf u hu
  obtain ⟨rest, rfl⟩ := hf
  rw [run_append, hu, Option.bind_some] at hr
  exact first (run_keeps keep hi hu) hr ht

/-- Where, among the steps that `base` admits, one step keeps `p` exactly when it meets `cond`, a
whole run keeps `p` exactly when all its steps do. -/
theorem always_iff_meets_within {inv : σ → Prop} {base : σ → ε → Prop} (hi : inv s) (hp : p s)
    (keep : ∀ s e t, inv s → base s e → next s e = some t → p s → cond s e → inv t)
    (exact : ∀ s e t, inv s → base s e → next s e = some t → p s → (p t ↔ cond s e))
    (hb : Meets next base s es) (hr : (run next s es).isSome) :
    Always next p s es ↔ Meets next cond s es := by
  induction es generalizing s with
  | nil => simpa [always_nil, Meets] using hp
  | cons e es ih =>
    rw [run_cons] at hr
    cases hn : next s e with
    | none => simp [hn] at hr
    | some t =>
      rw [hn, Option.bind_some] at hr
      simp only [always_cons, Meets, hn, Option.some.injEq, forall_eq', hp, true_and]
      constructor
      · intro h
        have hpt : p t := h [] List.nil_prefix t rfl
        have hc := (exact s e t hi hb.1 hn hp).mp hpt
        exact ⟨hc, (ih (keep s e t hi hb.1 hn hp hc) hpt (hb.2 t hn) hr).mp h⟩
      · rintro ⟨hc, h⟩
        have hpt : p t := (exact s e t hi hb.1 hn hp).mpr hc
        exact (ih (keep s e t hi hb.1 hn hp hc) hpt (hb.2 t hn) hr).mpr h

theorem always_iff_meets {inv : σ → Prop} (hi : inv s) (hp : p s)
    (keep : ∀ s e t, inv s → next s e = some t → p s → cond s e → inv t)
    (exact : ∀ s e t, inv s → next s e = some t → p s → (p t ↔ cond s e))
    (hr : (run next s es).isSome) : Always next p s es ↔ Meets next cond s es :=
  always_iff_meets_within hi hp (fun s e t hi _ => keep s e t hi)
    (fun s e t hi _ => exact s e t hi) (meets_true s es) hr

theorem always_iff_meets_of_exact (hp : p s)
    (exact : ∀ s e t, next s e = some t → p s → (p t ↔ cond s e)) (hr : (run next s es).isSome) :
    Always next p s es ↔ Meets next cond s es := by
  apply @always_iff_meets σ ε next cond p s es (fun _ => True) trivial hp _ _ hr
  · intro s e t _ _ _ _
    exact trivial
  · intro s e t _
    exact exact s e t

/-- Where `p` is lost exactly in a step that fails `cond`, and never regained, it holds at the end
of a run exactly when all the steps meet `cond`. -/
theorem last_iff_meets {inv : σ → Prop} (hi : inv s) (hp : p s)
    (keep : ∀ s e t, inv s → next s e = some t → inv t)
    (exact : ∀ s e t, inv s → next s e = some t → p s → (p t ↔ cond s e))
    (back : ∀ s e t, inv s → next s e = some t → p t → p s) (hr : run next s es = some t) :
    p t ↔ Meets next cond s es := by
  have hsome : (run next s es).isSome := by rw [hr]; rfl
  rw [← always_iff_meets hi hp (fun s e t hi hn _ _ => keep s e t hi hn) exact hsome]
  constructor
  · intro ht
    exact always_of_last hi keep back hr ht
  · intro h
    exact h es (List.prefix_refl es) t hr

end EnvironmentCheck.Transition
