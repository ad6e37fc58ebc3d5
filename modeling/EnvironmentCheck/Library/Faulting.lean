import Mathlib.Data.List.Basic

namespace EnvironmentCheck

universe u v

/-- Computations on a state, which may stop with a fault. -/
abbrev Faulting (σ : Type u) (ε : Type v) (α : Type u) := StateT σ (Except ε) α

namespace Faulting

variable {σ α β : Type u} {ε : Type v}

def Ensures (x : Faulting σ ε α) (s : σ) (post : α → σ → Prop) : Prop :=
  ∃ a t, x s = .ok (a, t) ∧ post a t

variable {x : Faulting σ ε α} {f : α → Faulting σ ε β} {s t : σ} {a : α} {e : ε}

theorem bind_ok (h : x s = .ok (a, t)) (f : α → Faulting σ ε β) : (x >>= f) s = f a t := by
  change (x s).bind (fun r => f r.1 r.2) = f a t
  rw [h]
  rfl

theorem bind_error (h : x s = .error e) (f : α → Faulting σ ε β) : (x >>= f) s = .error e := by
  change (x s).bind (fun r => f r.1 r.2) = .error e
  rw [h]
  rfl

theorem ensures_pure {post : α → σ → Prop} (h : post a s) : Ensures (ε := ε) (pure a) s post :=
  ⟨a, s, rfl, h⟩

theorem Ensures.bind {mid : α → σ → Prop} {post : β → σ → Prop} (hx : Ensures x s mid)
    (hf : ∀ a t, mid a t → Ensures (f a) t post) : Ensures (x >>= f) s post := by
  obtain ⟨a, t, hrun, hmid⟩ := hx
  obtain ⟨b, u, hrest, hpost⟩ := hf a t hmid
  exact ⟨b, u, (bind_ok hrun f).trans hrest, hpost⟩

theorem Ensures.mono {mid post : α → σ → Prop} (hx : Ensures x s mid)
    (h : ∀ a t, mid a t → post a t) : Ensures x s post := by
  obtain ⟨a, t, hrun, hmid⟩ := hx
  exact ⟨a, t, hrun, h a t hmid⟩

theorem Ensures.map {mid : α → σ → Prop} {post : β → σ → Prop} {g : α → β}
    (hx : Ensures x s mid) (hg : ∀ a t, mid a t → post (g a) t) : Ensures (g <$> x) s post := by
  rw [← bind_pure_comp]
  apply hx.bind
  intro a t hmid
  exact ensures_pure (hg a t hmid)

theorem Ensures.of_ok {post : α → σ → Prop} (h : Ensures x s post) (hrun : x s = .ok (a, t)) :
    post a t := by
  obtain ⟨b, u, hrun', hpost⟩ := h
  obtain ⟨rfl, rfl⟩ := Prod.mk.inj (Except.ok.inj (hrun.symm.trans hrun'))
  exact hpost

theorem ensures_forM {γ : Type*} {f : γ → Faulting σ ε PUnit} {xs : List γ}
    (inv : List γ → σ → Prop) (hi : inv xs s)
    (step : ∀ y ys t, inv (y :: ys) t → Ensures (f y) t fun _ u => inv ys u) :
    Ensures (xs.forM f) s fun _ t => inv [] t := by
  induction xs generalizing s with
  | nil => exact ensures_pure hi
  | cons y ys ih =>
    change Ensures (f y >>= fun _ => ys.forM f) s fun _ t => inv [] t
    apply (step y ys s hi).bind
    intro _ t ht
    exact ih ht

end Faulting

end EnvironmentCheck
