import EnvironmentCheck.RefPtr

namespace EnvironmentCheck.RefPtrs

open Transition

def refs (s : RefPtrs) (object : ℕ) : ℕ := s.holders object + s.inHand object

def deletes (s : RefPtrs) (object : ℕ) : ℕ := s.threads.countP fun f => f = .deleting object

def adoptions (s : RefPtrs) (object : ℕ) : ℕ := s.threads.countP fun f => f = .adopting object

/-- The count of an object is the number of its references. It is deleted once, by the operation
that has released the last one. -/
def Accounted (allocated : Prop) (refs deletes adoptions destroyed : ℕ) :
    Option RefCounted → Prop
  | none => refs = 0 ∧ deletes = 0 ∧ adoptions = 0 ∧ (allocated → destroyed = 1) ∧
      (¬ allocated → destroyed = 0)
  | some c => allocated ∧ c.refCount = refs ∧ destroyed = 0 ∧
      deletes = (if refs = 0 then 1 else 0) ∧ adoptions = (if c.adoptionRequired then 1 else 0) ∧
      (c.adoptionRequired = true → refs = 1) ∧ (c.destructionStarted = true ↔ refs = 0)

def Ledger (s : RefPtrs) : Prop :=
  ∀ object, Accounted (object < s.fresh) (s.refs object) (s.deletes object) (s.adoptions object)
    (s.destroyed.count object) (s.heap object)

section Counts

variable {s : RefPtrs} {i h object : ℕ} {f g : Frame} {p : Option ℕ}
  {x : Option (Option ℕ)}

theorem holders_put (hx : s.handles[h]? = some x) (p : Option ℕ) (object : ℕ) :
    (s.put h p).holders object + (if x = some (some object) then 1 else 0) =
      s.holders object + if p = some object then 1 else 0 := by
  have hcount := countP_set_add (refers object) hx (some p)
  simp only [refers, decide_eq_true_eq, Option.some.injEq] at hcount
  exact hcount

theorem holders_endLife (hx : s.handles[h]? = some x) (object : ℕ) :
    (s.endLife h).holders object + (if x = some (some object) then 1 else 0) =
      s.holders object := by
  have hcount := countP_set_add (refers object) hx none
  simp only [refers, decide_eq_true_eq, reduceCtorEq, if_false, Nat.add_zero] at hcount
  exact hcount

theorem holders_append (s : RefPtrs) (p : Option ℕ) (object : ℕ) :
    (s.append p).holders object = s.holders object + if p = some object then 1 else 0 := by
  simp only [holders, append, List.countP_append, List.countP_cons, List.countP_nil, Nat.zero_add,
    refers, decide_eq_true_eq, Option.some.injEq]

theorem inHand_goTo (hf : s.threads[i]? = some f) (g : Frame) (object : ℕ) :
    (s.goTo i g).inHand object + (if f.inHand = some object then 1 else 0) =
      s.inHand object + if g.inHand = some object then 1 else 0 := by
  have hcount := countP_set_add (holds object) hf g
  simp only [holds, decide_eq_true_eq] at hcount
  exact hcount

theorem deletes_goTo (hf : s.threads[i]? = some f) (g : Frame) (object : ℕ) :
    (s.goTo i g).deletes object + (if f = .deleting object then 1 else 0) =
      s.deletes object + if g = .deleting object then 1 else 0 := by
  have hcount := countP_set_add (fun f => decide (f = Frame.deleting object)) hf g
  simp only [decide_eq_true_eq] at hcount
  exact hcount

theorem adoptions_goTo (hf : s.threads[i]? = some f) (g : Frame) (object : ℕ) :
    (s.goTo i g).adoptions object + (if f = .adopting object then 1 else 0) =
      s.adoptions object + if g = .adopting object then 1 else 0 := by
  have hcount := countP_set_add (fun f => decide (f = Frame.adopting object)) hf g
  simp only [decide_eq_true_eq] at hcount
  exact hcount

theorem holders_pos (hx : s.handles[h]? = some (some (some object))) : 0 < s.holders object :=
  List.countP_pos_iff.mpr ⟨_, List.mem_of_getElem? hx, by simp [refers]⟩

theorem adoptions_le_inHand (s : RefPtrs) (object : ℕ) : s.adoptions object ≤ s.inHand object := by
  apply List.countP_mono_left
  intro f _ hf
  rw [of_decide_eq_true hf]
  simp [holds, Frame.inHand]

theorem adoptions_lt_inHand (hf : s.threads[i]? = some f) (hholds : f.inHand = some object)
    (hne : f ≠ .adopting object) : s.adoptions object < s.inHand object := by
  have hidle := inHand_goTo hf .idle object
  have hadopt := adoptions_goTo hf .idle object
  have hle := adoptions_le_inHand (s.goTo i .idle) object
  have hnone : Frame.idle.inHand ≠ some object := nofun
  rw [if_pos hholds, if_neg hnone] at hidle
  rw [if_neg hne, if_neg (by simp)] at hadopt
  omega

end Counts

section Accounts

variable {s t : RefPtrs} {i object : ℕ} {f g : Frame} {c : RefCounted}

theorem Ledger.congr (hl : s.Ledger) (hheap : t.heap = s.heap) (hfresh : t.fresh = s.fresh)
    (hdestroyed : t.destroyed = s.destroyed) (hrefs : ∀ o, t.refs o = s.refs o)
    (hdeletes : ∀ o, t.deletes o = s.deletes o) (hadoptions : ∀ o, t.adoptions o = s.adoptions o) :
    t.Ledger := by
  intro o
  rw [hheap, hfresh, hdestroyed, hrefs, hdeletes, hadoptions]
  exact hl o

theorem Ledger.checked (hl : s.Ledger) (h : s.adoptions object < s.refs object) :
    ∃ c, s.heap object = some c ∧ s.checked object = .ok c ∧ c.refCount = s.refs object ∧
      c.adoptionRequired = false := by
  have hacc := hl object
  cases hc : s.heap object with
  | none =>
    rw [hc] at hacc
    exact absurd hacc.1 (by omega)
  | some c =>
    rw [hc] at hacc
    obtain ⟨-, hcount, -, -, hadopt, hone, hdestruct⟩ := hacc
    have hfalse : c.adoptionRequired = false := by
      cases hreq : c.adoptionRequired with
      | false => rfl
      | true =>
        rw [if_pos hreq] at hadopt
        have hrefs := hone hreq
        omega
    have hstarted : ¬ c.destructionStarted = true := by
      rw [hdestruct]
      omega
    refine ⟨c, rfl, ?_, hcount, hfalse⟩
    simp only [RefPtrs.checked, hc, hfalse, Bool.false_eq_true, if_false, if_neg hstarted]

theorem Ledger.update (hl : s.Ledger) {cell : Option RefCounted}
    (hheap : t.heap = Function.update s.heap object cell)
    (hothers : ∀ o, o ≠ object → (o < t.fresh ↔ o < s.fresh) ∧ t.refs o = s.refs o ∧
      t.deletes o = s.deletes o ∧ t.adoptions o = s.adoptions o ∧
      t.destroyed.count o = s.destroyed.count o)
    (hacc : Accounted (object < t.fresh) (t.refs object) (t.deletes object) (t.adoptions object)
      (t.destroyed.count object) cell) : t.Ledger := by
  intro o
  by_cases ho : o = object
  · subst ho
    rw [hheap, Function.update_self]
    exact hacc
  · obtain ⟨hfresh, hrefs, hdeletes, hadoptions, hdestroyed⟩ := hothers o ho
    rw [hheap, Function.update_of_ne ho, hfresh, hrefs, hdeletes, hadoptions, hdestroyed]
    exact hl o

/-- The object of `p` has been counted once more in `s'`, for a reference yet to be stored. -/
structure Counted (s s' : RefPtrs) (p : Option ℕ) : Prop where
  handles : s'.handles = s.handles
  threads : s'.threads = s.threads
  fault : s'.fault = s.fault
  ledger : ∀ t : RefPtrs, t.heap = s'.heap → t.fresh = s'.fresh → t.destroyed = s'.destroyed →
    (∀ o, t.refs o = s.refs o + if p = some o then 1 else 0) →
    (∀ o, t.deletes o = s.deletes o) → (∀ o, t.adoptions o = s.adoptions o) → t.Ledger

theorem Ledger.counted (hl : s.Ledger) : Counted s s none :=
  ⟨rfl, rfl, rfl, fun _ => hl.congr⟩

theorem Ledger.addRef (hl : s.Ledger) (h : s.adoptions object < s.refs object) :
    ∃ s', s.addRef object = .ok s' ∧ Counted s s' (some object) := by
  obtain ⟨c, hc, hchecked, hcount, hfalse⟩ := hl.checked h
  refine ⟨s.store object { c with refCount := c.refCount + 1 }, ?_, rfl, rfl, rfl, ?_⟩
  · rw [RefPtrs.addRef, hchecked]
    rfl
  · intro t hheap hfresh hdestroyed hrefs hdeletes hadoptions
    apply hl.update hheap
    · intro o ho
      have hne : some object ≠ some o := fun heq => ho (Option.some.inj heq).symm
      rw [hfresh, hdestroyed, hrefs, if_neg hne, hdeletes, hadoptions]
      exact ⟨Iff.rfl, rfl, rfl, rfl, rfl⟩
    · have hacc := hl object
      rw [hc] at hacc
      obtain ⟨hlt, -, hdest, hdel, hadopt, -, hdestruct⟩ := hacc
      have hpos : s.refs object ≠ 0 := by omega
      rw [if_neg hpos] at hdel
      rw [hfresh, hdestroyed, hrefs, if_pos rfl, hdeletes, hadoptions]
      refine ⟨hlt, by rw [hcount], hdest, by rw [if_neg (Nat.succ_ne_zero _), hdel], hadopt, ?_, ?_⟩
      · intro hreq
        rw [hfalse] at hreq
        cases hreq
      · exact iff_of_false (fun hstarted => hpos (hdestruct.mp hstarted)) (Nat.succ_ne_zero _)

theorem Ledger.addRefIfSet (hl : s.Ledger) {p : Option ℕ}
    (h : ∀ object, p = some object → s.adoptions object < s.refs object) :
    ∃ s', s.addRefIfSet p = .ok s' ∧ Counted s s' p := by
  cases p with
  | none => exact ⟨s, rfl, hl.counted⟩
  | some object => exact hl.addRef (h object rfl)

theorem goTo_others (hf : s.threads[i]? = some f) {o : ℕ} (hin : f.inHand = some o ↔ g.inHand = some o)
    (hdel : f = .deleting o ↔ g = .deleting o) (hadopt : f = .adopting o ↔ g = .adopting o) :
    (s.goTo i g).inHand o = s.inHand o ∧ (s.goTo i g).deletes o = s.deletes o ∧
      (s.goTo i g).adoptions o = s.adoptions o := by
  have h1 := inHand_goTo hf g o
  have h2 := deletes_goTo hf g o
  have h3 := adoptions_goTo hf g o
  simp only [hin] at h1
  simp only [hdel] at h2
  simp only [hadopt] at h3
  omega

/-- The count goes down, and the operation goes on to delete the object if it was the last. -/
theorem Ledger.afterRelease (hl : s.Ledger) (hf : s.threads[i]? = some (.releasing object))
    (hc : s.heap object = some c) (hfalse : c.adoptionRequired = false) (hin : g.inHand = none)
    (hdeleting : ∀ o, g = .deleting o ↔ o = object ∧ c.refCount = 1)
    (hadopting : ∀ o, g ≠ .adopting o) :
    ((s.store object ⟨c.refCount - 1, c.adoptionRequired, c.refCount = 1⟩).goTo i g).Ledger := by
  have hin' := inHand_goTo hf g object
  have hdel' := deletes_goTo hf g object
  have hadopt' := adoptions_goTo hf g object
  have hne : Frame.releasing object ≠ .deleting object := nofun
  have hnone : ¬ g.inHand = some object := by
    rw [hin]
    nofun
  rw [if_pos (show (Frame.releasing object).inHand = some object from rfl), if_neg hnone] at hin'
  rw [if_neg hne] at hdel'
  rw [if_neg (by nofun), if_neg (hadopting object)] at hadopt'
  simp only [hdeleting, true_and] at hdel'
  have hacc := hl object
  rw [hc] at hacc
  obtain ⟨hfresh, hcount, hdest, hdel, hadopt, -, -⟩ := hacc
  unfold refs at hcount hdel
  rw [if_neg (by omega)] at hdel
  have hrefs : s.holders object + (s.goTo i g).inHand object = c.refCount - 1 := by omega
  have hlast : c.refCount = 1 ↔ s.holders object + (s.goTo i g).inHand object = 0 := by omega
  refine @Ledger.update s _ object hl _ rfl ?_ ?_
  · intro o ho
    have hother : object ≠ o := Ne.symm ho
    have hneither : (Frame.releasing object).inHand = some o ↔ g.inHand = some o := by
      rw [hin]
      exact iff_of_false (fun h => hother (Option.some.inj h)) nofun
    obtain ⟨hin, hdel, hadopt⟩ := goTo_others hf hneither (by simp [hdeleting, ho])
      (by simp [hadopting])
    exact ⟨Iff.rfl, congrArg (s.holders o + ·) hin, hdel, hadopt, rfl⟩
  · refine ⟨hfresh, hrefs.symm, hdest, ?_, ?_, ?_, ?_⟩
    · change (s.goTo i g).deletes object =
        if s.holders object + (s.goTo i g).inHand object = 0 then 1 else 0
      rw [← if_congr hlast rfl rfl]
      omega
    · exact hadopt'.trans hadopt
    · rw [hfalse]
      exact nofun
    · exact decide_eq_true_iff.trans hlast

theorem Ledger.release (hl : s.Ledger) (hf : s.threads[i]? = some (.releasing object)) :
    ∃ last s', s.release object = .ok (last, s') ∧ s'.handles = s.handles ∧
      s'.threads = s.threads ∧ s'.fault = s.fault ∧
      (s'.goTo i (if last then .deleting object else .idle)).Ledger := by
  have hlt := adoptions_lt_inHand hf rfl (by simp)
  have hrefs : s.adoptions object < s.refs object := by
    unfold refs
    omega
  obtain ⟨c, hc, hchecked, hcount, hfalse⟩ := hl.checked hrefs
  have hpos : c.refCount ≠ 0 := by omega
  refine ⟨c.refCount = 1, s.store object ⟨c.refCount - 1, c.adoptionRequired, c.refCount = 1⟩, ?_,
    rfl, rfl, rfl, ?_⟩
  · rw [RefPtrs.release, hchecked, Except.bind, if_neg hpos]
  · apply hl.afterRelease hf hc hfalse
    · split_ifs <;> rfl
    · intro o
      split_ifs with hone
      · simp [of_decide_eq_true hone, eq_comm]
      · have hone : ¬ c.refCount = 1 := fun h => hone (decide_eq_true h)
        simp [hone]
    · intro o
      split_ifs <;> nofun

theorem Ledger.delete (hl : s.Ledger) (hf : s.threads[i]? = some (.deleting object)) :
    ∃ s', s.delete object = .ok s' ∧ s'.handles = s.handles ∧ s'.threads = s.threads ∧
      s'.fault = s.fault ∧ (s'.goTo i .idle).Ledger := by
  have hin := inHand_goTo hf .idle object
  have hdel := deletes_goTo hf .idle object
  have hadopt := adoptions_goTo hf .idle object
  simp only [Frame.inHand, if_true, reduceCtorEq, if_false] at hin hdel hadopt
  have hacc := hl object
  cases hc : s.heap object with
  | none =>
    rw [hc] at hacc
    exact absurd hacc.2.1 (by omega)
  | some c =>
    rw [hc] at hacc
    obtain ⟨hfresh, -, hdest, hdeletes, hadoptions, hreq, hstarted⟩ := hacc
    have hrefs : s.refs object = 0 := by
      by_contra hne
      rw [if_neg hne] at hdeletes
      omega
    have hfalse : c.adoptionRequired = false := by
      cases h : c.adoptionRequired with
      | false => rfl
      | true => exact absurd (hreq h) (by omega)
    rw [if_pos hrefs] at hdeletes
    rw [hfalse] at hadoptions
    refine ⟨{ s with
      heap := Function.update s.heap object none
      destroyed := s.destroyed ++ [object] }, ?_, rfl, rfl, rfl, ?_⟩
    · simp only [RefPtrs.delete, hc, hfalse, Bool.false_eq_true, if_false, if_pos (hstarted.mpr hrefs)]
    · refine @Ledger.update s _ object hl _ rfl ?_ ?_
      · intro o ho
        have hne : object ≠ o := Ne.symm ho
        obtain ⟨hin, hdel, hadopt⟩ := goTo_others (o := o) (g := .idle) hf
          (by simp [Frame.inHand]) (by simp [hne]) (by simp)
        refine ⟨Iff.rfl, congrArg (s.holders o + ·) hin, hdel, hadopt, ?_⟩
        simp only [goTo, List.count_append, List.count_singleton, beq_iff_eq, if_neg hne,
          Nat.add_zero]
      · refine ⟨?_, ?_, ?_, fun _ => ?_, fun hnot => absurd hfresh hnot⟩
        · unfold refs at hrefs
          exact (congrArg (s.holders object + ·) hin).trans hrefs
        · exact Nat.succ.inj (hdel.trans hdeletes)
        · exact hadopt.trans hadoptions
        · simp only [goTo, List.count_append, List.count_singleton_self, hdest]

theorem Ledger.allocate (hl : s.Ledger) (hf : s.threads[i]? = some .idle) :
    (s.allocate.goTo i (.adopting s.fresh)).Ledger := by
  have hin := inHand_goTo hf (.adopting s.fresh) s.fresh
  have hdel := deletes_goTo hf (.adopting s.fresh) s.fresh
  have hadopt := adoptions_goTo hf (.adopting s.fresh) s.fresh
  simp only [Frame.inHand, if_true, reduceCtorEq, if_false] at hin hdel hadopt
  have hacc := hl s.fresh
  cases hc : s.heap s.fresh with
  | some c =>
    rw [hc] at hacc
    exact absurd hacc.1 (Nat.lt_irrefl _)
  | none =>
    rw [hc] at hacc
    obtain ⟨hrefs, hdeletes, hadoptions, -, hdest⟩ := hacc
    unfold refs at hrefs
    have hone : s.holders s.fresh + (s.goTo i (.adopting s.fresh)).inHand s.fresh = 1 := by omega
    refine @Ledger.update s _ s.fresh hl _ rfl ?_ ?_
    · intro o ho
      have hne : s.fresh ≠ o := Ne.symm ho
      obtain ⟨hin, hdel, hadopt⟩ := goTo_others (o := o) (g := .adopting s.fresh) hf
        (by simp [Frame.inHand, hne]) (by simp) (by simp [hne])
      refine ⟨?_, congrArg (s.holders o + ·) hin, hdel, hadopt, rfl⟩
      change o < s.fresh + 1 ↔ o < s.fresh
      omega
    · refine ⟨Nat.lt_succ_self _, hone.symm, hdest (Nat.lt_irrefl _), ?_, ?_, fun _ => hone, ?_⟩
      · have hne : ¬ s.holders s.fresh + (s.goTo i (.adopting s.fresh)).inHand s.fresh = 0 := by
          omega
        exact (hdel.trans hdeletes).trans (if_neg hne).symm
      · exact hadopt.trans (by rw [hadoptions]; rfl)
      · exact iff_of_false nofun fun hzero => absurd (hone.symm.trans hzero) Nat.one_ne_zero

theorem Ledger.adopt (hl : s.Ledger) (hf : s.threads[i]? = some (.adopting object)) :
    ∃ s', s.adopt object = .ok s' ∧ s'.handles = s.handles ∧ s'.threads = s.threads ∧
      s'.fault = s.fault ∧ ((s'.append (some object)).goTo i .idle).Ledger := by
  have hin := inHand_goTo hf .idle object
  have hdel := deletes_goTo hf .idle object
  have hadopt := adoptions_goTo hf .idle object
  simp only [Frame.inHand, if_true, reduceCtorEq, if_false] at hin hdel hadopt
  have hacc := hl object
  cases hc : s.heap object with
  | none =>
    rw [hc] at hacc
    exact absurd hacc.2.2.1 (by omega)
  | some c =>
    rw [hc] at hacc
    obtain ⟨hfresh, hcount, hdest, hdeletes, hadoptions, hreq, hstarted⟩ := hacc
    have htrue : c.adoptionRequired = true := by
      cases h : c.adoptionRequired with
      | true => rfl
      | false =>
        rw [h] at hadoptions
        exact absurd hadoptions (by simp; omega)
    have hone := hreq htrue
    rw [if_neg (by omega)] at hdeletes
    rw [if_pos htrue] at hadoptions
    refine ⟨s.store object { c with adoptionRequired := false }, ?_, rfl, rfl, rfl, ?_⟩
    · simp only [RefPtrs.adopt, hc, if_pos htrue]
    · have hholders := holders_append s (some object) object
      rw [if_pos rfl] at hholders
      have hrefs : (s.append (some object)).holders object + (s.goTo i .idle).inHand object = 1 := by
        unfold refs at hone
        omega
      have hne : ¬ (s.append (some object)).holders object + (s.goTo i .idle).inHand object = 0 := by
        omega
      refine @Ledger.update s _ object hl _ rfl ?_ ?_
      · intro o ho
        have hne : object ≠ o := Ne.symm ho
        obtain ⟨hin, hdel, hadopt⟩ := goTo_others (o := o) (g := .idle) hf
          (by simp [Frame.inHand, hne]) (by simp) (by simp [hne])
        have hholders := holders_append s (some object) o
        rw [if_neg (fun h => hne (Option.some.inj h)), Nat.add_zero] at hholders
        exact ⟨Iff.rfl, congrArg₂ (· + ·) hholders hin, hdel, hadopt, rfl⟩
      · refine ⟨hfresh, hcount.trans (hone.trans hrefs.symm), hdest, ?_, ?_, nofun, ?_⟩
        · exact (hdel.trans hdeletes).trans (if_neg hne).symm
        · exact Nat.succ.inj (hadopt.trans hadoptions)
        · exact iff_of_false (fun h => absurd (hstarted.mp h) (by omega)) hne

end Accounts

end EnvironmentCheck.RefPtrs
