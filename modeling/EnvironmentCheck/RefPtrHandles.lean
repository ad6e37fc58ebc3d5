import EnvironmentCheck.RefPtrRuns

namespace EnvironmentCheck.RefPtrs

/-- What a call makes of the handles, and of the operation that it is. -/
inductive Began (s : RefPtrs) : RefPtrCall → (ℕ → Option (Option ℕ)) → Frame → Prop
  | makeRefCounted : Began s .makeRefCounted s.ptr (.adopting s.fresh)
  | construct {p : Option ℕ} : Began s (.construct p) (Function.update s.ptr s.handles.length (some p)) .idle
  | copyConstruct {r : ℕ} {p : Option ℕ} : s.free r = some p →
    Began s (.copyConstruct r) (Function.update s.ptr s.handles.length (some p)) .idle
  | moveConstruct {r : ℕ} {p : Option ℕ} : s.free r = some p → Began s (.moveConstruct r)
      (Function.update (Function.update s.ptr s.handles.length (some p)) r (some none)) .idle
  | sameAssign {this r : ℕ} {p : Option ℕ} : s.free this = some p → s.free r = some p →
    Began s (.copyAssign this r) s.ptr .idle
  | copyAssign {this r : ℕ} {old p : Option ℕ} : s.free this = some old → s.free r = some p →
    Began s (.copyAssign this r) s.ptr (.assigning this r p)
  | sameConvert {this r : ℕ} {p : Option ℕ} {sameAddress : Bool} : s.free this = some p → s.free r = some p →
    Began s (.convertAssign this r sameAddress) s.ptr .idle
  | convertAssign {this r : ℕ} {old p : Option ℕ} {sameAddress : Bool} : s.free this = some old →
    s.free r = some p → Began s (.convertAssign this r sameAddress) s.ptr (.assigning this r p)
  | moveAssign {this r : ℕ} {old p : Option ℕ} : s.free this = some old → s.free r = some p →
    Began s (.moveAssign this r) (Function.update s.ptr r (some none)) (.swapping this p)
  | assignNull {this : ℕ} {old : Option ℕ} : s.free this = some old →
    Began s (.assignNull this) s.ptr (.swapping this none)
  | swap {this r : ℕ} {p q : Option ℕ} : s.free this = some p → s.free r = some q →
    Began s (.swap this r) (Function.update (Function.update s.ptr this (some q)) r (some p)) .idle
  | destruct {this : ℕ} {p : Option ℕ} : s.free this = some p →
    Began s (.destruct this) (Function.update s.ptr this none) (thenRelease p)

/-- What an operation makes of the handles when it goes on, and where it goes. -/
inductive Resumed (s : RefPtrs) : Frame → (ℕ → Option (Option ℕ)) → Frame → Prop
  | adopting {object : ℕ} : Resumed s (.adopting object)
      (Function.update s.ptr s.handles.length (some (some object))) .idle
  | assigning {this r : ℕ} {taken old : Option ℕ} : s.ptr this = some old →
    Resumed s (.assigning this r taken) (Function.update s.ptr this (some taken)) (thenRelease old)
  | swapping {this : ℕ} {temp old : Option ℕ} : s.ptr this = some old →
    Resumed s (.swapping this temp) (Function.update s.ptr this (some temp)) (thenRelease old)
  | releasing {object : ℕ} (last : Bool) :
    Resumed s (.releasing object) s.ptr (if last then .deleting object else .idle)
  | deleting {object : ℕ} : Resumed s (.deleting object) s.ptr .idle

variable {s s' t : RefPtrs} {i h r this : ℕ} {p q old : Option ℕ} {call : RefPtrCall} {f g : Frame}

theorem ptr_congr (h : t.handles = s.handles) : t.ptr = s.ptr := by
  funext k
  rw [ptr, ptr, h]

theorem ptr_goTo (s : RefPtrs) (i : ℕ) (g : Frame) : (s.goTo i g).ptr = s.ptr := rfl

theorem ptr_append (s : RefPtrs) (p : Option ℕ) :
    (s.append p).ptr = Function.update s.ptr s.handles.length (some p) := by
  funext k
  rw [ptr, RefPtrs.append, Function.update_apply]
  split_ifs with hk
  · rw [hk, List.getElem?_concat_length]
    rfl
  · rw [ptr]
    congr 1
    obtain hlt | hgt := lt_or_gt_of_ne hk
    · exact List.getElem?_append_left hlt
    · rw [List.getElem?_eq_none, List.getElem?_eq_none hgt.le]
      rw [List.length_append, List.length_singleton]
      exact hgt

theorem ptr_set (hp : s.ptr this = some old) {x : Option (Option ℕ)} (ht : t.handles = s.handles.set this x) :
    t.ptr = Function.update s.ptr this x := by
  have hlt : this < s.handles.length := (List.getElem?_eq_some_iff.mp (ptr_eq_some.mp hp)).1
  funext k
  rw [ptr, ht, Function.update_apply]
  split_ifs with hk
  · rw [hk, List.getElem?_set_self hlt]
    rfl
  · rw [List.getElem?_set_ne (Ne.symm hk), ptr]

theorem ptr_of_free (h : s.free r = some p) : s.ptr r = some p := ptr_eq_some.mpr (free_eq_some.mp h).2

theorem ptr_put (hp : s.ptr this = some old) (q : Option ℕ) :
    (s.put this q).ptr = Function.update s.ptr this (some q) := ptr_set hp rfl

theorem addRefIfSet_eq (hl : s.Ledger) {result : Except RefPtrFault RefPtrs} {k : RefPtrs → RefPtrs}
    (hp : ∀ object, p = some object → s.adoptions object < s.refs object)
    (hresult : (s.addRefIfSet p).map k = result) :
    ∃ s' : RefPtrs, result = .ok (k s') ∧ s'.handles = s.handles ∧ s'.threads = s.threads := by
  obtain ⟨s', hs', hc⟩ := hl.addRefIfSet hp
  rw [hs'] at hresult
  exact ⟨s', hresult.symm, hc.handles, hc.threads⟩

theorem begin_cases (hl : s.Ledger) (hf : s.threads[i]? = some .idle) {result : Except RefPtrFault RefPtrs}
    (h : s.begin i call = some result) :
    ∃ t frame, result = .ok t ∧ Began s call t.ptr frame ∧ t.threads = s.threads.set i frame := by
  have hidle : s.threads.set i .idle = s.threads := by
    obtain ⟨hlt, hget⟩ := List.getElem?_eq_some_iff.mp hf
    rw [← hget, List.set_getElem_self]
  cases call with
  | makeRefCounted =>
    cases h
    exact ⟨_, _, rfl, .makeRefCounted, rfl⟩
  | construct p =>
    obtain ⟨hraw, hresult⟩ := Option.ite_none_right_eq_some.mp h
    obtain ⟨s', rfl, hhandles, hthreads⟩ := addRefIfSet_eq hl (lt_refs_of_raw hl hraw) (Option.some.inj hresult)
    refine ⟨s'.append p, .idle, rfl, ?_, hthreads.trans hidle.symm⟩
    rw [ptr_append, ptr_congr hhandles, hhandles]
    exact .construct
  | copyConstruct r =>
    obtain ⟨p, hp, hresult⟩ := Option.map_eq_some_iff.mp h
    obtain ⟨s', rfl, hhandles, hthreads⟩ :=
      addRefIfSet_eq hl (lt_refs_of_handle (free_eq_some.mp hp).2) hresult
    refine ⟨s'.append p, .idle, rfl, ?_, hthreads.trans hidle.symm⟩
    rw [ptr_append, ptr_congr hhandles, hhandles]
    exact .copyConstruct hp
  | moveConstruct r =>
    obtain ⟨p, hp, rfl⟩ := Option.map_eq_some_iff.mp h
    refine ⟨_, .idle, rfl, ?_, hidle.symm⟩
    have hlt : r < s.handles.length := (List.getElem?_eq_some_iff.mp (free_eq_some.mp hp).2).1
    have hr : (s.append p).ptr r = some p := by
      rw [ptr_append, Function.update_of_ne hlt.ne, ptr_of_free hp]
    rw [ptr_put hr, ptr_append]
    exact .moveConstruct hp
  | copyAssign this r =>
    obtain ⟨old, hthis, h⟩ := Option.bind_eq_some_iff.mp h
    obtain ⟨p, hp, hresult⟩ := Option.map_eq_some_iff.mp h
    split_ifs at hresult with hsame
    · subst hsame
      exact ⟨s, .idle, hresult.symm, .sameAssign hthis hp, hidle.symm⟩
    · obtain ⟨s', rfl, hhandles, hthreads⟩ :=
        addRefIfSet_eq hl (lt_refs_of_handle (free_eq_some.mp hp).2) hresult
      refine ⟨_, .assigning this r p, rfl, ?_, congrArg (List.set · i _) hthreads⟩
      rw [ptr_goTo, ptr_congr hhandles]
      exact .copyAssign hthis hp
  | convertAssign this r sameAddress =>
    obtain ⟨old, hthis, h⟩ := Option.bind_eq_some_iff.mp h
    obtain ⟨p, hp, hresult⟩ := Option.map_eq_some_iff.mp h
    split_ifs at hresult with hsame
    · obtain rfl := hsame.1
      exact ⟨s, .idle, hresult.symm, .sameConvert hthis hp, hidle.symm⟩
    · obtain ⟨s', rfl, hhandles, hthreads⟩ :=
        addRefIfSet_eq hl (lt_refs_of_handle (free_eq_some.mp hp).2) hresult
      refine ⟨_, .assigning this r p, rfl, ?_, congrArg (List.set · i _) hthreads⟩
      rw [ptr_goTo, ptr_congr hhandles]
      exact .convertAssign hthis hp
  | moveAssign this r =>
    obtain ⟨old, hthis, h⟩ := Option.bind_eq_some_iff.mp h
    obtain ⟨p, hp, rfl⟩ := Option.map_eq_some_iff.mp h
    refine ⟨_, .swapping this p, rfl, ?_, rfl⟩
    rw [ptr_goTo, ptr_put (ptr_of_free hp)]
    exact .moveAssign hthis hp
  | assignNull this =>
    obtain ⟨old, hthis, rfl⟩ := Option.map_eq_some_iff.mp h
    exact ⟨_, .swapping this none, rfl, .assignNull hthis, rfl⟩
  | swap this r =>
    obtain ⟨p, hp, h⟩ := Option.bind_eq_some_iff.mp h
    obtain ⟨q, hq, rfl⟩ := Option.map_eq_some_iff.mp h
    refine ⟨_, .idle, rfl, ?_, hidle.symm⟩
    have hr : ∃ x, (s.put this q).ptr r = some x := by
      rw [ptr_put (ptr_of_free hp), Function.update_apply]
      split_ifs
      · exact ⟨q, rfl⟩
      · exact ⟨q, ptr_of_free hq⟩
    obtain ⟨x, hx⟩ := hr
    rw [ptr_put hx, ptr_put (ptr_of_free hp)]
    exact .swap hp hq
  | destruct this =>
    obtain ⟨p, hp, rfl⟩ := Option.map_eq_some_iff.mp h
    refine ⟨_, thenRelease p, rfl, ?_, rfl⟩
    rw [ptr_goTo, ptr_set (ptr_of_free hp) (show (s.endLife this).handles = _ from rfl)]
    exact .destruct hp

theorem resume_cases (hl : s.Ledger) (hr : s.Reserved) (hf : s.threads[i]? = some f)
    {result : Except RefPtrFault RefPtrs} (h : s.resume i f = some result) :
    ∃ t frame, result = .ok t ∧ Resumed s f t.ptr frame ∧ t.threads = s.threads.set i frame := by
  cases f with
  | idle => cases h
  | adopting object =>
    cases h
    obtain ⟨s', hs', hhandles, hthreads, -, -⟩ := hl.adopt hf
    refine ⟨(s'.append (some object)).goTo i .idle, .idle, by rw [hs']; rfl, ?_,
      congrArg (List.set · i _) hthreads⟩
    rw [ptr_goTo, ptr_append, ptr_congr hhandles, hhandles]
    exact .adopting
  | assigning this r taken =>
    obtain ⟨old, hold, h⟩ := Option.bind_eq_some_iff.mp h
    obtain ⟨p, hp, rfl⟩ := Option.map_eq_some_iff.mp h
    obtain rfl : p = taken := by
      have hget := ptr_eq_some.mp hp
      rw [hr.taken i this r taken hf] at hget
      simpa using hget.symm
    refine ⟨_, thenRelease old, rfl, ?_, rfl⟩
    rw [ptr_goTo, ptr_put hold]
    exact .assigning hold
  | swapping this temp =>
    obtain ⟨old, hold, rfl⟩ := Option.map_eq_some_iff.mp h
    refine ⟨_, thenRelease old, rfl, ?_, rfl⟩
    rw [ptr_goTo, ptr_put hold]
    exact .swapping hold
  | releasing object =>
    cases h
    obtain ⟨last, s', hs', hhandles, hthreads, -, -⟩ := hl.release hf
    refine ⟨s'.goTo i (if last then .deleting object else .idle), _, by rw [hs']; rfl, ?_,
      congrArg (List.set · i _) hthreads⟩
    rw [ptr_goTo, ptr_congr hhandles]
    exact .releasing last
  | deleting object =>
    cases h
    obtain ⟨s', hs', hhandles, hthreads, -, -⟩ := hl.delete hf
    refine ⟨s'.goTo i .idle, .idle, by rw [hs']; rfl, ?_, congrArg (List.set · i _) hthreads⟩
    rw [ptr_goTo, ptr_congr hhandles]
    exact .deleting

theorem next_begin (hl : s.Ledger) (h : s.next (.begin i call) = some t) :
    s.threads[i]? = some .idle ∧ ∃ frame, Began s call t.ptr frame ∧ t.threads = s.threads.set i frame := by
  obtain ⟨-, h⟩ := Option.ite_none_right_eq_some.mp h
  obtain ⟨result, hresult, rfl⟩ := Option.map_eq_some_iff.mp h
  obtain ⟨hf, hbegin⟩ := Option.ite_none_right_eq_some.mp hresult
  obtain ⟨t, frame, rfl, hbegan, hthreads⟩ := begin_cases hl hf hbegin
  exact ⟨hf, frame, hbegan, hthreads⟩

theorem next_resume (hl : s.Ledger) (hr : s.Reserved) (h : s.next (.resume i) = some t) :
    ∃ f frame, s.threads[i]? = some f ∧ Resumed s f t.ptr frame ∧ t.threads = s.threads.set i frame := by
  obtain ⟨-, h⟩ := Option.ite_none_right_eq_some.mp h
  obtain ⟨result, hresult, rfl⟩ := Option.map_eq_some_iff.mp h
  obtain ⟨f, hf, hresume⟩ := Option.bind_eq_some_iff.mp hresult
  obtain ⟨t, frame, rfl, hresumed, hthreads⟩ := resume_cases hl hr hf hresume
  exact ⟨f, frame, hf, hresumed, hthreads⟩

end EnvironmentCheck.RefPtrs
