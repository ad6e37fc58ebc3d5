import EnvironmentCheck.ScopedRefLedger

namespace EnvironmentCheck.ScopedRefs

open Transition Faulting

structure Inv (s : ScopedRefs) : Prop where
  balanced : s.jni.Balanced s.held
  attached : ∀ h, some h ∈ s.handles → h.Attached s.jni.env

/-- The references of all handles but one. -/
def without (s : ScopedRefs) (i : ℕ) : List (RefKind × ℕ) := (s.handles.set i none).flatMap heldBy

def Kept (s : ScopedRefs) (result : Except JniRefFault ScopedRefs) : Prop :=
  ∃ t, result = .ok t ∧ t.Inv ∧ t.fault = s.fault

section Handles

variable {s : ScopedRefs} {i j r : ℕ} {h h' : JavaHandle} {env obj : Option ℕ}
  {x : ScopedJni JavaHandle} {kind : RefKind}

theorem handle_eq_some : s.handle i = some h ↔ s.handles[i]? = some (some h) := by
  rw [handle, Option.join_eq_some_iff]

theorem localRef_eq_some (hs : s.localRef i = some (env, obj)) :
    s.handle i = some (.localRef env obj) := by
  obtain ⟨h, hh, hs⟩ := Option.bind_eq_some_iff.mp hs
  cases h with
  | localRef env' obj' =>
    cases hs
    exact hh
  | globalRef obj' => cases hs
  | weakGlobalRef obj' => cases hs

theorem globalRef_eq_some (hs : s.globalRef i = some obj) : s.handle i = some (.globalRef obj) := by
  obtain ⟨h, hh, hs⟩ := Option.bind_eq_some_iff.mp hs
  cases h with
  | localRef env' obj' => cases hs
  | globalRef obj' =>
    cases hs
    exact hh
  | weakGlobalRef obj' => cases hs

theorem weakGlobalRef_eq_some (hs : s.weakGlobalRef i = some obj) :
    s.handle i = some (.weakGlobalRef obj) := by
  obtain ⟨h, hh, hs⟩ := Option.bind_eq_some_iff.mp hs
  cases h with
  | localRef env' obj' => cases hs
  | globalRef obj' => cases hs
  | weakGlobalRef obj' =>
    cases hs
    exact hh

theorem javaRef_eq_some (hs : s.javaRef i = some obj) : ∃ h, s.handle i = some h ∧ h.obj = obj := by
  obtain ⟨h, hh, hs⟩ := Option.bind_eq_some_iff.mp hs
  refine ⟨h, hh, ?_⟩
  cases h with
  | localRef env' obj' =>
    cases hs
    rfl
  | globalRef obj' =>
    cases hs
    rfl
  | weakGlobalRef obj' => cases hs

theorem held_perm (hh : s.handle i = some h) : s.held.Perm (h.held ++ s.without i) := by
  obtain ⟨hlt, heq⟩ := List.getElem?_eq_some_iff.mp (handle_eq_some.mp hh)
  have hset := @flatMap_set_perm (Option JavaHandle) (RefKind × ℕ) heldBy s.handles i hlt (some h) none rfl
  rw [← heq, List.set_getElem_self, heq] at hset
  exact hset

theorem Inv.balanced_without (hi : s.Inv) (hh : s.handle i = some h) :
    s.jni.Balanced (h.held ++ s.without i) :=
  hi.balanced.perm (held_perm hh)

theorem Inv.attached_handle (hi : s.Inv) (hh : s.handle i = some h) : h.Attached s.jni.env :=
  hi.attached h (List.mem_of_getElem? (handle_eq_some.mp hh))

theorem mem_held (hh : s.handle i = some h) (hr : r ∈ h.obj) : (h.kind, r) ∈ s.held := by
  rw [(held_perm hh).mem_iff]
  apply List.mem_append_left
  rw [JavaHandle.held, hr]
  exact List.mem_cons_self

theorem Inv.live (hi : s.Inv) (hh : s.handle i = some h) (r : ℕ) (hr : r ∈ h.obj) : s.jni.Live r :=
  hi.balanced.live_of_mem (mem_held hh hr)

theorem Inv.live_javaRef (hi : s.Inv) (hs : s.javaRef i = some obj) (r : ℕ) (hr : r ∈ obj) :
    s.jni.Live r := by
  obtain ⟨h, hh, rfl⟩ := javaRef_eq_some hs
  exact hi.live hh r hr

/-- The environment that a `ScopedJavaLocalRef` hands to `SetNewLocalRef`. -/
theorem Inv.env_localRef (hi : s.Inv) (hs : s.localRef i = some (env, obj)) :
    env = none ∨ env = some s.jni.env := by
  obtain henv | ⟨henv, -⟩ := hi.attached_handle (localRef_eq_some hs)
  · exact .inr henv
  · exact .inl henv

theorem handle_set_ne (hne : j ≠ i) (hh : s.handle j = some h) (z : Option JavaHandle) :
    handle { s with handles := s.handles.set i z } j = some h := by
  rw [handle_eq_some] at hh ⊢
  rw [List.getElem?_set_ne hne.symm, hh]

theorem Inv.of_set (hi : s.Inv) (hh : s.handle i = some h) {jni : JniThread} (z : Option JavaHandle)
    (henv : jni.env = s.jni.env) (hb : jni.Balanced (heldBy z ++ s.without i))
    (hz : ∀ h' ∈ z, h'.Attached s.jni.env) :
    Inv { s with jni, handles := s.handles.set i z } := by
  have hlt := (List.getElem?_eq_some_iff.mp (handle_eq_some.mp hh)).1
  constructor
  · exact hb.perm (flatMap_set_perm heldBy hlt z rfl).symm
  · intro h' hmem
    change h'.Attached jni.env
    rw [henv]
    obtain hmem | heq := List.mem_or_eq_of_mem_set hmem
    · exact hi.attached h' hmem
    · exact hz h' heq.symm

theorem Inv.append (hi : s.Inv) {jni : JniThread} (henv : jni.env = s.jni.env)
    (hb : jni.Balanced (h.held ++ s.held)) (hattached : h.Attached s.jni.env) :
    Inv { s with jni, handles := s.handles ++ [some h] } := by
  constructor
  · apply hb.perm
    change (h.held ++ s.held).Perm ((s.handles ++ [some h]).flatMap heldBy)
    rw [List.flatMap_append, List.flatMap_singleton]
    exact List.perm_append_comm
  · intro h' hmem
    change h'.Attached jni.env
    rw [henv]
    obtain hmem | hmem := List.mem_append.mp hmem
    · exact hi.attached h' hmem
    · cases List.mem_singleton.mp hmem
      exact hattached

theorem construct_kept (hi : s.Inv) (hx : Yields s.held x s.jni) : Kept s (s.construct x) := by
  obtain ⟨h, jni, hrun, hb, henv, hattached⟩ := hx
  refine ⟨{ s with jni, handles := s.handles ++ [some h] }, ?_, hi.append henv hb hattached, rfl⟩
  rw [construct, hrun]
  rfl

theorem replace_kept (hi : s.Inv) (hh : s.handle i = some h) (hx : Yields (s.without i) x s.jni) :
    Kept s (s.replace i x) := by
  obtain ⟨h', jni, hrun, hb, henv, hattached⟩ := hx
  refine ⟨{ s with jni, handles := s.handles.set i (some h') }, ?_, ?_, rfl⟩
  · rw [replace, hrun]
    rfl
  · apply hi.of_set hh (some h') henv hb
    rintro _ ⟨⟩
    exact hattached

theorem destroy_kept (hi : s.Inv) (hh : s.handle i = some h) (hx : Clears (s.without i) x s.jni) :
    Kept s (s.destroy i x) := by
  obtain ⟨h', jni, hrun, -, hb, henv, -⟩ := hx
  refine ⟨{ s with jni, handles := s.handles.set i none }, ?_, ?_, rfl⟩
  · rw [destroy, hrun]
    rfl
  · exact hi.of_set hh none henv hb nofun

theorem release_kept (hi : s.Inv) (hh : s.handle i = some h) (hnull : h'.held = [])
    (hattached : h'.Attached s.jni.env) : Kept s (.ok (s.release i h.kind h.obj h')) := by
  refine ⟨_, rfl, ?_, rfl⟩
  have hb := hi.balanced_without hh
  apply hi.of_set hh (some h')
  · cases h.obj <;> rfl
  · change JniThread.Balanced (h'.held ++ s.without i) _
    rw [hnull, List.nil_append]
    rw [JavaHandle.held] at hb
    cases hobj : h.obj with
    | none =>
      rw [hobj] at hb
      exact hb
    | some r =>
      rw [hobj] at hb
      obtain ⟨-, hnodup⟩ := List.nodup_cons.mp hb.alone
      refine ⟨fun x => ?_, fun x hx => hb.live x (List.mem_cons_of_mem _ hx), hnodup, hb.dead, hb.once⟩
      have hcount := hb.count x
      simp only [Option.map_some, Option.toList_some, List.count_append] at hcount
      simp only [Option.elim_some, JniThread.release, List.count_append]
      omega
  · rintro _ ⟨⟩
    exact hattached

end Handles

section Steps

variable {s t : ScopedRefs} {i : ℕ} {c : JavaRefCall} {step : JavaRefStep}
  {result : Except JniRefFault ScopedRefs}

theorem localReset_kept (hi : s.Inv) {this : ℕ} {env old env' obj : Option ℕ}
    (hs : s.localRef this = some (env, old)) (henv : env' = none ∨ env' = some s.jni.env)
    (hobj : ∀ r ∈ obj, s.jni.Live r) :
    Kept s (s.replace this (ScopedJavaLocalRef.resetObj old env' obj)) := by
  have hh := localRef_eq_some hs
  apply replace_kept hi hh
  exact localResetObj_ok (hi.balanced_without hh) henv hobj

theorem globalReset_kept (hi : s.Inv) {this : ℕ} {old env obj : Option ℕ}
    (hs : s.globalRef this = some old) (henv : env = none ∨ env = some s.jni.env)
    (hobj : ∀ r ∈ obj, s.jni.Live r) :
    Kept s (s.replace this (ScopedJavaGlobalRef.resetObj old env obj)) := by
  have hh := globalRef_eq_some hs
  apply replace_kept hi hh
  exact globalResetObj_ok (hi.balanced_without hh) henv hobj

theorem globalNew_kept (hi : s.Inv) {env obj : Option ℕ} (henv : env = none ∨ env = some s.jni.env)
    (hobj : ∀ r ∈ obj, s.jni.Live r) :
    Kept s (s.construct (ScopedJavaGlobalRef.resetObj none env obj)) :=
  construct_kept hi (globalResetObj_ok hi.balanced henv hobj)

theorem weakAssign_kept (hi : s.Inv) {this other : ℕ} {old obj : Option ℕ}
    (hs : s.weakGlobalRef this = some old) (ho : s.weakGlobalRef other = some obj)
    (hne : other ≠ this) : Kept s (s.replace this (JavaObjectWeakGlobalRef.assign old obj)) := by
  have hh := weakGlobalRef_eq_some hs
  apply replace_kept hi hh
  apply weakAssign_ok (hi.balanced_without hh)
  intro r hr
  exact mem_held (handle_set_ne hne (weakGlobalRef_eq_some ho) none) hr

theorem localAdopt_kept (hi : s.Inv) {env obj : Option ℕ} (hok : s.AdoptOk env obj) :
    Kept s ({ s with jni := obj.elim s.jni s.jni.adopt }.construct
      (ScopedJavaLocalRef.adopt env obj)) := by
  obtain ⟨henv, hobj⟩ := hok
  cases obj with
  | none =>
    apply construct_kept hi
    apply localAdopt_ok hi.balanced
    exact henv.symm.imp_right fun hnone => ⟨hnone, rfl⟩
  | some r =>
    obtain ⟨hcurrent, hnot, ref, href, hlive, hkind⟩ := hobj r rfl
    have hb := hi.balanced
    have hadopted : (s.jni.adopt r).Balanced ((.localRef, r) :: s.held) := by
      refine ⟨fun x => ?_, fun x hx => ?_, List.nodup_cons.mpr ⟨hnot, hb.alone⟩, hb.dead, hb.once⟩
      · have hcount := hb.count x
        rw [List.count_cons]
        simp only [JniThread.adopt, List.count_append, List.count_singleton]
        omega
      · obtain rfl | hx := List.mem_cons.mp hx
        · exact ⟨ref, href, hlive, hkind⟩
        · exact hb.live x hx
    have hyields : Yields s.held (ScopedJavaLocalRef.adopt env (some r)) (s.jni.adopt r) := by
      apply localAdopt_ok hadopted
      exact .inl hcurrent
    obtain ⟨h, jni, hrun, hb', henv', hattached⟩ := hyields
    refine ⟨{ s with jni, handles := s.handles ++ [some h] }, ?_, hi.append henv' hb' hattached, rfl⟩
    change ((ScopedJavaLocalRef.adopt env (some r)) (s.jni.adopt r)).map _ = _
    rw [hrun]
    rfl

theorem call_kept (hi : s.Inv) (h : s.call c = some result) : Kept s result := by
  cases c with
  | localDefault =>
    cases h
    exact construct_kept hi (yields_pure hi.balanced (.inr ⟨rfl, rfl⟩))
  | localCopy other =>
    obtain ⟨⟨env, obj⟩, ho, rfl⟩ := Option.map_eq_some_iff.mp h
    have hh := localRef_eq_some ho
    exact construct_kept hi (localCopy_ok hi.balanced (hi.attached_handle hh) (hi.live hh))
  | localFrom other =>
    obtain ⟨obj, ho, rfl⟩ := Option.map_eq_some_iff.mp h
    exact construct_kept hi (localResetObj_ok hi.balanced (.inl rfl) (hi.live_javaRef ho))
  | localAdopt env obj =>
    obtain ⟨hok, h⟩ := Option.ite_none_right_eq_some.mp h
    cases h
    exact localAdopt_kept hi hok
  | localAssign this other | localResetLocal this other =>
    obtain ⟨⟨env, old⟩, hs, h⟩ := Option.bind_eq_some_iff.mp h
    obtain ⟨⟨env', obj⟩, ho, rfl⟩ := Option.map_eq_some_iff.mp h
    exact localReset_kept hi hs (hi.env_localRef ho) (hi.live (localRef_eq_some ho))
  | localReset this =>
    obtain ⟨⟨env, old⟩, hs, rfl⟩ := Option.map_eq_some_iff.mp h
    have hh := localRef_eq_some hs
    apply replace_kept hi hh
    exact (localReset_ok (hi.balanced_without hh) (hi.attached_handle hh)).yields
  | localResetRef this other =>
    obtain ⟨⟨env, old⟩, hs, h⟩ := Option.bind_eq_some_iff.mp h
    obtain ⟨obj, ho, rfl⟩ := Option.map_eq_some_iff.mp h
    exact localReset_kept hi hs (hi.env_localRef hs) (hi.live_javaRef ho)
  | localResetObj this env obj =>
    obtain ⟨⟨henv, hobj⟩, h⟩ := Option.ite_none_right_eq_some.mp h
    obtain ⟨⟨env', old⟩, hs, rfl⟩ := Option.map_eq_some_iff.mp h
    exact localReset_kept hi hs henv hobj
  | localRelease this =>
    obtain ⟨⟨env, old⟩, hs, rfl⟩ := Option.map_eq_some_iff.mp h
    have hh := localRef_eq_some hs
    apply @release_kept s this (.localRef env old) (.localRef env none) hi hh rfl
    exact (hi.attached_handle hh).imp_right fun hnone => ⟨hnone.1, rfl⟩
  | globalDefault =>
    cases h
    exact construct_kept hi (yields_pure hi.balanced trivial)
  | globalCopy other =>
    obtain ⟨obj, ho, rfl⟩ := Option.map_eq_some_iff.mp h
    exact globalNew_kept hi (.inl rfl) (hi.live (globalRef_eq_some ho))
  | globalFrom other =>
    obtain ⟨obj, ho, rfl⟩ := Option.map_eq_some_iff.mp h
    exact globalNew_kept hi (.inl rfl) (hi.live_javaRef ho)
  | globalNew env obj =>
    obtain ⟨⟨henv, hobj⟩, h⟩ := Option.ite_none_right_eq_some.mp h
    cases h
    exact globalNew_kept hi henv hobj
  | globalReset this =>
    obtain ⟨old, hs, rfl⟩ := Option.map_eq_some_iff.mp h
    have hh := globalRef_eq_some hs
    exact replace_kept hi hh (globalReset_ok (hi.balanced_without hh)).yields
  | globalResetRef this other =>
    obtain ⟨old, hs, h⟩ := Option.bind_eq_some_iff.mp h
    obtain ⟨obj, ho, rfl⟩ := Option.map_eq_some_iff.mp h
    exact globalReset_kept hi hs (.inl rfl) (hi.live_javaRef ho)
  | globalResetObj this env obj =>
    obtain ⟨⟨henv, hobj⟩, h⟩ := Option.ite_none_right_eq_some.mp h
    obtain ⟨old, hs, rfl⟩ := Option.map_eq_some_iff.mp h
    exact globalReset_kept hi hs henv hobj
  | globalRelease this =>
    obtain ⟨old, hs, rfl⟩ := Option.map_eq_some_iff.mp h
    exact @release_kept s this (.globalRef old) (.globalRef none) hi (globalRef_eq_some hs) rfl
      trivial
  | weakDefault =>
    cases h
    exact construct_kept hi (yields_pure hi.balanced trivial)
  | weakCopy other =>
    obtain ⟨obj, ho, rfl⟩ := Option.map_eq_some_iff.mp h
    apply construct_kept hi
    apply weakAssign_ok hi.balanced
    intro r hr
    exact mem_held (weakGlobalRef_eq_some ho) hr
  | weakNew env obj =>
    obtain ⟨⟨henv, r, hr, ref, href, hlive, hobj⟩, h⟩ := Option.ite_none_right_eq_some.mp h
    cases h
    rw [Option.mem_def] at hr href
    subst hr
    apply construct_kept hi
    apply weakCreate_ok hi.balanced henv ⟨ref, href, hlive⟩
    intro ref' href'
    cases href.symm.trans href'
    exact hobj
  | weakAssign this other =>
    obtain ⟨old, hs, h⟩ := Option.bind_eq_some_iff.mp h
    obtain ⟨obj, ho, rfl⟩ := Option.map_eq_some_iff.mp h
    split_ifs with hsame
    · exact ⟨s, rfl, hi, rfl⟩
    · exact weakAssign_kept hi hs ho hsame
  | weakReset this =>
    obtain ⟨old, hs, rfl⟩ := Option.map_eq_some_iff.mp h
    have hh := weakGlobalRef_eq_some hs
    exact replace_kept hi hh (weakReset_ok (hi.balanced_without hh)).yields
  | weakGet this env =>
    obtain ⟨henv, h⟩ := Option.ite_none_right_eq_some.mp h
    obtain ⟨obj, hs, rfl⟩ := Option.map_eq_some_iff.mp h
    apply construct_kept hi
    exact getRealObject_ok hi.balanced henv (hi.live (weakGlobalRef_eq_some hs))
  | destruct this =>
    obtain ⟨handle, hh, rfl⟩ := Option.map_eq_some_iff.mp h
    exact destroy_kept hi hh (destruct_ok (hi.balanced_without hh) (hi.attached_handle hh))

theorem newRaw_inv (hi : s.Inv) (ref : JniRef) :
    Inv { s with jni := { s.jni with refs := s.jni.refs ++ [ref] } } := by
  refine ⟨hi.balanced.frame ?_, hi.attached⟩
  intro q ref' href' _
  rw [List.getElem?_append_left (List.getElem?_eq_some_iff.mp href').1, href']

theorem deleteRaw_inv (hi : s.Inv) {r : ℕ} (hr : s.jni.Live r) (hnot : r ∉ s.held.map Prod.snd) :
    Inv { s with jni := s.jni.kill r } := by
  refine ⟨hi.balanced.frame ?_, hi.attached⟩
  rintro q ref href ⟨x, hx, rfl⟩
  refine (getElem?_kill_ne ?_).trans href
  obtain hx | hx := List.mem_append.mp hx
  · rintro rfl
    exact hnot (List.mem_map_of_mem hx)
  · exact hi.balanced.not_deleted hr x hx

theorem perform_kept (hi : s.Inv) (h : s.perform step = some result) : Kept s result := by
  cases step with
  | call c => exact call_kept hi h
  | newRaw kind object =>
    obtain ⟨-, h⟩ := Option.ite_none_left_eq_some.mp h
    cases h
    exact ⟨_, rfl, newRaw_inv hi ⟨kind, object, true⟩, rfl⟩
  | deleteRaw r =>
    obtain ⟨⟨hr, hnot⟩, h⟩ := Option.ite_none_right_eq_some.mp h
    cases h
    exact ⟨_, rfl, deleteRaw_inv hi hr hnot, rfl⟩
  | collect object =>
    obtain ⟨-, h⟩ := Option.ite_none_left_eq_some.mp h
    cases h
    exact ⟨_, rfl, ⟨hi.balanced.frame fun _ _ href _ => href, hi.attached⟩, rfl⟩

theorem next_kept (hi : s.Inv) (h : s.next step = some t) : t.Inv ∧ t.fault = none := by
  obtain ⟨hfault, h⟩ := Option.ite_none_right_eq_some.mp h
  obtain ⟨result, hresult, rfl⟩ := Option.map_eq_some_iff.mp h
  obtain ⟨t, rfl, hi', hfault'⟩ := perform_kept hi hresult
  exact ⟨hi', hfault'.trans hfault⟩

end Steps

def nonNull (s : ScopedRefs) : ℕ := s.handles.countP fun h => (h.bind JavaHandle.obj).isSome

structure Sound (s : ScopedRefs) : Prop where
  fault : s.fault = none
  ledger : (s.jni.created ++ s.jni.adopted).Perm (s.jni.deleted ++ s.held ++ s.jni.released)
  count : s.jni.created.length + s.jni.adopted.length =
    s.jni.deleted.length + s.nonNull + s.jni.released.length
  once : (s.jni.deleted.map Prod.snd).Nodup
  deleted : ∀ x ∈ s.jni.deleted, ∃ ref, s.jni.refs[x.2]? = some ref ∧ ref.live = false ∧ ref.kind = x.1
  live : ∀ (h : JavaHandle) (r : ℕ), some h ∈ s.handles → h.obj = some r →
    ∃ ref, s.jni.refs[r]? = some ref ∧ ref.live = true ∧ ref.kind = h.kind
  alone : (s.held.map Prod.snd).Nodup

section Runs

variable {s : ScopedRefs}

theorem length_held (s : ScopedRefs) : s.held.length = s.nonNull := by
  unfold held nonNull
  induction s.handles with
  | nil => rfl
  | cons h hs ih =>
    rw [List.flatMap_cons, List.length_append, ih, List.countP_cons, Nat.add_comm]
    congr 1
    cases h with
    | none => rfl
    | some h =>
      cases hobj : h.obj with
      | none => simp [heldBy, JavaHandle.held, hobj]
      | some r => simp [heldBy, JavaHandle.held, hobj]

theorem Inv.sound (hi : s.Inv) (hfault : s.fault = none) : s.Sound := by
  have hb := hi.balanced
  have hperm : (s.jni.created ++ s.jni.adopted).Perm (s.jni.deleted ++ s.held ++ s.jni.released) := by
    rw [List.perm_iff_count]
    intro x
    rw [List.count_append, List.count_append, List.count_append, hb.count]
  refine ⟨hfault, hperm, ?_, hb.once, hb.dead, ?_, hb.alone⟩
  · have hlength := hperm.length_eq
    simp only [List.length_append, length_held] at hlength
    exact hlength
  · intro h r hmem hr
    obtain ⟨i, hi'⟩ := List.getElem?_of_mem hmem
    exact hb.live (h.kind, r) (mem_held (handle_eq_some.mpr hi') hr)

theorem inv_create (env : ℕ) : (create env).Inv :=
  ⟨⟨fun _ => rfl, nofun, List.nodup_nil, nofun, List.nodup_nil⟩, nofun⟩

theorem scopedRefs_ledger {env : ℕ} {steps : List JavaRefStep}
    (h : run next (create env) steps = some s) : s.Sound := by
  have hinv : s.Inv ∧ s.fault = none := by
    apply @Reachable.invariant ScopedRefs JavaRefStep next (fun _ _ => True)
      (fun s => s.Inv ∧ s.fault = none) (create env) s
    · exact ⟨inv_create env, rfl⟩
    · rintro s step t - ⟨hi, -⟩ - hnext
      exact next_kept hi hnext
    · exact ⟨steps, meets_true _ _, h⟩
  exact hinv.1.sound hinv.2

/-- A local reference is adopted, reset from itself, made global and weak, and given out; the weak
reference is assigned to itself and to another one of its object. -/
def selfResets : List JavaRefStep :=
  [.newRaw .localRef 7, .call (.localAdopt (some 1) (some 0)), .call (.localResetLocal 0 0),
    .call (.globalFrom 0), .call (.globalResetRef 1 1), .call (.weakNew (some 1) (some 1)),
    .call (.weakCopy 2), .call (.weakAssign 2 2), .call (.weakAssign 2 3),
    .call (.localRelease 0), .deleteRaw 1, .call (.destruct 1), .collect 7,
    .call (.weakGet 3 (some 1)), .call (.destruct 2)]

theorem scopedRefs_ledger_selfResets :
    ∃ s, run next (create 1) selfResets = some s ∧
      s.jni.deleted = [(.localRef, 0), (.globalRef, 2), (.weakGlobalRef, 4), (.globalRef, 3),
        (.weakGlobalRef, 6)] ∧ s.jni.released = [(.localRef, 1)] ∧ s.Sound :=
  ⟨_, rfl, rfl, rfl, @scopedRefs_ledger _ 1 selfResets rfl⟩

end Runs

end EnvironmentCheck.ScopedRefs
