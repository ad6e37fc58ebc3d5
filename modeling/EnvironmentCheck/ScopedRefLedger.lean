import EnvironmentCheck.ScopedJavaRef
import EnvironmentCheck.Library.Tally

namespace EnvironmentCheck

open Transition Faulting

/-- `held` has the references of the handles. Each was created or adopted and not yet deleted or given
out, and lives; what has been deleted was of its kind and deleted once. -/
structure JniThread.Balanced (held : List (RefKind × ℕ)) (j : JniThread) : Prop where
  count : ∀ x, j.created.count x + j.adopted.count x =
    j.deleted.count x + held.count x + j.released.count x
  live : ∀ x ∈ held, ∃ ref, j.refs[x.2]? = some ref ∧ ref.live = true ∧ ref.kind = x.1
  alone : (held.map Prod.snd).Nodup
  dead : ∀ x ∈ j.deleted, ∃ ref, j.refs[x.2]? = some ref ∧ ref.live = false ∧ ref.kind = x.1
  once : (j.deleted.map Prod.snd).Nodup

def owned (kind : RefKind) (obj : Option ℕ) : List (RefKind × ℕ) :=
  (obj.map fun r => (kind, r)).toList

/-- A `ScopedJavaLocalRef` that is not null knows the environment of its thread. -/
def JavaHandle.Attached (env : ℕ) : JavaHandle → Prop
  | .localRef env' obj => env' = some env ∨ env' = none ∧ obj = none
  | _ => True

def Yields (held : List (RefKind × ℕ)) (x : ScopedJni JavaHandle) (j : JniThread) : Prop :=
  Ensures x j fun h j' => j'.Balanced (h.held ++ held) ∧ j'.env = j.env ∧ h.Attached j.env

section Primitives

variable {j : JniThread} {H K : List (RefKind × ℕ)} {kind : RefKind} {r q : ℕ}
  {env this obj : Option ℕ}

theorem JniThread.Balanced.perm (hb : j.Balanced H) (hp : H.Perm K) : j.Balanced K := by
  refine ⟨fun x => ?_, fun x hx => ?_, ?_, hb.dead, hb.once⟩
  · rw [← hp.count_eq]
    exact hb.count x
  · exact hb.live x (hp.mem_iff.mpr hx)
  · exact (hp.map Prod.snd).nodup_iff.mp hb.alone

theorem JniThread.Balanced.live_of_mem (hb : j.Balanced H) (hx : (kind, r) ∈ H) : j.Live r := by
  obtain ⟨ref, href, hlive, -⟩ := hb.live (kind, r) hx
  exact ⟨ref, href, hlive⟩

theorem JniThread.Balanced.lt (hb : j.Balanced H) {x : RefKind × ℕ} (hx : x ∈ H) :
    x.2 < j.refs.length := by
  obtain ⟨ref, href, -⟩ := hb.live x hx
  exact (List.getElem?_eq_some_iff.mp href).1

/-- Only references that nothing here has held or deleted have changed. -/
theorem JniThread.Balanced.frame (hb : j.Balanced H) {refs : List JniRef} {collected : List ℕ}
    (hrefs : ∀ q ref, j.refs[q]? = some ref → (∃ x ∈ H ++ j.deleted, x.2 = q) → refs[q]? = some ref) :
    Balanced H { j with refs, collected } := by
  refine ⟨hb.count, fun x hx => ?_, hb.alone, fun x hx => ?_, hb.once⟩
  · obtain ⟨ref, href, hrest⟩ := hb.live x hx
    exact ⟨ref, hrefs x.2 ref href ⟨x, List.mem_append_left _ hx, rfl⟩, hrest⟩
  · obtain ⟨ref, href, hrest⟩ := hb.dead x hx
    exact ⟨ref, hrefs x.2 ref href ⟨x, List.mem_append_right _ hx, rfl⟩, hrest⟩

theorem JniThread.Balanced.not_deleted (hb : j.Balanced H) (hr : j.Live r) :
    ∀ x ∈ j.deleted, x.2 ≠ r := by
  rintro x hx rfl
  obtain ⟨ref, href, hlive⟩ := hr
  obtain ⟨ref', href', hdead, -⟩ := hb.dead x hx
  cases (Option.mem_def.mp href).symm.trans href'
  rw [hlive] at hdead
  cases hdead

theorem getElem?_kill_ne (hne : q ≠ r) : (j.kill r).refs[q]? = j.refs[q]? :=
  List.getElem?_modify_ne _ j.refs hne.symm

theorem getElem?_kill_self {ref : JniRef} (href : j.refs[r]? = some ref) :
    (j.kill r).refs[r]? = some { ref with live := false } := by
  change (j.refs.modify r _)[r]? = _
  rw [List.getElem?_modify, href]
  simp only [if_true, Option.map_eq_map, Option.map_some]

theorem attachCurrentThread_ok : Ensures attachCurrentThread j fun env j' => env = j.env ∧ j' = j :=
  ⟨j.env, j, rfl, rfl, rfl⟩

theorem checkEnv_ok (henv : env = some j.env) : Ensures (checkEnv env) j fun _ j' => j' = j :=
  ⟨⟨⟩, j, if_pos henv, rfl⟩

theorem newRef_ok (hb : j.Balanced H) (hr : j.Live r) (kind : RefKind) :
    Ensures (newRef kind r) j fun new j' => j'.Balanced (owned kind new ++ H) ∧ j'.env = j.env ∧
      ((∀ ref ∈ j.refs[r]?, ref.object ∉ j.collected) → new.isSome) := by
  obtain ⟨ref, href, hlive⟩ := hr
  rw [Option.mem_def] at href
  by_cases hcollected : ref.object ∈ j.collected
  · refine ⟨none, j, ?_, hb, rfl, fun hnot => absurd hcollected (hnot ref href)⟩
    simp only [newRef, href, hlive, if_true, if_pos hcollected]
  · refine ⟨some j.refs.length, { j with
      refs := j.refs ++ [⟨kind, ref.object, true⟩]
      created := j.created ++ [(kind, j.refs.length)] }, ?_, ?_, rfl, fun _ => rfl⟩
    · simp only [newRef, href, hlive, if_true, if_neg hcollected]
    · have hold : ∀ (x : RefKind × ℕ) ref', j.refs[x.2]? = some ref' →
          (j.refs ++ [⟨kind, ref.object, true⟩])[x.2]? = some ref' := by
        intro x ref' hx
        rw [List.getElem?_append_left (List.getElem?_eq_some_iff.mp hx).1, hx]
      refine ⟨fun x => ?_, fun x hx => ?_, ?_, fun x hx => ?_, hb.once⟩
      · have hcount := hb.count x
        simp only [owned, Option.map_some, Option.toList_some, List.count_append]
        omega
      · obtain rfl | hx := List.mem_cons.mp hx
        · exact ⟨_, List.getElem?_concat_length, rfl, rfl⟩
        · obtain ⟨ref', href', hrest⟩ := hb.live x hx
          exact ⟨ref', hold x ref' href', hrest⟩
      · apply List.nodup_cons.mpr
        refine ⟨?_, hb.alone⟩
        intro hmem
        obtain ⟨x, hx, heq⟩ := List.mem_map.mp hmem
        have hlt := hb.lt hx
        change x.2 = j.refs.length at heq
        omega
      · obtain ⟨ref', href', hrest⟩ := hb.dead x hx
        exact ⟨ref', hold x ref' href', hrest⟩

theorem deleteRef_ok (hb : j.Balanced ((kind, r) :: H)) :
    Ensures (deleteRef kind r) j fun _ j' => j'.Balanced H ∧ j'.env = j.env := by
  obtain ⟨ref, href, hlive, hkind⟩ := hb.live (kind, r) List.mem_cons_self
  obtain ⟨hnot, hnodup⟩ := List.nodup_cons.mp hb.alone
  have hnotdead := hb.not_deleted (hb.live_of_mem List.mem_cons_self)
  refine ⟨⟨⟩, { j.kill r with deleted := j.deleted ++ [(kind, r)] }, ?_, ?_, rfl⟩
  · simp only [deleteRef, href, hlive, hkind, if_true]
  · refine ⟨fun x => ?_, fun x hx => ?_, hnodup, fun x hx => ?_, ?_⟩
    · have hcount := hb.count x
      rw [List.count_cons] at hcount
      simp only [JniThread.kill, List.count_append, List.count_singleton]
      omega
    · have hne : x.2 ≠ r := fun heq => hnot (List.mem_map.mpr ⟨x, hx, heq⟩)
      obtain ⟨ref', href', hrest⟩ := hb.live x (List.mem_cons_of_mem _ hx)
      exact ⟨ref', (getElem?_kill_ne hne).trans href', hrest⟩
    · obtain hx | hx := List.mem_append.mp hx
      · obtain ⟨ref', href', hrest⟩ := hb.dead x hx
        exact ⟨ref', (getElem?_kill_ne (hnotdead x hx)).trans href', hrest⟩
      · obtain rfl := List.mem_singleton.mp hx
        exact ⟨_, getElem?_kill_self href, rfl, hkind⟩
    · change ((j.deleted ++ [(kind, r)]).map Prod.snd).Nodup
      rw [List.map_append]
      apply List.nodup_append.mpr
      refine ⟨hb.once, List.nodup_singleton _, ?_⟩
      intro a ha b hmem heq
      obtain ⟨x, hx, rfl⟩ := List.mem_map.mp ha
      obtain rfl := List.mem_singleton.mp hmem
      exact hnotdead x hx heq

theorem newRefIfSet_ok (hb : j.Balanced H) (hobj : ∀ r ∈ obj, j.Live r) (kind : RefKind) :
    Ensures (newRefIfSet kind obj) j fun new j' =>
      j'.Balanced (owned kind new ++ H) ∧ j'.env = j.env := by
  cases obj with
  | none => exact ensures_pure ⟨hb, rfl⟩
  | some r =>
    apply (newRef_ok hb (hobj r rfl) kind).mono
    rintro new j' ⟨hb', henv, -⟩
    exact ⟨hb', henv⟩

theorem deleteRefIfSet_ok (hb : j.Balanced (owned kind this ++ H)) :
    Ensures (deleteRefIfSet kind this) j fun _ j' => j'.Balanced H ∧ j'.env = j.env := by
  cases this with
  | none => exact ensures_pure ⟨hb, rfl⟩
  | some r => exact deleteRef_ok hb

theorem envOrCurrent_ok (henv : env = none ∨ env = some j.env) :
    Ensures (JavaRef.envOrCurrent env) j fun new j' => new = j.env ∧ j' = j := by
  obtain rfl | rfl := henv
  · exact attachCurrentThread_ok
  · apply (checkEnv_ok rfl).bind
    rintro _ j' rfl
    exact ensures_pure ⟨rfl, rfl⟩

/-- The new reference is taken before the old one is deleted, so that it may be taken from it. -/
theorem setNewRef_ok (hb : j.Balanced (owned kind this ++ H))
    (henv : env = none ∨ env = some j.env) (hobj : ∀ r ∈ obj, j.Live r) :
    Ensures (JavaRef.setNewRef kind env this obj) j fun new j' =>
      j'.Balanced (owned kind new.2 ++ H) ∧ j'.env = j.env ∧ new.1 = j.env := by
  apply (envOrCurrent_ok henv).bind
  rintro e j₁ ⟨rfl, rfl⟩
  apply (newRefIfSet_ok hb hobj kind).bind
  rintro new j₂ ⟨hb₂, henv₂⟩
  have hswap : (owned kind new ++ (owned kind this ++ H)).Perm
      (owned kind this ++ (owned kind new ++ H)) := by
    rw [← List.append_assoc, ← List.append_assoc]
    exact List.perm_append_comm.append_right H
  apply (deleteRefIfSet_ok (hb₂.perm hswap)).bind
  rintro _ j₃ ⟨hb₃, henv₃⟩
  exact ensures_pure ⟨hb₃, henv₃.trans henv₂, rfl⟩

end Primitives

def Clears (held : List (RefKind × ℕ)) (x : ScopedJni JavaHandle) (j : JniThread) : Prop :=
  Ensures x j fun h j' =>
    h.held = [] ∧ j'.Balanced held ∧ j'.env = j.env ∧ h.Attached j.env

section Classes

variable {j : JniThread} {H : List (RefKind × ℕ)} {h : JavaHandle} {r : ℕ}
  {env this obj : Option ℕ} {x : ScopedJni JavaHandle}

theorem Clears.yields (hx : Clears H x j) : Yields H x j := by
  apply Ensures.mono hx
  rintro h j' ⟨hheld, hb, henv, hattached⟩
  rw [hheld]
  exact ⟨hb, henv, hattached⟩

theorem yields_pure (hb : j.Balanced (h.held ++ H)) (hattached : h.Attached j.env) :
    Yields H (pure h) j :=
  ensures_pure ⟨hb, rfl, hattached⟩

theorem localResetObj_ok (hb : j.Balanced (owned .localRef this ++ H))
    (henv : env = none ∨ env = some j.env) (hobj : ∀ r ∈ obj, j.Live r) :
    Yields H (ScopedJavaLocalRef.resetObj this env obj) j := by
  apply (setNewRef_ok hb henv hobj).map
  rintro new j' ⟨hb', henv', hnew⟩
  exact ⟨hb', henv', .inl (congrArg some hnew)⟩

theorem localCopy_ok (hb : j.Balanced H) (hattached : (JavaHandle.localRef env obj).Attached j.env)
    (hobj : ∀ r ∈ obj, j.Live r) : Yields H (ScopedJavaLocalRef.copy env obj) j := by
  obtain rfl | ⟨rfl, rfl⟩ := hattached
  · apply (@setNewRef_ok j H .localRef (some j.env) none obj hb (.inr rfl) hobj).map
    rintro new j' ⟨hb', henv', -⟩
    exact ⟨hb', henv', .inl rfl⟩
  · exact ⟨.localRef none none, j, rfl, hb, rfl, .inr ⟨rfl, rfl⟩⟩

theorem localAdopt_ok (hb : j.Balanced (owned .localRef obj ++ H))
    (hattached : (JavaHandle.localRef env obj).Attached j.env) :
    Yields H (ScopedJavaLocalRef.adopt env obj) j := by
  have hinit : Ensures (JavaRef.init env obj) j fun _ j' => j' = j := by
    cases obj with
    | none => exact ensures_pure rfl
    | some r =>
      obtain rfl | ⟨-, hnone⟩ := hattached
      · obtain ⟨ref, href, -, hkind⟩ := hb.live (.localRef, r) List.mem_cons_self
        apply (checkEnv_ok rfl).bind
        rintro _ j' rfl
        refine ⟨⟨⟩, j', if_pos ?_, rfl⟩
        rw [href, Option.map_some, hkind]
      · cases hnone
  apply hinit.bind
  rintro _ j' rfl
  exact yields_pure hb hattached

theorem localReset_ok (hb : j.Balanced (owned .localRef obj ++ H))
    (hattached : (JavaHandle.localRef env obj).Attached j.env) :
    Clears H (ScopedJavaLocalRef.reset env obj) j := by
  have hreset : Ensures (JavaRef.resetLocalRef env obj) j fun _ j' =>
      j'.Balanced H ∧ j'.env = j.env := by
    cases obj with
    | none => exact ensures_pure ⟨hb, rfl⟩
    | some r =>
      obtain rfl | ⟨-, hnone⟩ := hattached
      · apply (checkEnv_ok rfl).bind
        rintro _ j' rfl
        exact deleteRef_ok hb
      · cases hnone
  apply hreset.bind
  rintro _ j' ⟨hb', henv'⟩
  refine ensures_pure ⟨rfl, hb', henv', ?_⟩
  exact hattached.imp_right fun hnone => ⟨hnone.1, rfl⟩

theorem globalResetObj_ok (hb : j.Balanced (owned .globalRef this ++ H))
    (henv : env = none ∨ env = some j.env) (hobj : ∀ r ∈ obj, j.Live r) :
    Yields H (ScopedJavaGlobalRef.resetObj this env obj) j := by
  have hset : Ensures (JavaRef.setNewGlobalRef env this obj) j fun new j' =>
      j'.Balanced (owned .globalRef new ++ H) ∧ j'.env = j.env := by
    apply (setNewRef_ok hb henv hobj).map
    rintro new j' ⟨hb', henv', -⟩
    exact ⟨hb', henv'⟩
  apply hset.map
  rintro new j' ⟨hb', henv'⟩
  exact ⟨hb', henv', trivial⟩

theorem globalReset_ok (hb : j.Balanced (owned .globalRef obj ++ H)) :
    Clears H (ScopedJavaGlobalRef.reset obj) j := by
  apply (deleteRefIfSet_ok hb).bind
  rintro _ j' ⟨hb', henv'⟩
  exact ensures_pure ⟨rfl, hb', henv', trivial⟩

theorem weakReset_ok (hb : j.Balanced (owned .weakGlobalRef obj ++ H)) :
    Clears H (JavaObjectWeakGlobalRef.reset obj) j := by
  apply (deleteRefIfSet_ok hb).bind
  rintro _ j' ⟨hb', henv'⟩
  exact ensures_pure ⟨rfl, hb', henv', trivial⟩

/-- The old reference is deleted first; the other is not it. -/
theorem weakAssign_ok (hb : j.Balanced (owned .weakGlobalRef this ++ H))
    (hobj : ∀ r ∈ obj, (RefKind.weakGlobalRef, r) ∈ H) :
    Yields H (JavaObjectWeakGlobalRef.assign this obj) j := by
  apply (deleteRefIfSet_ok hb).bind
  rintro _ j' ⟨hb', henv'⟩
  have hlive : ∀ r ∈ obj, j'.Live r := fun r hr => hb'.live_of_mem (hobj r hr)
  apply (newRefIfSet_ok hb' hlive .weakGlobalRef).map
  rintro new j'' ⟨hb'', henv''⟩
  exact ⟨hb'', henv''.trans henv', trivial⟩

theorem weakCreate_ok (hb : j.Balanced H) (henv : env = some j.env) (hlive : j.Live r)
    (hobj : ∀ ref ∈ j.refs[r]?, ref.object ∉ j.collected) :
    Yields H (JavaObjectWeakGlobalRef.create env (some r)) j := by
  apply (checkEnv_ok henv).bind
  rintro _ j' rfl
  apply (newRef_ok hb hlive .weakGlobalRef).bind
  rintro new j'' ⟨hb'', henv'', hsome⟩
  obtain ⟨r', rfl⟩ := Option.isSome_iff_exists.mp (hsome hobj)
  exact ensures_pure ⟨hb'', henv'', trivial⟩

theorem getRealObject_ok (hb : j.Balanced H) (henv : env = some j.env)
    (hobj : ∀ r ∈ obj, j.Live r) : Yields H (JavaObjectWeakGlobalRef.getRealObject env obj) j := by
  cases obj with
  | none => exact localAdopt_ok hb (.inl henv)
  | some r =>
    apply (checkEnv_ok henv).bind
    rintro _ j' rfl
    apply (newRef_ok hb (hobj r rfl) .localRef).bind
    rintro new j'' ⟨hb'', henv'', -⟩
    rw [← henv''] at henv
    apply (localAdopt_ok hb'' (.inl henv)).mono
    rintro h j₃ ⟨hb₃, henv₃, hattached⟩
    rw [henv''] at henv₃ hattached
    exact ⟨hb₃, henv₃, hattached⟩

theorem destruct_ok (hb : j.Balanced (h.held ++ H)) (hattached : h.Attached j.env) :
    Clears H h.destruct j := by
  cases h with
  | localRef env obj => exact localReset_ok hb hattached
  | globalRef obj => exact globalReset_ok hb
  | weakGlobalRef obj => exact weakReset_ok hb

end Classes

end EnvironmentCheck
