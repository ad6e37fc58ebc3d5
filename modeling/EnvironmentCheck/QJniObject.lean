import EnvironmentCheck.JniHeap

namespace EnvironmentCheck

structure NewObjectAnswer where
  constructorId : Bool
  obj : Option ℕ

structure CallAnswer where
  id : Bool
  result : Option ℕ
  exception : Bool

structure LoadAnswer where
  classLoader : Option ℕ
  stringName : Option ℕ
  call : CallAnswer
  exception : Bool

namespace LoadAnswer

/-- A class loader is there, and its `loadClass` returns a class. -/
def Finds (a : LoadAnswer) : Prop :=
  a.classLoader.isSome ∧ a.call.id ∧ a.call.exception = false ∧ a.call.result.isSome ∧
    a.exception = false

instance (a : LoadAnswer) : Decidable a.Finds := by
  unfold Finds
  infer_instance

end LoadAnswer

namespace Jni

variable (classOf : ℕ → ℕ)

/-- `QJniObject(jobject)`, with `classOf` for `GetObjectClass`. -/
def ofObject : Option JObject → Jni ℕ
  | none => newPrivate .null
  | some obj => do
    let jobject ← newGlobalRef obj
    let o ← resolve obj
    let jclass ← newGlobalRef (.outside (classOf o))
    newPrivate ⟨some jobject, some jclass, true⟩

def getCleanJniObject (a : CallAnswer) : Jni ℕ :=
  match a.result with
  | none => newPrivate .null
  | some o => if a.exception then newPrivate .null else ofObject classOf (some (.outside o))

def access (p : ℕ) (id : Bool) : Jni PUnit := do
  let d ← data p
  use d.jclass
  if id then use d.jobject

/-- `callObjectMethod` and `getObjectField`. -/
def objectAccess (p : ℕ) (a : CallAnswer) : Jni ℕ := do
  access p a.id
  if a.id then getCleanJniObject classOf a else newPrivate .null

def loadClass (a : LoadAnswer) : Jni (Option ℕ) := do
  let classLoader ← ofObject classOf (a.classLoader.map .outside)
  let loader ← data classLoader
  if loader.jobject.isNone then
    release classLoader
    pure none
  else
    let stringName ← ofObject classOf (a.stringName.map .outside)
    let key ← data stringName
    use key.jobject
    let classObject ← objectAccess classOf classLoader a.call
    let found ← data classObject
    let clazz ← match found.jobject with
      | none => pure none
      | some r => if a.exception then pure none else some <$> newGlobalRef (.globalRef r)
    release classObject
    release stringName
    release classLoader
    pure clazz

def newObject (clazz : ℕ) (a : NewObjectAnswer) : Jni (Option ℕ) := do
  use (some clazz)
  if a.constructorId then
    use (some clazz)
    match a.obj with
    | none => pure none
    | some o => some <$> newGlobalRef (.outside o)
  else pure none

/-- `QJniObject(const char *)`, also with a signature and arguments. -/
def ofClassName (a : LoadAnswer) (b : NewObjectAnswer) : Jni ℕ := do
  match ← loadClass classOf a with
  | none => newPrivate ⟨none, none, false⟩
  | some clazz =>
    let jobject ← newObject clazz b
    newPrivate ⟨jobject, some clazz, false⟩

/-- `QJniObject(jclass)`, also with a signature and arguments. -/
def ofClass (clazz : Option JObject) (b : NewObjectAnswer) : Jni ℕ :=
  match clazz with
  | none => newPrivate .null
  | some obj => do
    let jclass ← newGlobalRef obj
    let jobject ← newObject jclass b
    newPrivate ⟨jobject, some jclass, true⟩

/-- `callStaticMethod`, `getStaticField` and `setStaticField` with the name of a class. -/
def staticAccess (a : LoadAnswer) (id : Bool) : Jni PUnit := do
  match ← loadClass classOf a with
  | none => pure ⟨⟩
  | some clazz =>
    use (some clazz)
    if id then use (some clazz)

/-- `callStaticObjectMethod` and `getStaticObjectField` with the name of a class. -/
def staticObjectAccess (a : LoadAnswer) (b : CallAnswer) : Jni ℕ := do
  match ← loadClass classOf a with
  | none => newPrivate .null
  | some clazz =>
    use (some clazz)
    if b.id then
      use (some clazz)
      getCleanJniObject classOf b
    else newPrivate .null

def isClassAvailable (a : LoadAnswer) : Jni Bool := do
  let clazz ← loadClass classOf a
  pure clazz.isSome

def isSameObject (jobject : Option ℕ) (obj : Option JObject) : Jni Bool := do
  let x ← referent (jobject.map .globalRef)
  let y ← referent obj
  pure (x = y)

/-- The private data that the handle has in the end. -/
def assign (p : ℕ) (obj : Option JObject) : Jni ℕ := do
  let d ← data p
  if ← isSameObject d.jobject obj then pure p
  else
    release p
    ofObject classOf obj

open Faulting JniHeap

variable {h : JniHeap} {P R : List ℕ} {p : ℕ}

theorem ofObject_ensures {obj : Option JObject} (hb : h.Balanced P R)
    (hobj : ∀ o, obj = some o → Live h o) :
    Ensures (ofObject classOf obj) h fun p t => t.Balanced (p :: P) R ∧
      ∃ s, t.private? p = some s ∧ s.data.jobject.isSome = obj.isSome := by
  cases obj with
  | none =>
    apply (newNull_ensures hb).mono
    rintro p t ⟨ht, hp⟩
    exact ⟨ht, _, hp, rfl⟩
  | some obj =>
    have hlive := hobj obj rfl
    apply (newGlobalRef_ensures hb hlive).bind
    rintro jobject h₁ ⟨hb₁, hkeep⟩
    obtain ⟨o, _, hrun⟩ := resolve_ok (hkeep obj hlive)
    unfold Ensures
    rw [bind_ok hrun]
    have houtside : Live h₁ (.outside (classOf o)) := trivial
    apply (newGlobalRef_ensures hb₁ houtside).bind
    rintro jclass h₂ ⟨hb₂, _⟩
    have hb₃ : h₂.Balanced P ([jobject, jclass] ++ R) :=
      hb₂.congr (List.Perm.refl P) (List.Perm.swap jobject jclass R)
    apply (newPrivate_ensures (d := ⟨some jobject, some jclass, true⟩) hb₃ fun _ => rfl).mono
    rintro p t ⟨ht, hp⟩
    exact ⟨ht, _, hp, rfl⟩

theorem getCleanJniObject_ensures (hb : h.Balanced P R) (a : CallAnswer) :
    Ensures (getCleanJniObject classOf a) h fun p t => t.Balanced (p :: P) R ∧
      ∃ s, t.private? p = some s ∧
        (s.data.jobject.isSome ↔ a.exception = false ∧ a.result.isSome) := by
  unfold getCleanJniObject
  split
  · next hnone =>
    apply (newNull_ensures hb).mono
    rintro p t ⟨ht, hp⟩
    exact ⟨ht, _, hp, by simp [hnone, QJniObjectPrivate.null]⟩
  · next o hres =>
    cases hexc : a.exception with
    | true =>
      apply (newNull_ensures hb).mono
      rintro p t ⟨ht, hp⟩
      exact ⟨ht, _, hp, by simp [QJniObjectPrivate.null]⟩
    | false =>
      have hlive : ∀ obj, some (JObject.outside o) = some obj → Live h obj := by
        rintro obj ⟨⟩
        trivial
      apply (ofObject_ensures classOf hb hlive).mono
      rintro p t ⟨ht, s, hs, hsome⟩
      exact ⟨ht, s, hs, by simp [hsome, hres]⟩

theorem access_ensures (hb : h.Balanced P R) (hp : p ∈ P) (id : Bool) :
    Ensures (access p id) h fun _ t => t = h := by
  obtain ⟨s, hs, _⟩ := hb.counted.private hp
  unfold access Ensures
  rw [bind_ok (data_ok hs)]
  apply (use_ensures (hb.live_jclass hs)).bind
  rintro _ _ rfl
  cases id with
  | false => exact ensures_pure rfl
  | true => exact use_ensures (hb.live_jobject hs)

theorem objectAccess_ensures (hb : h.Balanced P R) (hp : p ∈ P) (a : CallAnswer) :
    Ensures (objectAccess classOf p a) h fun q t => t.Balanced (q :: P) R ∧
      ∃ s, t.private? q = some s ∧
        (s.data.jobject.isSome ↔ a.id ∧ a.exception = false ∧ a.result.isSome) := by
  apply (access_ensures hb hp a.id).bind
  rintro _ _ rfl
  cases hid : a.id with
  | false =>
    apply (newNull_ensures hb).mono
    rintro q t ⟨ht, hq⟩
    exact ⟨ht, _, hq, by simp [QJniObjectPrivate.null]⟩
  | true =>
    apply (getCleanJniObject_ensures classOf hb a).mono
    rintro q t ⟨ht, s, hs, hsome⟩
    exact ⟨ht, s, hs, by simpa using hsome⟩

theorem release_temporaries {a b c : ℕ} {clazz : Option ℕ} {found : Prop}
    (hb : h.Balanced (a :: b :: c :: P) (clazz.toList ++ R)) (hfound : clazz.isSome ↔ found) :
    Ensures (do release a; release b; release c; pure clazz) h fun clazz t =>
      t.Balanced P (clazz.toList ++ R) ∧ (clazz.isSome ↔ found) := by
  apply (release_ensures hb).bind
  intro _ h₁ hb₁
  apply (release_ensures hb₁).bind
  intro _ h₂ hb₂
  apply (release_ensures hb₂).bind
  intro _ h₃ hb₃
  exact ensures_pure ⟨hb₃, hfound⟩

theorem loadClass_ensures (hb : h.Balanced P R) (a : LoadAnswer) :
    Ensures (loadClass classOf a) h fun clazz t =>
      t.Balanced P (clazz.toList ++ R) ∧ (clazz.isSome ↔ a.Finds) := by
  apply (ofObject_ensures classOf hb live_outside).bind
  rintro classLoader h₁ ⟨hb₁, loader, hloader, hsome⟩
  unfold Ensures
  rw [bind_ok (data_ok hloader)]
  rw [Option.isSome_map] at hsome
  split
  · next hnone =>
    apply (release_ensures hb₁).bind
    intro _ t ht
    apply ensures_pure
    refine ⟨ht, ?_⟩
    rw [Option.isNone_iff_eq_none.mp hnone] at hsome
    simp [LoadAnswer.Finds, ← hsome]
  · next hvalid =>
    have hfound : a.classLoader.isSome := by
      rw [← hsome]
      simpa [Option.isSome_iff_ne_none] using hvalid
    apply (ofObject_ensures classOf hb₁ live_outside).bind
    rintro stringName h₂ ⟨hb₂, key, hkey, _⟩
    unfold Ensures
    rw [bind_ok (data_ok hkey)]
    apply (use_ensures (hb₂.live_jobject hkey)).bind
    rintro _ _ rfl
    apply (objectAccess_ensures classOf hb₂ (by simp) a.call).bind
    rintro classObject h₃ ⟨hb₃, found, hclass, hresult⟩
    unfold Ensures
    rw [bind_ok (data_ok hclass)]
    cases hr : found.data.jobject with
    | none =>
      rw [hr] at hresult
      apply release_temporaries hb₃
      simp only [Option.isSome_none, Bool.false_eq_true, false_iff] at hresult ⊢
      rintro ⟨_, hid, hexc, hres, _⟩
      exact hresult ⟨hid, hexc, hres⟩
    | some r =>
      simp only [hr, Option.isSome_some, true_iff] at hresult
      cases hexc : a.exception with
      | true =>
        apply release_temporaries hb₃
        simp [LoadAnswer.Finds, hexc]
      | false =>
        have hlive : Live h₃ (.globalRef r) := hb₃.live_jobject hclass r hr
        have hnew : Ensures (some <$> newGlobalRef (.globalRef r)) h₃ fun clazz t =>
            t.Balanced (classObject :: stringName :: classLoader :: P) (clazz.toList ++ R) ∧
              (clazz.isSome ↔ a.Finds) := by
          apply (newGlobalRef_ensures hb₃ hlive).map
          rintro clazz t ⟨ht, _⟩
          exact ⟨ht, by simp [LoadAnswer.Finds, hfound, hresult, hexc]⟩
        apply hnew.bind
        rintro clazz t ⟨ht, hfinds⟩
        exact release_temporaries ht hfinds

theorem use_held (hb : h.Balanced P R) {clazz : ℕ} (hc : clazz ∈ R) :
    Ensures (use (some clazz)) h fun _ t => t = h := by
  apply use_ensures
  rintro r ⟨⟩
  exact hb.counted.live_of_held hc

theorem newObject_ensures (hb : h.Balanced P R) {clazz : ℕ} (hc : clazz ∈ R) (a : NewObjectAnswer) :
    Ensures (newObject clazz a) h fun obj t => t.Balanced P (obj.toList ++ R) := by
  apply (use_held hb hc).bind
  rintro _ _ rfl
  split
  · apply (use_held hb hc).bind
    rintro _ t rfl
    cases a.obj with
    | none => exact ensures_pure hb
    | some o =>
      have houtside : Live t (.outside o) := trivial
      apply (newGlobalRef_ensures hb houtside).map
      rintro obj t ⟨ht, _⟩
      exact ht
  · exact ensures_pure hb

theorem ofClass_ensures {clazz : Option JObject} (hb : h.Balanced P R)
    (hclass : ∀ o, clazz = some o → Live h o) (a : NewObjectAnswer) :
    Ensures (ofClass clazz a) h fun p t => t.Balanced (p :: P) R := by
  cases clazz with
  | none =>
    apply (newNull_ensures hb).mono
    rintro p t ⟨ht, _⟩
    exact ht
  | some obj =>
    apply (newGlobalRef_ensures hb (hclass obj rfl)).bind
    rintro jclass h₁ ⟨hb₁, _⟩
    apply (newObject_ensures hb₁ List.mem_cons_self a).bind
    intro jobject h₂ hb₂
    have hb₃ : h₂.Balanced P ((jobject.toList ++ [jclass]) ++ R) := by
      rw [List.append_assoc]
      exact hb₂
    apply (newPrivate_ensures (d := ⟨jobject, some jclass, true⟩) hb₃ fun _ => rfl).mono
    rintro p t ⟨ht, _⟩
    exact ht

theorem ofClassName_ensures (hb : h.Balanced P R) (a : LoadAnswer) (b : NewObjectAnswer)
    (ha : a.Finds) :
    Ensures (ofClassName classOf a b) h fun p t => ∃ clazz, t.Counted (p :: P) (clazz :: R) := by
  apply (loadClass_ensures classOf hb a).bind
  rintro clazz h₁ ⟨hb₁, hfinds⟩
  obtain ⟨clazz, rfl⟩ := Option.isSome_iff_exists.mp (hfinds.mpr ha)
  apply (newObject_ensures hb₁ List.mem_cons_self b).bind
  intro jobject h₂ hb₂
  have hc₂ : h₂.Counted P ((jobject.toList ++ []) ++ clazz :: R) := by
    rw [List.append_nil]
    exact hb₂.counted
  apply (newPrivate_ok (d := ⟨jobject, some clazz, false⟩) hc₂).mono
  intro p t ht
  exact ⟨clazz, ht⟩

theorem ofClassName_absent (hb : h.Balanced P R) (a : LoadAnswer) (b : NewObjectAnswer)
    (ha : ¬ a.Finds) :
    Ensures (ofClassName classOf a b) h fun p t => t.Balanced (p :: P) R := by
  apply (loadClass_ensures classOf hb a).bind
  rintro clazz h₁ ⟨hb₁, hfinds⟩
  obtain rfl : clazz = none := by
    rw [← Option.not_isSome_iff_eq_none, hfinds]
    exact ha
  apply (newPrivate_ensures (d := ⟨none, none, false⟩) hb₁ _).mono
  · rintro p t ⟨ht, _⟩
    exact ht
  · intro hnone
    cases hnone

theorem staticAccess_ensures (hb : h.Balanced P R) (a : LoadAnswer) (id : Bool) :
    Ensures (staticAccess classOf a id) h fun _ t =>
      ∃ clazz : Option ℕ, t.Balanced P (clazz.toList ++ R) ∧ (clazz.isSome ↔ a.Finds) := by
  apply (loadClass_ensures classOf hb a).bind
  rintro clazz h₁ ⟨hb₁, hfinds⟩
  cases clazz with
  | none => exact ensures_pure ⟨none, hb₁, hfinds⟩
  | some clazz =>
    have huse := use_held hb₁ List.mem_cons_self
    apply huse.bind
    rintro _ _ rfl
    cases id with
    | false => exact ensures_pure ⟨some clazz, hb₁, hfinds⟩
    | true =>
      apply huse.mono
      rintro _ _ rfl
      exact ⟨some clazz, hb₁, hfinds⟩

theorem staticObjectAccess_ensures (hb : h.Balanced P R) (a : LoadAnswer) (b : CallAnswer) :
    Ensures (staticObjectAccess classOf a b) h fun p t =>
      ∃ clazz : Option ℕ, t.Balanced (p :: P) (clazz.toList ++ R) ∧ (clazz.isSome ↔ a.Finds) := by
  apply (loadClass_ensures classOf hb a).bind
  rintro clazz h₁ ⟨hb₁, hfinds⟩
  cases clazz with
  | none =>
    apply (newNull_ensures hb₁).mono
    rintro p t ⟨ht, _⟩
    exact ⟨none, ht, hfinds⟩
  | some clazz =>
    have huse := use_held hb₁ List.mem_cons_self
    apply huse.bind
    rintro _ _ rfl
    split
    · apply huse.bind
      rintro _ _ rfl
      apply (getCleanJniObject_ensures classOf hb₁ b).mono
      rintro p t ⟨ht, _⟩
      exact ⟨some clazz, ht, hfinds⟩
    · apply (newNull_ensures hb₁).mono
      rintro p t ⟨ht, _⟩
      exact ⟨some clazz, ht, hfinds⟩

theorem isClassAvailable_ensures (hb : h.Balanced P R) (a : LoadAnswer) :
    Ensures (isClassAvailable classOf a) h fun _ t =>
      ∃ clazz : Option ℕ, t.Balanced P (clazz.toList ++ R) ∧ (clazz.isSome ↔ a.Finds) := by
  apply (loadClass_ensures classOf hb a).bind
  intro clazz t ht
  exact ensures_pure ⟨clazz, ht⟩

theorem isSameObject_ok {jobject : Option ℕ} {obj : Option JObject}
    (hjobject : ∀ r, jobject = some r → h.deletions r = 0) (hobj : ∀ o, obj = some o → Live h o) :
    isSameObject jobject obj h = .ok (jobject.bind h.objectOf = obj.bind (target h), h) := by
  have hown : ∀ o, jobject.map JObject.globalRef = some o → Live h o := by
    intro o ho
    obtain ⟨r, hr, rfl⟩ := Option.map_eq_some_iff.mp ho
    exact hjobject r hr
  have hbind : (jobject.map JObject.globalRef).bind (target h) = jobject.bind h.objectOf := by
    cases jobject <;> rfl
  unfold isSameObject
  rw [bind_ok (referent_ok hown), bind_ok (referent_ok hobj), hbind]
  rfl

/-- The only share of its private data, which alone keeps the reference to be assigned. -/
def Drops (h : JniHeap) (p : ℕ) : Option JObject → Prop
  | some (.globalRef r) => ∃ s ∈ h.private? p, s.useCount = 1 ∧ r ∈ s.data.owned ∧
      s.data.jobject.bind h.objectOf ≠ h.objectOf r
  | _ => False

theorem assign_ensures {obj : Option JObject} (hb : h.Balanced (p :: P) R)
    (hobj : ∀ o, obj = some o → Live h o) (hd : ¬ Drops h p obj) :
    Ensures (assign classOf p obj) h fun q t => t.Balanced (q :: P) R := by
  obtain ⟨s, hs, _⟩ := hb.counted.private List.mem_cons_self
  unfold assign Ensures
  rw [bind_ok (data_ok hs), bind_ok (isSameObject_ok (hb.live_jobject hs) hobj)]
  split
  · exact ensures_pure hb
  · next hsame =>
    apply (release_balanced hb hs).bind
    rintro _ t ⟨ht, hdel⟩
    apply (ofObject_ensures classOf ht _).mono
    · rintro q u ⟨hu, _⟩
      exact hu
    · rintro o rfl
      cases o with
      | outside o => trivial
      | globalRef r =>
        have hlive : h.deletions r = 0 := hobj _ rfl
        change t.deletions r = 0
        rw [hdel, hlive, Nat.zero_add]
        split
        · next hlast =>
          apply List.count_eq_zero.mpr
          intro hr
          exact hd ⟨s, hs, hlast, hr, fun he => hsame (decide_eq_true he)⟩
        · rfl

theorem assign_error {obj : Option JObject} (hb : h.Balanced (p :: P) R)
    (hobj : ∀ o, obj = some o → Live h o) (hd : Drops h p obj) :
    assign classOf p obj h = .error .deletedReference := by
  obtain ⟨s, hs, _⟩ := hb.counted.private List.mem_cons_self
  cases obj with
  | none => exact hd.elim
  | some o =>
    cases o with
    | outside o => exact hd.elim
    | globalRef r =>
      obtain ⟨u, hu, hlast, hr, hne⟩ := hd
      obtain rfl : s = u := Option.some.inj (hs.symm.trans hu)
      obtain ⟨_, t, hrun, ht, hdel⟩ := release_balanced hb hs
      have hgone : t.deletions r ≠ 0 := by
        have hpos := List.count_pos_iff.mpr hr
        rw [hdel, if_pos hlast]
        omega
      unfold assign
      rw [bind_ok (data_ok hs), bind_ok (isSameObject_ok (hb.live_jobject hs) hobj), if_neg,
        bind_ok hrun]
      · exact bind_error (bind_error (object_error hgone) _) _
      · intro he
        exact hne (of_decide_eq_true he)

end Jni

end EnvironmentCheck
