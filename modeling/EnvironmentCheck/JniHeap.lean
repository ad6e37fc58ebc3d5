import EnvironmentCheck.Library.Faulting
import EnvironmentCheck.Library.Tally

namespace EnvironmentCheck

inductive JniFault where
  | deletedReference
  | deletedPrivate
  deriving DecidableEq, Repr

/-- The object it refers to, and how often it has been deleted. -/
structure GlobalRef where
  object : ℕ
  deletions : ℕ
  deriving DecidableEq, Repr

structure QJniObjectPrivate where
  jobject : Option ℕ
  jclass : Option ℕ
  ownJclass : Bool
  deriving DecidableEq, Repr

structure SharedPrivate where
  data : QJniObjectPrivate
  useCount : ℕ
  deriving DecidableEq, Repr

/-- Private data and global references by the order of their creation; the data is `none` once its
last handle is gone. -/
structure JniHeap where
  privates : List (Option SharedPrivate)
  refs : List GlobalRef
  deriving DecidableEq, Repr

abbrev Jni := Faulting JniHeap JniFault

/-- A reference handed to a `QJniObject`: one that others keep, or one of the references here. -/
inductive JObject where
  | outside (object : ℕ)
  | globalRef (r : ℕ)
  deriving DecidableEq, Repr

namespace QJniObjectPrivate

def null : QJniObjectPrivate := ⟨none, none, true⟩

/-- What the destructor deletes. -/
def owned (d : QJniObjectPrivate) : List ℕ :=
  d.jobject.toList ++ if d.ownJclass then d.jclass.toList else []

end QJniObjectPrivate

namespace JniHeap

def deletions (h : JniHeap) (r : ℕ) : ℕ := (h.refs[r]?.map (·.deletions)).getD 1

def deleteGlobalRef (h : JniHeap) (r : ℕ) : JniHeap :=
  { h with refs := h.refs.modify r fun ref => { ref with deletions := ref.deletions + 1 } }

def private? (h : JniHeap) (p : ℕ) : Option SharedPrivate := h.privates[p]?.join

def useCount (h : JniHeap) (p : ℕ) : ℕ := ((h.private? p).map (·.useCount)).getD 0

def objectOf (h : JniHeap) (r : ℕ) : Option ℕ := h.refs[r]?.map (·.object)

end JniHeap

namespace Jni

def object (r : ℕ) : Jni ℕ := fun h =>
  match h.refs[r]? with
  | none => .error .deletedReference
  | some ref => if ref.deletions = 0 then .ok (ref.object, h) else .error .deletedReference

def use : Option ℕ → Jni PUnit
  | none => pure ⟨⟩
  | some r => do
    let _ ← object r

def resolve : JObject → Jni ℕ
  | .outside o => pure o
  | .globalRef r => object r

def newGlobalRef (obj : JObject) : Jni ℕ := do
  let o ← resolve obj
  fun h => .ok (h.refs.length, { h with refs := h.refs ++ [⟨o, 0⟩] })

def newPrivate (d : QJniObjectPrivate) : Jni ℕ := fun h =>
  .ok (h.privates.length, { h with privates := h.privates ++ [some ⟨d, 1⟩] })

def data (p : ℕ) : Jni QJniObjectPrivate := fun h =>
  match h.private? p with
  | none => .error .deletedPrivate
  | some s => .ok (s.data, h)

def retain (p : ℕ) : Jni PUnit := fun h =>
  match h.private? p with
  | none => .error .deletedPrivate
  | some s => .ok (⟨⟩, { h with privates := h.privates.set p (some { s with useCount := s.useCount + 1 }) })

def release (p : ℕ) : Jni PUnit := fun h =>
  match h.private? p with
  | none => .error .deletedPrivate
  | some s =>
    if s.useCount = 1 then
      .ok (⟨⟩, s.data.owned.foldl JniHeap.deleteGlobalRef { h with privates := h.privates.set p none })
    else
      .ok (⟨⟩, { h with privates := h.privates.set p (some { s with useCount := s.useCount - 1 }) })

def referent : Option JObject → Jni (Option ℕ)
  | none => pure none
  | some obj => do
    let o ← resolve obj
    pure (some o)

end Jni

namespace JniHeap

def ownedBy : Option SharedPrivate → List ℕ
  | none => []
  | some s => s.data.owned

def owners (h : JniHeap) (r : ℕ) : ℕ := (h.privates.flatMap ownedBy).count r

/-- `holders` has the private data of each handle, `held` the references that no private data owns.
A reference is owned once, held once, or deleted once. -/
structure Counted (holders held : List ℕ) (h : JniHeap) : Prop where
  uses : ∀ p, h.useCount p = holders.count p
  positive : ∀ s, some s ∈ h.privates → 0 < s.useCount
  refs : ∀ r, h.deletions r + h.owners r + held.count r = 1

structure Balanced (holders held : List ℕ) (h : JniHeap) : Prop where
  counted : h.Counted holders held
  owning : ∀ s, some s ∈ h.privates → s.data.jclass.isSome → s.data.ownJclass = true

variable {h t : JniHeap} {P Q R S : List ℕ} {p q r : ℕ} {s : SharedPrivate}

theorem private?_eq_some : h.private? p = some s ↔ h.privates[p]? = some (some s) := by
  unfold private?
  exact Option.join_eq_some_iff

theorem useCount_of_private (hs : h.private? p = some s) : h.useCount p = s.useCount := by
  rw [useCount, hs]
  rfl

theorem owners_set {x : Option SharedPrivate} (hx : h.privates[p]? = some x) (y : Option SharedPrivate)
    (refs : List GlobalRef) (r : ℕ) :
    owners ⟨h.privates.set p y, refs⟩ r + (ownedBy x).count r = h.owners r + (ownedBy y).count r :=
  count_flatMap_set_add ownedBy hx y r

theorem owned_le_owners (hs : h.private? p = some s) : s.data.owned.count r ≤ h.owners r := by
  have hset := owners_set (private?_eq_some.mp hs) none h.refs r
  simp only [ownedBy, List.count_nil] at hset
  omega

theorem lt_of_deletions_eq_zero (hr : h.deletions r = 0) : r < h.refs.length := by
  by_contra hlt
  rw [deletions, List.getElem?_eq_none (by omega)] at hr
  cases hr

theorem deletions_of_length_le (hr : h.refs.length ≤ r) : h.deletions r = 1 := by
  rw [deletions, List.getElem?_eq_none hr]
  rfl

theorem deletions_append (ref : GlobalRef) (r : ℕ) :
    deletions ⟨h.privates, h.refs ++ [ref]⟩ r =
      if r = h.refs.length then ref.deletions else h.deletions r := by
  unfold deletions
  by_cases hlt : r < h.refs.length
  · rw [List.getElem?_append_left hlt, if_neg (by omega)]
  · by_cases he : r = h.refs.length
    · rw [if_pos he, he, List.getElem?_concat_length]
      rfl
    · rw [if_neg he, List.getElem?_eq_none (by simp; omega), List.getElem?_eq_none (by omega)]

theorem deletions_deleteGlobalRef (hr : r < h.refs.length) (q : ℕ) :
    (h.deleteGlobalRef r).deletions q = h.deletions q + if r = q then 1 else 0 := by
  unfold deletions deleteGlobalRef
  rw [List.getElem?_modify]
  by_cases he : r = q
  · subst he
    rw [List.getElem?_eq_getElem hr]
    simp
  · simp [he]

theorem foldl_privates (rs : List ℕ) (h : JniHeap) (privates : List (Option SharedPrivate)) :
    rs.foldl deleteGlobalRef { h with privates } = { rs.foldl deleteGlobalRef h with privates } := by
  induction rs generalizing h with
  | nil => rfl
  | cons r rs ih => exact ih (h.deleteGlobalRef r)

theorem deletions_foldl {rs : List ℕ} (hrs : ∀ r ∈ rs, r < h.refs.length) (q : ℕ) :
    (rs.foldl deleteGlobalRef h).deletions q = h.deletions q + rs.count q := by
  induction rs generalizing h with
  | nil => rfl
  | cons r rs ih =>
    have hr := hrs r List.mem_cons_self
    rw [List.foldl_cons, ih, deletions_deleteGlobalRef hr, List.count_cons]
    · simp only [beq_iff_eq]
      omega
    · intro q hq
      rw [deleteGlobalRef, List.length_modify]
      exact hrs q (List.mem_cons_of_mem _ hq)

theorem Counted.congr (hc : h.Counted P R) (hP : P.Perm Q) (hR : R.Perm S) : h.Counted Q S := by
  refine ⟨fun p => ?_, hc.positive, fun r => ?_⟩
  · rw [← hP.count_eq]
    exact hc.uses p
  · rw [← hR.count_eq]
    exact hc.refs r

theorem Balanced.congr (hb : h.Balanced P R) (hP : P.Perm Q) (hR : R.Perm S) : h.Balanced Q S :=
  ⟨hb.counted.congr hP hR, hb.owning⟩

theorem Counted.private (hc : h.Counted P R) (hp : p ∈ P) :
    ∃ s, h.private? p = some s ∧ s.useCount = P.count p := by
  have huses := hc.uses p
  have hpos := List.count_pos_iff.mpr hp
  cases hs : h.private? p with
  | none =>
    rw [useCount, hs] at huses
    simp at huses
    omega
  | some s =>
    rw [useCount_of_private hs] at huses
    exact ⟨s, rfl, huses⟩

theorem Counted.live_of_held (hc : h.Counted P R) (hr : r ∈ R) : h.deletions r = 0 := by
  have hone := hc.refs r
  have hpos := List.count_pos_iff.mpr hr
  omega

theorem Counted.live_of_owned (hc : h.Counted P R) (hs : h.private? p = some s)
    (hr : r ∈ s.data.owned) : h.deletions r = 0 := by
  have hone := hc.refs r
  have hle := owned_le_owners (r := r) hs
  have hpos := List.count_pos_iff.mpr hr
  omega

theorem Counted.owners_eq_zero (hc : h.Counted [] R) (r : ℕ) : h.owners r = 0 := by
  have hnil : h.privates.flatMap ownedBy = [] := by
    apply List.flatMap_eq_nil_iff.mpr
    intro x hx
    cases x with
    | none => rfl
    | some s =>
      obtain ⟨p, hp⟩ := List.mem_iff_getElem?.mp hx
      have huses := hc.uses p
      have hpos := hc.positive s hx
      rw [useCount_of_private (private?_eq_some.mpr hp), List.count_nil] at huses
      omega
  rw [owners, hnil, List.count_nil]

theorem Counted.released_iff (hc : h.Counted [] R) :
    (∀ ref ∈ h.refs, ref.deletions = 1) ↔ R = [] := by
  constructor
  · intro hall
    apply List.eq_nil_iff_forall_not_mem.mpr
    intro r hr
    have hlive := hc.live_of_held hr
    have hlt := lt_of_deletions_eq_zero hlive
    have hone := hall h.refs[r] (List.getElem_mem hlt)
    rw [deletions, List.getElem?_eq_getElem hlt, Option.map_some, Option.getD_some, hone] at hlive
    cases hlive
  · rintro rfl ref href
    obtain ⟨r, hr⟩ := List.mem_iff_getElem?.mp href
    have hone := hc.refs r
    rw [hc.owners_eq_zero, deletions, hr, List.count_nil] at hone
    exact hone

theorem Balanced.live_jobject (hb : h.Balanced P R) (hs : h.private? p = some s) :
    ∀ r, s.data.jobject = some r → h.deletions r = 0 := by
  intro r hr
  apply hb.counted.live_of_owned hs
  simp [QJniObjectPrivate.owned, hr]

theorem Balanced.live_jclass (hb : h.Balanced P R) (hs : h.private? p = some s) :
    ∀ r, s.data.jclass = some r → h.deletions r = 0 := by
  intro r hr
  have hown := hb.owning s (List.mem_of_getElem? (private?_eq_some.mp hs)) (by rw [hr]; rfl)
  apply hb.counted.live_of_owned hs
  simp [QJniObjectPrivate.owned, hr, hown]

end JniHeap

namespace Jni

open Faulting JniHeap

variable {h t : JniHeap} {P R : List ℕ} {p q r : ℕ} {s : SharedPrivate} {obj : JObject}
  {d : QJniObjectPrivate}

def Live (h : JniHeap) : JObject → Prop
  | .outside _ => True
  | .globalRef r => h.deletions r = 0

instance (h : JniHeap) : DecidablePred (Live h)
  | .outside _ => .isTrue trivial
  | .globalRef r => inferInstanceAs (Decidable (h.deletions r = 0))

theorem object_ok (hr : h.deletions r = 0) : ∃ o, h.objectOf r = some o ∧ object r h = .ok (o, h) := by
  have hlt := lt_of_deletions_eq_zero hr
  rw [deletions, List.getElem?_eq_getElem hlt] at hr
  refine ⟨h.refs[r].object, ?_, ?_⟩
  · rw [objectOf, List.getElem?_eq_getElem hlt]
    rfl
  · simp only [object, List.getElem?_eq_getElem hlt]
    exact if_pos hr

theorem object_error (hr : h.deletions r ≠ 0) : object r h = .error .deletedReference := by
  unfold object
  cases href : h.refs[r]? with
  | none => rfl
  | some ref =>
    rw [deletions, href] at hr
    exact if_neg hr

theorem use_ensures {o : Option ℕ} (ho : ∀ r, o = some r → h.deletions r = 0) :
    Ensures (use o) h fun _ t => t = h := by
  cases o with
  | none => exact ensures_pure rfl
  | some r =>
    obtain ⟨o, _, hrun⟩ := object_ok (ho r rfl)
    exact ⟨⟨⟩, h, bind_ok hrun _, rfl⟩

def target (h : JniHeap) : JObject → Option ℕ
  | .outside o => some o
  | .globalRef r => h.objectOf r

theorem resolve_ok (hobj : Live h obj) :
    ∃ o, target h obj = some o ∧ resolve obj h = .ok (o, h) := by
  cases obj with
  | outside o => exact ⟨o, rfl, rfl⟩
  | globalRef r => exact object_ok hobj

theorem data_ok (hs : h.private? p = some s) : data p h = .ok (s.data, h) := by
  unfold data
  rw [hs]

theorem live_append (hobj : Live h obj) (ref : GlobalRef) :
    Live ⟨h.privates, h.refs ++ [ref]⟩ obj := by
  cases obj with
  | outside o => trivial
  | globalRef r =>
    have hlt : r < h.refs.length := lt_of_deletions_eq_zero hobj
    change deletions ⟨h.privates, h.refs ++ [ref]⟩ r = 0
    rw [deletions_append, if_neg hlt.ne]
    exact hobj

theorem counted_append (hc : h.Counted P R) (o : ℕ) :
    Counted P (h.refs.length :: R) ⟨h.privates, h.refs ++ [⟨o, 0⟩]⟩ := by
  refine ⟨hc.uses, hc.positive, fun r => ?_⟩
  have hone := hc.refs r
  rw [deletions_append, List.count_cons]
  by_cases he : r = h.refs.length
  · rw [deletions_of_length_le he.ge] at hone
    simp only [he, ↓reduceIte, beq_self_eq_true] at hone ⊢
    change 0 + h.owners h.refs.length + _ = 1
    omega
  · simp only [he, ↓reduceIte, beq_iff_eq, Ne.symm he, Nat.add_zero]
    exact hone

theorem newGlobalRef_ensures (hb : h.Balanced P R) (hobj : Live h obj) :
    Ensures (newGlobalRef obj) h fun r t =>
      t.Balanced P (r :: R) ∧ ∀ other, Live h other → Live t other := by
  obtain ⟨o, _, hrun⟩ := resolve_ok hobj
  refine ⟨h.refs.length, _, bind_ok hrun _, ⟨counted_append hb.counted o, hb.owning⟩, ?_⟩
  intro other hother
  exact live_append hother _

theorem counted_newPrivate (hc : h.Counted P (d.owned ++ R)) :
    Counted (h.privates.length :: P) R ⟨h.privates ++ [some ⟨d, 1⟩], h.refs⟩ := by
  refine ⟨fun p => ?_, fun s hs => ?_, fun r => ?_⟩
  · have huses := hc.uses p
    unfold useCount private? at huses ⊢
    rw [List.count_cons]
    by_cases hlt : p < h.privates.length
    · have hne : h.privates.length ≠ p := by omega
      rw [List.getElem?_append_left hlt]
      simpa [hne] using huses
    · by_cases he : p = h.privates.length
      · subst he
        rw [List.getElem?_eq_none (le_refl _)] at huses
        rw [List.getElem?_concat_length]
        simp at huses ⊢
        omega
      · have hne : h.privates.length ≠ p := Ne.symm he
        rw [List.getElem?_eq_none (by omega)] at huses
        rw [List.getElem?_eq_none (by simp; omega)]
        simpa [hne] using huses
  · cases List.mem_append.mp hs with
    | inl hold => exact hc.positive s hold
    | inr hnew =>
      obtain rfl := Option.some.inj (List.mem_singleton.mp hnew)
      exact Nat.one_pos
  · have hone := hc.refs r
    rw [List.count_append] at hone
    have howners : owners ⟨h.privates ++ [some ⟨d, 1⟩], h.refs⟩ r = h.owners r + d.owned.count r := by
      simp [owners, ownedBy]
    have hdel : deletions ⟨h.privates ++ [some ⟨d, 1⟩], h.refs⟩ r = h.deletions r := rfl
    omega

theorem newPrivate_ok (hc : h.Counted P (d.owned ++ R)) :
    Ensures (newPrivate d) h fun p t => t.Counted (p :: P) R := by
  exact ⟨_, _, rfl, counted_newPrivate hc⟩

theorem newPrivate_ensures (hb : h.Balanced P (d.owned ++ R))
    (hown : d.jclass.isSome → d.ownJclass = true) :
    Ensures (newPrivate d) h fun p t =>
      t.Balanced (p :: P) R ∧ t.private? p = some ⟨d, 1⟩ := by
  refine ⟨_, _, rfl, ⟨counted_newPrivate hb.counted, fun s hs => ?_⟩, ?_⟩
  · cases List.mem_append.mp hs with
    | inl hold => exact hb.owning s hold
    | inr hnew =>
      obtain rfl := Option.some.inj (List.mem_singleton.mp hnew)
      exact hown
  · rw [private?_eq_some]
    exact List.getElem?_concat_length

theorem newNull_ensures (hb : h.Balanced P R) :
    Ensures (newPrivate .null) h fun p t =>
      t.Balanced (p :: P) R ∧ t.private? p = some ⟨.null, 1⟩ := by
  apply newPrivate_ensures hb
  intro hnone
  cases hnone

theorem counted_set (hc : h.Counted P R) (hs : h.private? p = some s) {x : Option SharedPrivate}
    {n : ℕ} (hx : x.map (·.useCount) = if n = 0 then none else some n)
    (hP : ∀ q, Q.count q = if q = p then n else P.count q) (refs : List GlobalRef)
    (hrefs : ∀ r, deletions ⟨h.privates, refs⟩ r + (ownedBy x).count r =
      h.deletions r + s.data.owned.count r) :
    Counted Q R ⟨h.privates.set p x, refs⟩ := by
  have hmem := private?_eq_some.mp hs
  have hlt := (List.getElem?_eq_some_iff.mp hmem).1
  refine ⟨fun q => ?_, fun u hu => ?_, fun r => ?_⟩
  · rw [hP]
    unfold useCount private?
    by_cases he : q = p
    · subst he
      rw [List.getElem?_set_self hlt, if_pos rfl]
      change (x.map (·.useCount)).getD 0 = n
      rw [hx]
      split
      · next hzero => exact hzero.symm
      · rfl
    · rw [List.getElem?_set_ne (Ne.symm he), if_neg he]
      exact hc.uses q
  · cases List.mem_or_eq_of_mem_set hu with
    | inl hold => exact hc.positive u hold
    | inr hnew =>
      subst hnew
      simp only [Option.map_some] at hx
      split at hx
      · cases hx
      · next hne =>
        have hn : u.useCount = n := Option.some.inj hx
        omega
  · have hone := hc.refs r
    have hset := owners_set hmem x refs r
    have hdel : deletions ⟨h.privates.set p x, refs⟩ r = deletions ⟨h.privates, refs⟩ r := rfl
    have hr := hrefs r
    change _ + s.data.owned.count r = _ at hset
    omega

theorem count_tail (P : List ℕ) (p q : ℕ) :
    P.count q = if q = p then P.count p else (p :: P).count q := by
  by_cases he : q = p
  · rw [if_pos he, he]
  · rw [if_neg he, List.count_cons_of_ne (Ne.symm he)]

theorem release_ok (hc : h.Counted (p :: P) R) (hs : h.private? p = some s) :
    Ensures (release p) h fun _ t => t.Counted P R ∧
      (∀ u, some u ∈ t.privates → ∃ v, some v ∈ h.privates ∧ v.data = u.data) ∧
      ∀ r, t.deletions r = h.deletions r + if s.useCount = 1 then s.data.owned.count r else 0 := by
  have hmem := private?_eq_some.mp hs
  have huse := hc.uses p
  rw [useCount_of_private hs, List.count_cons_self] at huse
  simp only [Ensures, release, hs]
  by_cases hlast : s.useCount = 1
  · have hrs : ∀ r ∈ s.data.owned, r < h.refs.length := by
      intro r hr
      exact lt_of_deletions_eq_zero (hc.live_of_owned hs hr)
    have hdel := deletions_foldl hrs
    simp only [if_pos hlast, foldl_privates]
    refine ⟨_, _, rfl, ?_, fun u hu => ?_, hdel⟩
    · apply counted_set hc hs (n := 0) rfl
      · intro q
        rw [count_tail P p q]
        have hzero : P.count p = 0 := by omega
        rw [hzero]
      · intro r
        exact hdel r
    · cases List.mem_or_eq_of_mem_set hu with
      | inl hold => exact ⟨u, hold, rfl⟩
      | inr hnew => cases hnew
  · simp only [if_neg hlast]
    refine ⟨_, _, rfl, ?_, fun u hu => ?_, fun r => rfl⟩
    · apply counted_set hc hs (n := P.count p)
      · rw [if_neg (by omega)]
        simp only [Option.map_some, Option.some.injEq]
        omega
      · exact count_tail P p
      · intro r
        rfl
    · cases List.mem_or_eq_of_mem_set hu with
      | inl hold => exact ⟨u, hold, rfl⟩
      | inr hnew =>
        obtain rfl := Option.some.inj hnew
        exact ⟨s, List.mem_of_getElem? hmem, rfl⟩

theorem release_counted (hc : h.Counted (p :: P) R) :
    Ensures (release p) h fun _ t => t.Counted P R := by
  obtain ⟨s, hs, _⟩ := hc.private List.mem_cons_self
  exact (release_ok hc hs).mono fun _ t ht => ht.1

theorem release_balanced (hb : h.Balanced (p :: P) R) (hs : h.private? p = some s) :
    Ensures (release p) h fun _ t => t.Balanced P R ∧
      ∀ r, t.deletions r = h.deletions r + if s.useCount = 1 then s.data.owned.count r else 0 := by
  apply (release_ok hb.counted hs).mono
  rintro _ t ⟨hc, hdata, hdel⟩
  refine ⟨⟨hc, fun u hu hclass => ?_⟩, hdel⟩
  obtain ⟨v, hv, he⟩ := hdata u hu
  rw [← he] at hclass ⊢
  exact hb.owning v hv hclass

theorem release_ensures (hb : h.Balanced (p :: P) R) :
    Ensures (release p) h fun _ t => t.Balanced P R := by
  obtain ⟨s, hs, _⟩ := hb.counted.private List.mem_cons_self
  exact (release_balanced hb hs).mono fun _ t ht => ht.1

theorem retain_ensures (hb : h.Balanced P R) (hp : p ∈ P) :
    Ensures (retain p) h fun _ t => t.Balanced (p :: P) R := by
  obtain ⟨s, hs, huse⟩ := hb.counted.private hp
  have hmem := private?_eq_some.mp hs
  simp only [Ensures, retain, hs]
  refine ⟨_, _, rfl, ?_, fun u hu => ?_⟩
  · apply counted_set hb.counted hs (n := s.useCount + 1) rfl
    · intro q
      rw [List.count_cons]
      by_cases he : q = p
      · subst he
        simp [huse]
      · simp [he, Ne.symm he]
    · intro r
      rfl
  · cases List.mem_or_eq_of_mem_set hu with
    | inl hold => exact hb.owning u hold
    | inr hnew =>
      obtain rfl := Option.some.inj hnew
      exact hb.owning s (List.mem_of_getElem? hmem)

theorem live_outside {o : Option ℕ} : ∀ obj, o.map JObject.outside = some obj → Live h obj := by
  intro obj ho
  obtain ⟨x, _, rfl⟩ := Option.map_eq_some_iff.mp ho
  trivial

theorem referent_ok {obj : Option JObject} (hobj : ∀ o, obj = some o → Live h o) :
    referent obj h = .ok (obj.bind (target h), h) := by
  cases obj with
  | none => rfl
  | some o =>
    obtain ⟨x, hx, hrun⟩ := resolve_ok (hobj o rfl)
    rw [Option.bind_some, hx]
    exact bind_ok hrun _

end Jni

end EnvironmentCheck
