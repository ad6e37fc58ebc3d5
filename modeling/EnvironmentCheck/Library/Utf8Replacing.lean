import EnvironmentCheck.Library.Utf16

namespace EnvironmentCheck

namespace Utf8Replacing

open Utf16

def replacement : Char := '\uFFFD'

/-- A character that is not complete: the bytes it still needs, the bounds of the next one, and the
bits that are read. -/
structure Pending where
  owed : ℕ
  low : ℕ
  high : ℕ
  value : ℕ

def first (b : ℕ) : Option Pending :=
  if 0xC2 ≤ b ∧ b ≤ 0xDF then some ⟨1, 0x80, 0xBF, b - 0xC0⟩
  else if b = 0xE0 then some ⟨2, 0xA0, 0xBF, 0⟩
  else if 0xE1 ≤ b ∧ b ≤ 0xEF then some ⟨2, 0x80, if b = 0xED then 0x9F else 0xBF, b - 0xE0⟩
  else if b = 0xF0 then some ⟨3, 0x90, 0xBF, 0⟩
  else if 0xF1 ≤ b ∧ b ≤ 0xF4 then some ⟨3, 0x80, if b = 0xF4 then 0x8F else 0xBF, b - 0xF0⟩
  else none

/-- A byte between characters. -/
def opening (b : ℕ) : List Char × Option Pending :=
  if b < 0x80 then ([Char.ofNat b], none)
  else match first b with
    | some p => ([], some p)
    | none => ([replacement], none)

def step (s : Option Pending) (b : ℕ) : List Char × Option Pending :=
  match s with
  | none => opening b
  | some p =>
    if p.low ≤ b ∧ b ≤ p.high then
      if p.owed = 1 then ([Char.ofNat (p.value * 64 + (b - 0x80))], none)
      else ([], some ⟨p.owed - 1, 0x80, 0xBF, p.value * 64 + (b - 0x80)⟩)
    else (replacement :: (opening b).1, (opening b).2)

def decodeFrom (s : Option Pending) : List UInt8 → List Char
  | [] => if s.isSome then [replacement] else []
  | b :: bs => (step s b.toNat).1 ++ decodeFrom (step s b.toNat).2 bs

/-- UTF-8 that replaces each part of a character, and each byte of none, by one mark. -/
def decode (bs : List UInt8) : List Char :=
  decodeFrom none bs

def feed (s : Option Pending) : List UInt8 → List Char × Option Pending
  | [] => ([], s)
  | b :: bs =>
    ((step s b.toNat).1 ++ (feed (step s b.toNat).2 bs).1, (feed (step s b.toNat).2 bs).2)

theorem decodeFrom_append (s : Option Pending) (bs cs : List UInt8) :
    decodeFrom s (bs ++ cs) = (feed s bs).1 ++ decodeFrom (feed s bs).2 cs := by
  induction bs generalizing s with
  | nil => rfl
  | cons b bs ih =>
    rw [List.cons_append, decodeFrom, ih, feed, List.append_assoc]

/-! ### Characters -/

def IsContinuation (b : UInt8) : Prop :=
  0x80 ≤ b.toNat ∧ b.toNat ≤ 0xBF

instance (b : UInt8) : Decidable (IsContinuation b) :=
  inferInstanceAs (Decidable (_ ∧ _))

theorem step_continuation {b : UInt8} (h : IsContinuation b) :
    step none b.toNat = ([replacement], none) := by
  obtain ⟨hlow, hhigh⟩ := h
  have hnone : first b.toNat = none := by
    unfold first
    split_ifs <;> first | omega | rfl
  rw [step, opening, if_neg (by omega), hnone]

theorem step_first {b : ℕ} {p : Pending} (h : first b = some p) : step none b = ([], some p) := by
  have hlow : ¬ b < 0x80 := by
    intro hlt
    unfold first at h
    split_ifs at h <;> omega
  rw [step, opening, if_neg hlow, h]

theorem step_within {p : Pending} {b : ℕ} (hlow : p.low ≤ b) (hhigh : b ≤ p.high)
    (howed : p.owed ≠ 1) :
    step (some p) b = ([], some ⟨p.owed - 1, 0x80, 0xBF, p.value * 64 + (b - 0x80)⟩) := by
  rw [step, if_pos ⟨hlow, hhigh⟩, if_neg howed]

theorem step_last {p : Pending} {b : ℕ} (hlow : p.low ≤ b) (hhigh : b ≤ p.high)
    (howed : p.owed = 1) :
    step (some p) b = ([Char.ofNat (p.value * 64 + (b - 0x80))], none) := by
  rw [step, if_pos ⟨hlow, hhigh⟩, if_pos howed]

/-- These bytes are what is left of a character, and no fewer of them complete it. -/
def Awaits (p : Pending) (l : List UInt8) (c : Char) : Prop :=
  feed (some p) l = ([c], none) ∧
    ∀ q, q <+: l → q ≠ l → ∃ p', feed (some p) q = ([], some p')

theorem awaits_last {p : Pending} {b : UInt8} {c : Char} (howed : p.owed = 1)
    (hlow : p.low ≤ b.toNat) (hhigh : b.toNat ≤ p.high)
    (hc : Char.ofNat (p.value * 64 + (b.toNat - 0x80)) = c) : Awaits p [b] c := by
  constructor
  · rw [feed, feed, step_last hlow hhigh howed, hc]
    rfl
  · intro q hq hne
    obtain rfl | ⟨t, rfl, ht⟩ := List.prefix_cons_iff.mp hq
    · exact ⟨p, rfl⟩
    · rw [List.prefix_nil.mp ht] at hne
      exact absurd rfl hne

theorem awaits_cons {p p' : Pending} {b : UInt8} {l : List UInt8} {c : Char}
    (hstep : step (some p) b.toNat = ([], some p')) (h : Awaits p' l c) : Awaits p (b :: l) c := by
  obtain ⟨hfeed, hfront⟩ := h
  constructor
  · rw [feed, hstep, hfeed]
    rfl
  · intro q hq hne
    obtain rfl | ⟨t, rfl, ht⟩ := List.prefix_cons_iff.mp hq
    · exact ⟨p, rfl⟩
    · obtain ⟨p'', hp''⟩ := hfront t ht (fun heq => hne (by rw [heq]))
      exact ⟨p'', by rw [feed, hstep, hp'']; rfl⟩

/-- The bytes of a character give it, and fewer of them give nothing yet. -/
structure Encodes (l : List UInt8) (c : Char) : Prop where
  whole : feed none l = ([c], none)
  part : ∀ q, q <+: l → q ≠ [] → q ≠ l → ∃ p, feed none q = ([], some p)

theorem encodes_of_first {p : Pending} {b : UInt8} {l : List UInt8} {c : Char}
    (hfirst : first b.toNat = some p) (h : Awaits p l c) : Encodes (b :: l) c := by
  obtain ⟨hfeed, hfront⟩ := h
  constructor
  · rw [feed, step_first hfirst, hfeed]
    rfl
  · intro q hq hnil hne
    obtain rfl | ⟨t, rfl, ht⟩ := List.prefix_cons_iff.mp hq
    · exact absurd rfl hnil
    · obtain ⟨p'', hp''⟩ := hfront t ht (fun heq => hne (by rw [heq]))
      exact ⟨p'', by rw [feed, step_first hfirst, hp'']; rfl⟩

theorem first_two {b v : ℕ} (hv : 0x7F < v ∧ v ≤ 0x7FF) (hb : b = v / 64 % 0x20 + 0xC0) :
    first b = some ⟨1, 0x80, 0xBF, v / 64⟩ := by
  have hvalue : b - 0xC0 = v / 64 := by omega
  rw [first, if_pos (by omega), hvalue]

/-- The first byte of a character of three bytes bounds the second one. -/
theorem first_three {b b' v : ℕ} (hv : 0x7FF < v ∧ v ≤ 0xFFFF) (hvalid : v < 0xD800 ∨ 0xDFFF < v)
    (hb : b = v / 4096 % 0x10 + 0xE0) (hb' : b' = v / 64 % 0x40 + 0x80) :
    ∃ p, first b = some p ∧ p.owed = 2 ∧ p.value = v / 4096 ∧ p.low ≤ b' ∧ b' ≤ p.high := by
  unfold first
  rw [if_neg (by omega)]
  split_ifs <;> first
    | exact ⟨_, rfl, rfl, by dsimp only; omega, by dsimp only; omega, by dsimp only; omega⟩
    | omega

theorem first_four {b b' v : ℕ} (hv : 0xFFFF < v ∧ v < 0x110000)
    (hb : b = v / 262144 % 0x08 + 0xF0) (hb' : b' = v / 4096 % 0x40 + 0x80) :
    ∃ p, first b = some p ∧ p.owed = 3 ∧ p.value = v / 262144 ∧ p.low ≤ b' ∧ b' ≤ p.high := by
  unfold first
  rw [if_neg (by omega), if_neg (by omega), if_neg (by omega)]
  split_ifs <;> first
    | exact ⟨_, rfl, rfl, by dsimp only; omega, by dsimp only; omega, by dsimp only; omega⟩
    | omega

theorem encodes (c : Char) : Encodes (String.utf8EncodeChar c) c := by
  have hvalid := valid_toNat c
  have htail (n : ℕ) : (UInt8.ofNat (n % 0x40 + 0x80)).toNat = n % 0x40 + 0x80 :=
    uint8_toNat (by omega)
  have hbounds (n : ℕ) : IsContinuation (UInt8.ofNat (n % 0x40 + 0x80)) := by
    rw [IsContinuation, htail]
    omega
  unfold String.utf8EncodeChar
  simp only
  split_ifs with h1 h2 h3
  · constructor
    · rw [feed, feed, step, opening, uint8_toNat (by omega), if_pos (by omega),
        ofNat_val c rfl]
      rfl
    · intro q hq hnil hne
      obtain rfl | ⟨t, rfl, ht⟩ := List.prefix_cons_iff.mp hq
      · exact absurd rfl hnil
      · rw [List.prefix_nil.mp ht] at hne
        exact absurd rfl hne
  · apply encodes_of_first (first_two ⟨by omega, h2⟩ (uint8_toNat (by omega)))
    apply awaits_last rfl (hbounds _).1 (hbounds _).2
    apply ofNat_val
    rw [htail]
    dsimp only
    omega
  · obtain ⟨p, hfirst, howed, hvalue, hlow, hhigh⟩ :=
      first_three ⟨by omega, h3⟩ (by omega) (uint8_toNat (by omega)) (htail (c.val.toNat / 64))
    apply encodes_of_first hfirst
    apply awaits_cons (step_within hlow hhigh (by omega))
    apply awaits_last (by dsimp only; omega) (hbounds _).1 (hbounds _).2
    apply ofNat_val
    rw [htail, htail, hvalue]
    dsimp only
    omega
  · obtain ⟨p, hfirst, howed, hvalue, hlow, hhigh⟩ :=
      first_four ⟨by omega, by omega⟩ (uint8_toNat (by omega)) (htail (c.val.toNat / 4096))
    apply encodes_of_first hfirst
    apply awaits_cons (step_within hlow hhigh (by omega))
    apply awaits_cons (step_within (hbounds _).1 (hbounds _).2 (by dsimp only; omega))
    apply awaits_last (by dsimp only; omega) (hbounds _).1 (hbounds _).2
    apply ofNat_val
    rw [htail, htail, htail, hvalue]
    dsimp only
    omega

theorem decode_nil : decode [] = [] :=
  rfl

theorem decode_char_append (c : Char) (bs : List UInt8) :
    decode (String.utf8EncodeChar c ++ bs) = c :: decode bs := by
  rw [decode, decodeFrom_append, (encodes c).whole]
  rfl

theorem decode_utf8_append (cs : List Char) (bs : List UInt8) :
    decode (utf8 cs ++ bs) = cs ++ decode bs := by
  induction cs with
  | nil => rfl
  | cons c cs ih =>
    rw [utf8, List.flatMap_cons, List.append_assoc, decode_char_append]
    exact congrArg (c :: ·) ih

theorem decode_utf8 (cs : List Char) : decode (utf8 cs) = cs := by
  have happend := decode_utf8_append cs []
  rwa [List.append_nil, decode_nil, List.append_nil] at happend

theorem decode_part {c : Char} {q : List UInt8} (hq : q <+: String.utf8EncodeChar c)
    (hnil : q ≠ []) (hne : q ≠ String.utf8EncodeChar c) : decode q = [replacement] := by
  obtain ⟨p, hp⟩ := (encodes c).part q hq hnil hne
  have happend := decodeFrom_append none q []
  rw [List.append_nil, hp] at happend
  exact happend

theorem decode_continuation {b : UInt8} (h : IsContinuation b) (bs : List UInt8) :
    decode (b :: bs) = replacement :: decode bs := by
  rw [decode, decodeFrom, step_continuation h]
  rfl

theorem continuation_of_mem_tail {c : Char} {b : UInt8} (h : b ∈ (String.utf8EncodeChar c).tail) :
    IsContinuation b := by
  have hbounds (n : ℕ) : IsContinuation (UInt8.ofNat (n % 0x40 + 0x80)) := by
    rw [IsContinuation, uint8_toNat (by omega)]
    omega
  unfold String.utf8EncodeChar at h
  simp only at h
  split_ifs at h
  · cases h
  · simp only [List.tail_cons, List.mem_cons, List.not_mem_nil, or_false] at h
    rw [h]
    exact hbounds _
  · simp only [List.tail_cons, List.mem_cons, List.not_mem_nil, or_false] at h
    obtain rfl | rfl := h
    · exact hbounds _
    · exact hbounds _
  · simp only [List.tail_cons, List.mem_cons, List.not_mem_nil, or_false] at h
    obtain rfl | rfl | rfl := h
    · exact hbounds _
    · exact hbounds _
    · exact hbounds _

theorem not_continuation_of_head {c : Char} {b : UInt8}
    (h : b ∈ (String.utf8EncodeChar c).head?) : ¬ IsContinuation b := by
  have hvalid := valid_toNat c
  unfold String.utf8EncodeChar at h
  simp only at h
  split_ifs at h
  all_goals
    cases h
    rw [IsContinuation, uint8_toNat (by omega)]
    omega

/-! ### ASCII -/

/-- Every character that the pending one may become has at least this number. -/
def least (p : Pending) : ℕ :=
  (p.value * 64 + (p.low - 0x80)) * 64 ^ (p.owed - 1)

/-- A pending character is not ASCII, and no ASCII byte belongs to it. -/
def Wide (s : Option Pending) : Prop :=
  ∀ p ∈ s, 0x80 ≤ p.low ∧ 0x80 ≤ least p

theorem wide_opening (b : ℕ) : Wide (opening b).2 := by
  unfold opening
  split
  · rintro p ⟨⟩
  · split
    · next p hfirst =>
      rintro _ ⟨⟩
      unfold first at hfirst
      split_ifs at hfirst
      all_goals
        cases hfirst
        simp only [least]
        omega
    · rintro p ⟨⟩

theorem least_within {p : Pending} {b : ℕ} (hlow : p.low ≤ b) (howed : p.owed ≠ 1)
    (h : 0x80 ≤ least p) :
    0x80 ≤ least ⟨p.owed - 1, 0x80, 0xBF, p.value * 64 + (b - 0x80)⟩ := by
  have hvalue : p.value * 64 + (p.low - 0x80) ≤ p.value * 64 + (b - 0x80) := by omega
  rw [least] at h ⊢
  dsimp only
  match ho : p.owed with
  | 0 =>
    rw [ho] at h
    omega
  | 1 => exact absurd ho howed
  | k + 2 =>
    rw [ho] at h
    have hpow : k + 2 - 1 - 1 = k := rfl
    have hpow' : k + 2 - 1 = k + 1 := rfl
    rw [hpow', Nat.pow_succ'] at h
    rw [hpow, Nat.sub_self, Nat.add_zero, Nat.mul_assoc]
    exact h.trans (Nat.mul_le_mul_right _ hvalue)

theorem wide_step {s : Option Pending} (hs : Wide s) (b : ℕ) : Wide (step s b).2 := by
  cases s with
  | none => exact wide_opening b
  | some p =>
    obtain ⟨_, hleast⟩ := hs p rfl
    unfold step
    dsimp only
    split
    · next hbounds =>
      split
      · rintro p ⟨⟩
      · next howed =>
        rintro _ ⟨⟩
        exact ⟨Nat.le_refl _, least_within hbounds.1 howed hleast⟩
    · exact wide_opening b

/-- An ASCII byte ends what is pending. -/
theorem step_ascii {s : Option Pending} (hs : Wide s) {b : ℕ} (hb : b < 0x80) :
    step s b = ((if s.isSome then [replacement] else []) ++ [Char.ofNat b], none) := by
  have hopening : opening b = ([Char.ofNat b], none) := if_pos hb
  cases s with
  | none => exact hopening
  | some p =>
    obtain ⟨hlow, _⟩ := hs p rfl
    rw [step, if_neg (by omega), hopening]
    rfl

theorem decodeFrom_append_ascii {s : Option Pending} (hs : Wide s) (xs : List UInt8) {b : UInt8}
    (hb : b.toNat < 0x80) (bs : List UInt8) :
    decodeFrom s (xs ++ b :: bs) = decodeFrom s xs ++ Char.ofNat b.toNat :: decode bs := by
  induction xs generalizing s with
  | nil =>
    change (step s b.toNat).1 ++ decodeFrom (step s b.toNat).2 bs = _
    rw [step_ascii hs hb, List.append_assoc]
    rfl
  | cons x xs ih =>
    change (step s x.toNat).1 ++ decodeFrom (step s x.toNat).2 (xs ++ b :: bs) =
      (step s x.toNat).1 ++ decodeFrom (step s x.toNat).2 xs ++ _
    rw [ih (wide_step hs x.toNat), List.append_assoc]

theorem wide_none : Wide none := by
  rintro p ⟨⟩

theorem decode_append_ascii (xs : List UInt8) {b : UInt8} (hb : b.toNat < 0x80)
    (bs : List UInt8) :
    decode (xs ++ b :: bs) = decode xs ++ Char.ofNat b.toNat :: decode bs :=
  decodeFrom_append_ascii wide_none xs hb bs

theorem decode_ascii {bs : List UInt8} (h : ∀ b ∈ bs, b.toNat < 0x80) (cs : List UInt8) :
    decode (bs ++ cs) = bs.map (fun b => Char.ofNat b.toNat) ++ decode cs := by
  induction bs with
  | nil => rfl
  | cons b bs ih =>
    have hb := decode_append_ascii [] (h b List.mem_cons_self) (bs ++ cs)
    rw [List.nil_append, decode_nil, List.nil_append] at hb
    rw [List.cons_append, hb, ih fun x hx => h x (List.mem_cons_of_mem b hx)]
    rfl

theorem ofNat_ne {n : ℕ} (hn : 0x80 ≤ n) {c : Char} (hc : c.toNat < 0x80) (h0 : c ≠ '\x00') :
    Char.ofNat n ≠ c := by
  rintro rfl
  by_cases hvalid : n.isValidChar
  · have hn' : (Char.ofNat n).toNat = n := toNat_val_ofNat hvalid
    rw [hn'] at hc
    omega
  · apply h0
    rw [Char.ofNat, dif_neg hvalid]
    rfl

theorem replacement_ne {c : Char} (hc : c.toNat < 0x80) : c ≠ replacement := by
  rintro rfl
  revert hc
  decide

theorem mem_opening {b : ℕ} {c : Char} (hc : c.toNat < 0x80) (h : c ∈ (opening b).1) :
    b = c.toNat := by
  unfold opening at h
  split at h
  · next hb =>
    rw [List.mem_singleton.mp h]
    exact (toNat_val_ofNat (Or.inl (by omega))).symm
  · split at h
    · cases h
    · exact absurd (List.mem_singleton.mp h) (replacement_ne hc)

theorem mem_step {s : Option Pending} (hs : Wide s) {b : ℕ} {c : Char} (hc : c.toNat < 0x80)
    (h0 : c ≠ '\x00') (h : c ∈ (step s b).1) : b = c.toNat := by
  cases s with
  | none => exact mem_opening hc h
  | some p =>
    obtain ⟨hlow, hleast⟩ := hs p rfl
    unfold step at h
    dsimp only at h
    split at h
    · next hbounds =>
      split at h
      · next howed =>
        rw [least, howed] at hleast
        have hn : 0x80 ≤ p.value * 64 + (b - 0x80) := by omega
        exact absurd (List.mem_singleton.mp h).symm (ofNat_ne hn hc h0)
      · cases h
    · obtain hmark | hopening := List.mem_cons.mp h
      · exact absurd hmark (replacement_ne hc)
      · exact mem_opening hc hopening

theorem mem_of_mem_decodeFrom {s : Option Pending} (hs : Wide s) {bs : List UInt8} {c : Char}
    (hc : c.toNat < 0x80) (h0 : c ≠ '\x00') (h : c ∈ decodeFrom s bs) :
    ∃ b ∈ bs, b.toNat = c.toNat := by
  induction bs generalizing s with
  | nil =>
    rw [decodeFrom] at h
    split at h
    · exact absurd (List.mem_singleton.mp h) (replacement_ne hc)
    · cases h
  | cons b bs ih =>
    rw [decodeFrom] at h
    obtain hhead | htail := List.mem_append.mp h
    · exact ⟨b, List.mem_cons_self, mem_step hs hc h0 hhead⟩
    · obtain ⟨x, hx, hxc⟩ := ih (wide_step hs b.toNat) htail
      exact ⟨x, List.mem_cons_of_mem b hx, hxc⟩

theorem mem_of_mem_decode {bs : List UInt8} {c : Char} (hc : c.toNat < 0x80) (h0 : c ≠ '\x00')
    (h : c ∈ decode bs) : ∃ b ∈ bs, b.toNat = c.toNat :=
  mem_of_mem_decodeFrom wide_none hc h0 h

/-! ### Pieces of a text -/

theorem utf8_cons (c : Char) (cs : List Char) :
    utf8 (c :: cs) = String.utf8EncodeChar c ++ utf8 cs :=
  List.flatMap_cons

theorem utf8_append (cs ds : List Char) : utf8 (cs ++ ds) = utf8 cs ++ utf8 ds :=
  List.flatMap_append

/-- A cut falls between two characters or into one. -/
theorem cut_utf8 {bs cs : List UInt8} {t : List Char} (h : bs ++ cs = utf8 t) :
    ∃ t₁ t₂ p, t = t₁ ++ t₂ ∧ bs = utf8 t₁ ++ p ∧ ((p = [] ∧ cs = utf8 t₂) ∨
      ∃ c t₃ q, t₂ = c :: t₃ ∧ String.utf8EncodeChar c = p ++ q ∧ p ≠ [] ∧ q ≠ [] ∧
        cs = q ++ utf8 t₃) := by
  induction t generalizing bs with
  | nil =>
    obtain ⟨rfl, rfl⟩ := List.append_eq_nil_iff.mp h
    exact ⟨[], [], [], rfl, rfl, Or.inl ⟨rfl, rfl⟩⟩
  | cons c t ih =>
    rw [utf8_cons] at h
    obtain ⟨a, ha, hcs⟩ | ⟨a, hbs, ha⟩ := List.append_eq_append_iff.mp h
    · obtain rfl | hbs := eq_or_ne bs []
      · refine ⟨[], c :: t, [], rfl, rfl, Or.inl ⟨rfl, ?_⟩⟩
        rw [hcs, utf8_cons, ha, List.nil_append]
      · obtain rfl | hne := eq_or_ne a []
        · rw [List.append_nil] at ha
          refine ⟨[c], t, [], rfl, ?_, Or.inl ⟨rfl, hcs⟩⟩
          rw [← ha, List.append_nil]
          exact (List.append_nil _).symm
        · exact ⟨[], c :: t, bs, rfl, rfl, Or.inr ⟨c, t, a, rfl, ha, hbs, hne, hcs⟩⟩
    · obtain ⟨t₁, t₂, p, rfl, ha', hcut⟩ := ih ha.symm
      refine ⟨c :: t₁, t₂, p, rfl, ?_, hcut⟩
      rw [hbs, ha', utf8_cons, List.append_assoc]

theorem continuation_of_suffix {c : Char} {p q : List UInt8}
    (h : String.utf8EncodeChar c = p ++ q) (hp : p ≠ []) : ∀ b ∈ q, IsContinuation b := by
  intro b hb
  apply continuation_of_mem_tail (c := c)
  rw [h, List.tail_append_of_ne_nil hp]
  exact List.mem_append_right _ hb

theorem decode_continuations {q : List UInt8} (hq : ∀ b ∈ q, IsContinuation b) (bs : List UInt8) :
    decode (q ++ bs) = List.replicate q.length replacement ++ decode bs := by
  induction q with
  | nil => rfl
  | cons b q ih =>
    obtain ⟨hb, hq⟩ := List.forall_mem_cons.mp hq
    rw [List.cons_append, decode_continuation hb, ih hq]
    rfl

/-- A reading of a text that stops early, loses characters to the mark and adds marks. -/
inductive Garbled : List Char → List Char → Prop
  | unread (t : List Char) : Garbled t []
  | keep (c : Char) {t out : List Char} (h : Garbled t out) : Garbled (c :: t) (c :: out)
  | lose (c : Char) {t out : List Char} (h : Garbled t out) : Garbled (c :: t) (replacement :: out)
  | add {t out : List Char} (h : Garbled t out) : Garbled t (replacement :: out)

theorem Garbled.keepAll {t out : List Char} (cs : List Char) (h : Garbled t out) :
    Garbled (cs ++ t) (cs ++ out) := by
  induction cs with
  | nil => exact h
  | cons c cs ih => exact .keep c ih

theorem Garbled.addAll {t out : List Char} (n : ℕ) (h : Garbled t out) :
    Garbled t (List.replicate n replacement ++ out) := by
  induction n with
  | zero => exact h
  | succ n ih => exact .add ih

/-- What is read at a place stands in the text there or earlier. -/
theorem Garbled.getElem {t out : List Char} (h : Garbled t out) {i : ℕ} {x : Char}
    (hx : out[i]? = some x) : x = replacement ∨ ∃ j ≤ i, t[j]? = some x := by
  induction h generalizing i with
  | unread t => cases hx
  | keep c h ih =>
    cases i with
    | zero => exact Or.inr ⟨0, Nat.le_refl 0, hx⟩
    | succ i =>
      obtain h | ⟨j, hj, h⟩ := ih hx
      · exact Or.inl h
      · exact Or.inr ⟨j + 1, Nat.succ_le_succ hj, h⟩
  | lose c h ih =>
    cases i with
    | zero => exact Or.inl (Option.some.inj hx).symm
    | succ i =>
      obtain h | ⟨j, hj, h⟩ := ih hx
      · exact Or.inl h
      · exact Or.inr ⟨j + 1, Nat.succ_le_succ hj, h⟩
  | add h ih =>
    cases i with
    | zero => exact Or.inl (Option.some.inj hx).symm
    | succ i =>
      obtain h | ⟨j, hj, h⟩ := ih hx
      · exact Or.inl h
      · exact Or.inr ⟨j, Nat.le_succ_of_le hj, h⟩

/-- A text that a mark in front does not change is made of marks. -/
theorem Garbled.eq_replacement {t out : List Char} (h : Garbled t out)
    (ht : t = replacement :: out) : ∀ x ∈ t, x = replacement := by
  have hat (i : ℕ) : ∀ x, t[i]? = some x → x = replacement := by
    induction i using Nat.strong_induction_on with
    | _ i ih =>
      intro x hx
      rw [ht] at hx
      cases i with
      | zero => exact (Option.some.inj hx).symm
      | succ i =>
        obtain hx | ⟨j, hj, hx⟩ := h.getElem hx
        · exact hx
        · exact ih j (Nat.lt_succ_of_le hj) x hx
  intro x hx
  obtain ⟨i, hi⟩ := List.mem_iff_getElem?.mp hx
  exact hat i x hi

theorem Garbled.of_replacement {t out : List Char} (h : Garbled t out)
    (ht : ∀ x ∈ t, x = replacement) : ∀ x ∈ out, x = replacement := by
  intro x hx
  obtain ⟨i, hi⟩ := List.mem_iff_getElem?.mp hx
  obtain hx | ⟨j, _, hj⟩ := h.getElem hi
  · exact hx
  · exact ht x (List.mem_of_getElem? hj)

theorem garbled_piece {q bs cs : List UInt8} {t : List Char} (hq : ∀ b ∈ q, IsContinuation b)
    (h : bs ++ cs = q ++ utf8 t) : ∃ q' t', (∀ b ∈ q', IsContinuation b) ∧ cs = q' ++ utf8 t' ∧
      ∀ out, Garbled t' out → Garbled t (decode bs ++ out) := by
  obtain ⟨a, rfl, hcs⟩ | ⟨a, rfl, ha⟩ := List.append_eq_append_iff.mp h
  · refine ⟨a, t, fun b hb => hq b (List.mem_append_right bs hb), hcs, ?_⟩
    intro out hout
    have hbs := decode_continuations (fun b hb => hq b (List.mem_append_left a hb)) []
    rw [List.append_nil] at hbs
    rw [hbs, List.append_assoc]
    exact hout.addAll _
  · obtain ⟨t₁, t₂, p, rfl, rfl, ⟨rfl, hcs⟩ | ⟨c, t₃, q', rfl, hc, hp, hq', hcs⟩⟩ :=
      cut_utf8 ha.symm
    · refine ⟨[], t₂, by simp, hcs, ?_⟩
      intro out hout
      rw [decode_continuations hq, List.append_nil, decode_utf8, List.append_assoc]
      exact (hout.keepAll t₁).addAll _
    · refine ⟨q', t₃, continuation_of_suffix hc hp, hcs, ?_⟩
      intro out hout
      have hpart : decode p = [replacement] :=
        decode_part (by rw [hc]; exact List.prefix_append p q') hp (by simpa [hc] using hq')
      rw [decode_continuations hq, decode_utf8_append, hpart, List.append_assoc, List.append_assoc]
      exact ((hout.lose c).keepAll t₁).addAll _

/-! ### How many characters a piece gives -/

def leads (bs : List UInt8) : ℕ :=
  bs.countP fun b => ¬ IsContinuation b

def orphans (bs : List UInt8) : ℕ :=
  (bs.takeWhile fun b => IsContinuation b).length

theorem leads_append (bs cs : List UInt8) : leads (bs ++ cs) = leads bs + leads cs :=
  List.countP_append

theorem leads_continuations {q : List UInt8} (hq : ∀ b ∈ q, IsContinuation b) : leads q = 0 := by
  rw [leads, List.countP_eq_zero]
  intro b hb
  simpa using hq b hb

theorem leads_prefix {c : Char} {p q : List UInt8} (h : String.utf8EncodeChar c = p ++ q)
    (hp : p ≠ []) : leads p = 1 := by
  obtain ⟨b, p, rfl⟩ := List.exists_cons_of_ne_nil hp
  have hb : ¬ IsContinuation b := not_continuation_of_head (c := c) (by rw [h]; rfl)
  have htail : leads p = 0 := leads_continuations fun b' hb' =>
    continuation_of_mem_tail (c := c) (by rw [h]; exact List.mem_append_left q hb')
  rw [leads, List.countP_cons_of_pos (by simpa using hb)]
  rw [leads] at htail
  rw [htail]

theorem utf8EncodeChar_ne_nil (c : Char) : String.utf8EncodeChar c ≠ [] := by
  intro h
  have hc := (encodes c).whole
  rw [h] at hc
  cases hc

theorem leads_utf8 (t : List Char) : leads (utf8 t) = t.length := by
  induction t with
  | nil => rfl
  | cons c t ih =>
    rw [utf8_cons, leads_append, ih, leads_prefix (List.append_nil _).symm
      (utf8EncodeChar_ne_nil c), List.length_cons, Nat.add_comm]

theorem orphans_append {q bs : List UInt8} (hq : ∀ b ∈ q, IsContinuation b)
    (hbs : ∀ b ∈ bs.head?, ¬ IsContinuation b) : orphans (q ++ bs) = q.length := by
  rw [orphans, List.takeWhile_append_of_pos (by simpa using hq)]
  cases bs with
  | nil => simp
  | cons b bs => simp [hbs b rfl]

theorem head_utf8_append {t : List Char} {p : List UInt8}
    (hp : ∀ b ∈ p.head?, ¬ IsContinuation b) : ∀ b ∈ (utf8 t ++ p).head?, ¬ IsContinuation b := by
  cases t with
  | nil => exact hp
  | cons c t =>
    intro b hb
    apply not_continuation_of_head (c := c)
    rwa [utf8_cons, List.append_assoc, List.head?_append_of_ne_nil _ (utf8EncodeChar_ne_nil c)]
      at hb

theorem length_decode_piece {q bs cs : List UInt8} {t : List Char}
    (hq : ∀ b ∈ q, IsContinuation b) (h : bs ++ cs = q ++ utf8 t) :
    (decode bs).length = orphans bs + leads bs := by
  obtain ⟨a, rfl, hcs⟩ | ⟨a, rfl, ha⟩ := List.append_eq_append_iff.mp h
  · have hbs : ∀ b ∈ bs, IsContinuation b := fun b hb => hq b (List.mem_append_left a hb)
    have hdecode := decode_continuations hbs []
    have horphans := @orphans_append bs [] hbs (by simp)
    rw [List.append_nil] at hdecode horphans
    rw [hdecode, horphans, leads_continuations hbs]
    simp [decode_nil]
  · obtain ⟨t₁, t₂, p, rfl, rfl, ⟨rfl, hcs⟩ | ⟨c, t₃, q', rfl, hc, hp, hq', hcs⟩⟩ :=
      cut_utf8 ha.symm
    · rw [decode_continuations hq, List.append_nil, decode_utf8, List.length_append,
        List.length_replicate, leads_append, leads_continuations hq, leads_utf8, Nat.zero_add]
      have horphans := orphans_append hq (head_utf8_append (t := t₁) (p := []) (by simp))
      rw [List.append_nil] at horphans
      rw [horphans]
    · have hpart : decode p = [replacement] :=
        decode_part (by rw [hc]; exact List.prefix_append p q') hp (by simpa [hc] using hq')
      have hhead : ∀ b ∈ p.head?, ¬ IsContinuation b := by
        intro b hb
        apply not_continuation_of_head (c := c)
        rwa [hc, List.head?_append_of_ne_nil _ hp]
      rw [decode_continuations hq, decode_utf8_append, hpart, List.length_append,
        List.length_replicate, leads_append, leads_continuations hq, leads_append, leads_utf8,
        leads_prefix hc hp, orphans_append hq (head_utf8_append hhead), Nat.zero_add,
        List.length_append, List.length_singleton]

end Utf8Replacing

end EnvironmentCheck
