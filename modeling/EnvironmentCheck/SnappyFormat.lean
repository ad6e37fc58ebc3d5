import EnvironmentCheck.Library.BackReference
import EnvironmentCheck.Library.LittleEndian

namespace EnvironmentCheck.SnappyCodec

open BackReference LittleEndian

def readTrailer (n : ℕ) (bytes : List UInt8) : Option (ℕ × List UInt8) :=
  if n ≤ bytes.length then some (value (bytes.take n), bytes.drop n) else none

def readLiteral (n : ℕ) (bytes : List UInt8) : Option (Item UInt8 × List UInt8) :=
  if n ≤ bytes.length then some (.literal (bytes.take n), bytes.drop n) else none

/-- One element of a stream, and what comes after it; a literal of `2 ^ 32` bytes is read as empty. -/
def readElement : List UInt8 → Option (Item UInt8 × List UInt8)
  | [] => none
  | tag :: bytes =>
    let high := tag.toNat / 4
    match tag.toNat % 4 with
    | 0 =>
      if high < 60 then readLiteral (high + 1) bytes
      else (readTrailer (high - 59) bytes).bind fun r => readLiteral ((r.1 + 1) % 2 ^ 32) r.2
    | 1 => (readTrailer 1 bytes).map fun r => (.copy (256 * (high / 8) + r.1) (high % 8 + 4), r.2)
    | 2 => (readTrailer 2 bytes).map fun r => (.copy r.1 (high + 1), r.2)
    | _ => (readTrailer 4 bytes).map fun r => (.copy r.1 (high + 1), r.2)

/-- The elements of a stream, from what there is of the output to what there is at their end. -/
inductive Decodes : List UInt8 → List UInt8 → List UInt8 → Prop
  | done (out : List UInt8) : Decodes [] out out
  | element {stream rest out next final : List UInt8} {item : Item UInt8} :
    readElement stream = some (item, rest) → item.apply out = some next → Decodes rest next final →
      Decodes stream out final

def Encodes (bytes : List UInt8) (item : Item UInt8) : Prop :=
  ∀ rest, readElement (bytes ++ rest) = some (item, rest)

variable {bytes bytes' stream rest out next final xs : List UInt8} {item : Item UInt8}
  {n k v tag : ℕ}

theorem readTrailer_append (h : bytes.length = n) (rest : List UInt8) :
    readTrailer n (bytes ++ rest) = some (value bytes, rest) := by
  subst h
  rw [readTrailer, if_pos (by simp), List.take_left, List.drop_left]

theorem readLiteral_append (h : xs.length = n) (rest : List UInt8) :
    readLiteral n (xs ++ rest) = some (.literal xs, rest) := by
  subst h
  rw [readLiteral, if_pos (by simp), List.take_left, List.drop_left]

theorem Decodes.append (h : Decodes stream out next) (h' : Decodes rest next final)
    (hread : ∀ s item s', readElement s = some (item, s') →
      readElement (s ++ rest) = some (item, s' ++ rest)) : Decodes (stream ++ rest) out final := by
  induction h with
  | done => exact h'
  | element helement happly _ ih => exact .element (hread _ _ _ helement) happly (ih h')

theorem readTrailer_some {r : ℕ × List UInt8} (h : readTrailer n bytes = some r)
    (more : List UInt8) : readTrailer n (bytes ++ more) = some (r.1, r.2 ++ more) := by
  rw [readTrailer] at h
  split_ifs at h with hn
  cases h
  rw [readTrailer, if_pos (by rw [List.length_append]; omega), List.take_append_of_le_length hn,
    List.drop_append_of_le_length hn]

theorem readLiteral_some {r : Item UInt8 × List UInt8} (h : readLiteral n bytes = some r)
    (more : List UInt8) : readLiteral n (bytes ++ more) = some (r.1, r.2 ++ more) := by
  rw [readLiteral] at h
  split_ifs at h with hn
  cases h
  rw [readLiteral, if_pos (by rw [List.length_append]; omega), List.take_append_of_le_length hn,
    List.drop_append_of_le_length hn]

/-- What follows an element is not looked at. -/
theorem readElement_append (h : readElement stream = some (item, rest)) (more : List UInt8) :
    readElement (stream ++ more) = some (item, rest ++ more) := by
  cases stream with
  | nil => cases h
  | cons tag bytes =>
    rw [List.cons_append]
    simp only [readElement] at h ⊢
    split at h
    · split_ifs at h ⊢
      · exact readLiteral_some h more
      · obtain ⟨r, hr, hliteral⟩ := Option.bind_eq_some_iff.mp h
        rw [readTrailer_some hr more, Option.bind_some]
        exact readLiteral_some hliteral more
    all_goals
      obtain ⟨r, hr, heq⟩ := Option.map_eq_some_iff.mp h
      cases heq
      rw [readTrailer_some hr more, Option.map_some]

theorem Decodes.trans (h : Decodes stream out next) (h' : Decodes rest next final) :
    Decodes (stream ++ rest) out final :=
  h.append h' fun _ _ _ hread => readElement_append hread rest

theorem Encodes.decodes (h : Encodes bytes item) (happly : item.apply out = some next) :
    Decodes bytes out next := by
  have hread := h []
  rw [List.append_nil] at hread
  exact .element hread happly (.done next)

theorem encodes_literal {tag : UInt8} (xs : List UInt8) (htag : tag.toNat = 4 * n) (hn : n < 60)
    (hxs : xs.length = n + 1) : Encodes (tag :: xs) (.literal xs) := by
  intro rest
  have hhigh : tag.toNat / 4 = n := by omega
  have hlow : tag.toNat % 4 = 0 := by omega
  rw [List.cons_append]
  simp only [readElement, hlow, hhigh, if_pos hn]
  exact readLiteral_append hxs rest

theorem encodes_longLiteral {tag : UInt8} {trailer : List UInt8} (htag : tag.toNat = 4 * (59 + k))
    (hk : 0 < k) (htrailer : trailer.length = k) (hxs : xs.length = value trailer + 1)
    (hlt : xs.length < 2 ^ 32) : Encodes (tag :: (trailer ++ xs)) (.literal xs) := by
  intro rest
  have hhigh : tag.toNat / 4 = 59 + k := by omega
  have hlow : tag.toNat % 4 = 0 := by omega
  have hlong : ¬ 59 + k < 60 := by omega
  rw [List.cons_append, List.append_assoc]
  simp only [readElement, hlow, hhigh, if_neg hlong, Nat.add_sub_cancel_left]
  rw [readTrailer_append htrailer, Option.bind_some, ← hxs, Nat.mod_eq_of_lt hlt]
  exact readLiteral_append rfl rest

theorem encodes_copy1 {tag low : UInt8} {offset len : ℕ}
    (htag : tag.toNat = 4 * (8 * (offset / 256) + (len - 4)) + 1) (hlow : low.toNat = offset % 256)
    (hlen : 4 ≤ len) (hlen' : len < 12) : Encodes [tag, low] (.copy offset len) := by
  intro rest
  have hhigh : tag.toNat / 4 = 8 * (offset / 256) + (len - 4) := by omega
  have htype : tag.toNat % 4 = 1 := by omega
  have hvalue : value [low] = offset % 256 := by
    rw [value_cons, hlow]
    rfl
  have hoffset : 256 * ((8 * (offset / 256) + (len - 4)) / 8) + offset % 256 = offset := by omega
  have hlength : (8 * (offset / 256) + (len - 4)) % 8 + 4 = len := by omega
  change readElement (tag :: ([low] ++ rest)) = _
  simp only [readElement, htype, hhigh]
  have htrailer : readTrailer 1 ([low] ++ rest) = some (offset % 256, rest) := by
    have hsingle : [low].length = 1 := rfl
    rw [← hvalue, readTrailer_append hsingle]
  rw [htrailer, Option.map_some, hoffset, hlength]

theorem encodes_copy2 {tag : UInt8} {trailer : List UInt8} {offset len : ℕ}
    (htag : tag.toNat = 4 * (len - 1) + 2) (htrailer : trailer.length = 2)
    (hoffset : value trailer = offset) (hlen : 0 < len) :
    Encodes (tag :: trailer) (.copy offset len) := by
  intro rest
  have hhigh : tag.toNat / 4 = len - 1 := by omega
  have htype : tag.toNat % 4 = 2 := by omega
  rw [List.cons_append]
  simp only [readElement, htype, hhigh]
  rw [readTrailer_append htrailer, Option.map_some, hoffset, Nat.sub_add_cancel hlen]

theorem decodes_nil_iff : Decodes [] out final ↔ final = out := by
  constructor
  · intro h
    cases h with
    | done => rfl
    | element hread _ _ => cases hread
  · rintro rfl
    exact .done final

theorem decodes_iff (hread : readElement stream = some (item, rest)) (happly : item.apply out = some next) :
    Decodes stream out final ↔ Decodes rest next final := by
  constructor
  · intro h
    cases h with
    | done => cases hread
    | element hread' happly' hrest =>
      rw [hread] at hread'
      cases hread'
      rw [happly] at happly'
      cases happly'
      exact hrest
  · exact .element hread happly

theorem not_decodes_of_unread (hstream : stream ≠ []) (hread : readElement stream = none) :
    ¬ Decodes stream out final := by
  intro h
  cases h with
  | done => exact hstream rfl
  | element hread' _ _ => rw [hread] at hread'; cases hread'

theorem not_decodes_of_refused (hread : readElement stream = some (item, rest))
    (happly : item.apply out = none) : ¬ Decodes stream out final := by
  intro h
  cases h with
  | done => cases hread
  | element hread' happly' _ =>
    rw [hread] at hread'
    cases hread'
    rw [happly] at happly'
    cases happly'

theorem Decodes.unique {final' : List UInt8} (h : Decodes stream out final) (h' : Decodes stream out final') :
    final' = final := by
  induction h with
  | done => exact decodes_nil_iff.mp h'
  | element hread happly _ ih => exact ih ((decodes_iff hread happly).mp h')

theorem Decodes.length_le (h : Decodes stream out final) : out.length ≤ final.length := by
  induction h with
  | done => exact le_rfl
  | element _ happly _ ih => exact (length_le_of_apply happly).trans ih

end EnvironmentCheck.SnappyCodec
