import EnvironmentCheck.Base64

namespace EnvironmentCheck.Base64

open Sextets

/-- The bytes that the loop stores for the rest of the input. -/
def decoded : List UInt8 → Option (List UInt8)
  | [] => some []
  | [_] => none
  | [c0, c1] => blockBytes c0 c1 kBase64NullEnding kBase64NullEnding true
  | [c0, c1, c2] => blockBytes c0 c1 c2 kBase64NullEnding true
  | [c0, c1, c2, c3] => blockBytes c0 c1 c2 c3 true
  | c0 :: c1 :: c2 :: c3 :: c4 :: cs => (blockBytes c0 c1 c2 c3 false).bind fun xs =>
      (decoded (c4 :: cs)).map (xs ++ ·)

section Size

variable {c0 c1 c2 c3 c4 : UInt8} {cs : List UInt8}

theorem decodedSize_two : getBase64DecodedSize [c0, c1] = 1 := by
  simp [getBase64DecodedSize]

theorem decodedSize_three : getBase64DecodedSize [c0, c1, c2] = 2 := by
  simp [getBase64DecodedSize]

theorem decodedSize_four : getBase64DecodedSize [c0, c1, c2, c3] =
    if c3 = kBase64NullEnding then if c2 = kBase64NullEnding then 1 else 2 else 3 := by
  simp [getBase64DecodedSize]

theorem decodedSize_cons (h : (c4 :: cs).length % 4 ≠ 1) :
    getBase64DecodedSize (c0 :: c1 :: c2 :: c3 :: c4 :: cs) =
      3 + getBase64DecodedSize (c4 :: cs) := by
  obtain ⟨n, hn⟩ : ∃ n, (c4 :: cs).length = n + 2 := by
    refine ⟨(c4 :: cs).length - 2, ?_⟩
    simp only [List.length_cons] at h ⊢
    omega
  have hlast : (c0 :: c1 :: c2 :: c3 :: c4 :: cs)[n + 5]? = (c4 :: cs)[n + 1]? := rfl
  have hsecond : (c0 :: c1 :: c2 :: c3 :: c4 :: cs)[n + 4]? = (c4 :: cs)[n]? := rfl
  have hlen : (c0 :: c1 :: c2 :: c3 :: c4 :: cs).length = n + 6 := by
    simp only [List.length_cons] at hn ⊢
    omega
  have h1 : n + 6 - 1 = n + 5 := rfl
  have h2 : n + 6 - 2 = n + 4 := rfl
  have h3 : n + 2 - 1 = n + 1 := rfl
  have h4 : n + 2 - 2 = n := rfl
  have hmod : (n + 6) % 4 = (n + 2) % 4 := by omega
  rw [hn] at h
  simp only [getBase64DecodedSize, hlen, hn, h1, h2, h3, h4, hlast, hsecond, hmod,
    reduceCtorEq, false_or, if_neg h]
  split_ifs <;> omega

end Size

section Loop

variable {char : CharType} {input output before hole cs rest : List UInt8} {c0 c1 : UInt8}
  {turns i o : ℕ}

theorem decodeFrom_nil (h : input.drop i = []) :
    decodeFrom char input turns i o output = .ok (some output) := by
  cases turns with
  | zero => rfl
  | succ turns =>
    rw [decodeFrom, if_neg]
    rw [List.drop_eq_nil_iff] at h
    omega

theorem exists_turn (h : (c0 :: rest).length ≤ turns) : ∃ n, turns = n + 1 := by
  rw [List.length_cons] at h
  exact Nat.exists_eq_add_of_le' (Nat.le_trans (Nat.le_add_left 1 rest.length) h)

theorem getElem?_of_drop (h : input.drop i = rest) (k : ℕ) : input[i + k]? = rest[k]? := by
  rw [← h, List.getElem?_drop]

theorem getD_of_drop (h : input.drop i = rest) (k : ℕ) {c : UInt8} :
    input.getD (i + k) c = rest.getD k c := by
  rw [List.getD_eq_getElem?_getD, getElem?_of_drop h k, List.getD_eq_getElem?_getD]

theorem decodeFrom_cons (h : input.drop i = c0 :: c1 :: cs) :
    decodeFrom char input (turns + 1) i o output =
      (decodeBlock char c0 c1 (cs.getD 0 kBase64NullEnding) (cs.getD 1 kBase64NullEnding)
        (cs.length ≤ 2) o output).bind fun
          | none => .ok none
          | some output => decodeFrom char input turns (i + 4) (o + 3) output := by
  have hlen := congrArg List.length h
  rw [List.length_drop, List.length_cons, List.length_cons] at hlen
  have h0 : input[i + 0]? = some c0 := getElem?_of_drop h 0
  have h1 : input[i + 1]? = some c1 := getElem?_of_drop h 1
  have h2 : input.getD (i + 2) kBase64NullEnding = cs.getD 0 kBase64NullEnding := getD_of_drop h 2
  have h3 : input.getD (i + 3) kBase64NullEnding = cs.getD 1 kBase64NullEnding := getD_of_drop h 3
  have hend : decide (i + 4 ≥ input.length) = decide (cs.length ≤ 2) := by
    apply decide_eq_decide.mpr
    omega
  rw [decodeFrom, if_pos (by omega)]
  simp only [read, h0, h1, h2, h3, hend]
  rfl

theorem drop_four {c2 c3 : UInt8} (h : input.drop i = c0 :: c1 :: c2 :: c3 :: rest) :
    input.drop (i + 4) = rest := by
  rw [← List.drop_drop, h]
  rfl

theorem drop_last (h : input.drop i = c0 :: c1 :: cs) (hcs : cs.length ≤ 2) :
    input.drop (i + 4) = [] := by
  rw [← List.drop_drop, h, List.drop_eq_nil_iff]
  simp only [List.length_cons]
  omega

theorem decodeFrom_last (h : input.drop i = c0 :: c1 :: cs) (hcs : cs.length ≤ 2)
    (hroom : blockSize (cs.getD 0 kBase64NullEnding) (cs.getD 1 kBase64NullEnding) ≤ hole.length) :
    decodeFrom .unsigned input (turns + 1) i before.length (before ++ hole) =
      .ok ((blockBytes c0 c1 (cs.getD 0 kBase64NullEnding) (cs.getD 1 kBase64NullEnding) true).map
        fun xs => before ++ xs ++ hole.drop xs.length) := by
  have hnil := drop_last h hcs
  rw [decodeFrom_cons h, decodeBlock_unsigned hroom, decide_eq_true hcs]
  cases blockBytes c0 c1 (cs.getD 0 kBase64NullEnding) (cs.getD 1 kBase64NullEnding) true with
  | none => rfl
  | some xs => exact decodeFrom_nil hnil

theorem decodeBlock_inner {c2 c3 : UInt8} (hroom : 3 ≤ hole.length) :
    decodeBlock .unsigned c0 c1 c2 c3 false before.length (before ++ hole) =
      .ok ((spelled letter [c0, c1, c2, c3]).map fun xs => before ++ xs ++ hole.drop xs.length) := by
  have hsize : blockSize c2 c3 ≤ hole.length := by
    unfold blockSize
    split_ifs <;> omega
  rw [decodeBlock_unsigned hsize, blockBytes_inner]

theorem decodeFrom_inner {c2 c3 c4 : UInt8} (h : input.drop i = c0 :: c1 :: c2 :: c3 :: c4 :: cs)
    (hroom : 3 ≤ hole.length) (hchar : ∀ {o output}, decodeBlock char c0 c1 c2 c3 false o output =
      decodeBlock .unsigned c0 c1 c2 c3 false o output) :
    decodeFrom char input (turns + 1) i before.length (before ++ hole) =
      match spelled letter [c0, c1, c2, c3] with
      | none => .ok none
      | some xs => decodeFrom char input turns (i + 4) (before ++ xs).length
          (before ++ xs ++ hole.drop 3) := by
  have hend : decide ((c2 :: c3 :: c4 :: cs).length ≤ 2) = false := by simp
  rw [decodeFrom_cons h, hend]
  simp only [List.getD_cons_zero, List.getD_cons_succ]
  rw [hchar, decodeBlock_inner hroom]
  cases hb : spelled letter [c0, c1, c2, c3] with
  | none => rfl
  | some xs =>
    have hlen := length_of_spelled hb
    simp only [List.length_cons, List.length_nil] at hlen
    have hthree : xs.length = 3 := by omega
    simp only [Option.map_some, Except.bind, List.length_append, hthree]

theorem decodeFrom_unsigned (h : input.drop i = rest) (hturns : rest.length ≤ turns)
    (hmod : rest.length % 4 ≠ 1) (hroom : hole.length = getBase64DecodedSize rest) :
    decodeFrom .unsigned input turns i before.length (before ++ hole) =
      .ok ((decoded rest).map fun xs => before ++ xs ++ hole.drop xs.length) := by
  induction rest using decoded.induct generalizing turns i before hole with
  | case1 =>
    rw [decodeFrom_nil h]
    simp [decoded]
  | case2 c => exact absurd rfl hmod
  | case3 c0 c1 =>
    obtain ⟨turns, rfl⟩ := exists_turn hturns
    rw [decodeFrom_last h (by simp)]
    · rfl
    · rw [hroom, decodedSize_two]
      decide
  | case4 c0 c1 c2 =>
    obtain ⟨turns, rfl⟩ := exists_turn hturns
    rw [decodeFrom_last h (by simp)]
    · rfl
    · rw [hroom, decodedSize_three, blockSize]
      split_ifs with h2 h3
      · decide
      · decide
      · exact absurd rfl h3
  | case5 c0 c1 c2 c3 =>
    obtain ⟨turns, rfl⟩ := exists_turn hturns
    rw [decodeFrom_last h (by simp)]
    · rfl
    · simp only [hroom, decodedSize_four, blockSize, List.getD_cons_zero, List.getD_cons_succ]
      split_ifs <;> decide
  | case6 c0 c1 c2 c3 c4 cs ih =>
    obtain ⟨turns, rfl⟩ := exists_turn hturns
    have hmod' : (c4 :: cs).length % 4 ≠ 1 := by
      simp only [List.length_cons] at hmod ⊢
      omega
    rw [decodedSize_cons hmod'] at hroom
    rw [decodeFrom_inner h (by omega) rfl, decoded, blockBytes_inner]
    cases hb : spelled letter [c0, c1, c2, c3] with
    | none => rfl
    | some xs =>
      have hlen : xs.length = 3 := by
        have hlen := length_of_spelled hb
        simp only [List.length_cons, List.length_nil] at hlen
        omega
      simp only
      rw [ih (drop_four h) (by simp only [List.length_cons] at hturns ⊢; omega) hmod'
        (by rw [List.length_drop]; omega)]
      simp only [Option.bind_some, Option.map_map]
      congr 2
      funext ys
      simp [hlen]

end Loop

/-- The padding that the loop takes after `n` letters. -/
def Tail (n : ℕ) (p : List UInt8) : Prop :=
  p = [] ∨ (n % 4 = 3 ∧ p = [kBase64NullEnding]) ∨
    (n % 4 = 2 ∧ (p = [kBase64NullEnding] ∨ p = [kBase64NullEnding, kBase64NullEnding]))

section Tail

variable {body p xs s : List UInt8}

theorem decoded_append (ht : Tail body.length p) (h : spelled letter body = some xs) :
    decoded (body ++ p) = some xs := by
  induction body using decoded.induct generalizing xs with
  | case1 =>
    obtain rfl | ⟨hn, -⟩ | ⟨hn, -⟩ := ht
    · exact h
    · cases hn
    · cases hn
  | case2 c => exact absurd rfl (spelled_eq_some.mp h).length_ne
  | case3 c0 c1 =>
    have hblock : blockBytes c0 c1 kBase64NullEnding kBase64NullEnding true = some xs :=
      blockBytes_eq_some.mpr (.inr ⟨rfl, rfl, .inr ⟨rfl, h⟩⟩)
    obtain rfl | ⟨hn, -⟩ | ⟨-, rfl | rfl⟩ := ht
    · exact hblock
    · cases hn
    · exact hblock
    · exact hblock
  | case4 c0 c1 c2 =>
    have hblock : blockBytes c0 c1 c2 kBase64NullEnding true = some xs :=
      blockBytes_eq_some.mpr (.inr ⟨rfl, rfl, .inl h⟩)
    obtain rfl | ⟨-, rfl⟩ | ⟨hn, -⟩ := ht
    · exact hblock
    · exact hblock
    · cases hn
  | case5 c0 c1 c2 c3 =>
    obtain rfl | ⟨hn, -⟩ | ⟨hn, -⟩ := ht
    · exact blockBytes_eq_some.mpr (.inl h)
    · simp at hn
    · simp at hn
  | case6 c0 c1 c2 c3 c4 cs ih =>
    rw [spelled_four] at h
    obtain ⟨ys, hys, h⟩ := Option.bind_eq_some_iff.mp h
    obtain ⟨zs, hzs, rfl⟩ := Option.map_eq_some_iff.mp h
    have htail : Tail (c4 :: cs).length p := by
      simp only [Tail, List.length_cons] at ht ⊢
      rwa [show (cs.length + 1) % 4 = (cs.length + 1 + 1 + 1 + 1 + 1) % 4 by omega]
    have hrest := ih htail hzs
    simp only [List.cons_append, decoded, blockBytes_inner, hys, Option.bind_some] at hrest ⊢
    rw [hrest]
    rfl

theorem decoded_eq_some (h : decoded s = some xs) :
    ∃ body p, s = body ++ p ∧ spelled letter body = some xs ∧ Tail body.length p := by
  have hnone : ∀ {cs}, kBase64NullEnding ∈ cs → spelled letter cs ≠ some xs :=
    fun hmem hs => ne_of_spelled hs hmem rfl
  induction s using decoded.induct generalizing xs with
  | case1 => exact ⟨[], [], rfl, h, .inl rfl⟩
  | case2 c => cases h
  | case3 c0 c1 =>
    obtain hb | ⟨-, -, hb | ⟨-, hb⟩⟩ := blockBytes_eq_some.mp h
    · exact absurd hb (hnone (by simp))
    · exact absurd hb (hnone (by simp))
    · exact ⟨[c0, c1], [], rfl, hb, .inl rfl⟩
  | case4 c0 c1 c2 =>
    obtain hb | ⟨-, -, hb | ⟨rfl, hb⟩⟩ := blockBytes_eq_some.mp h
    · exact absurd hb (hnone (by simp))
    · exact ⟨[c0, c1, c2], [], rfl, hb, .inl rfl⟩
    · exact ⟨[c0, c1], [kBase64NullEnding], rfl, hb, .inr (.inr ⟨rfl, .inl rfl⟩)⟩
  | case5 c0 c1 c2 c3 =>
    obtain hb | ⟨-, rfl, hb | ⟨rfl, hb⟩⟩ := blockBytes_eq_some.mp h
    · exact ⟨[c0, c1, c2, c3], [], rfl, hb, .inl rfl⟩
    · exact ⟨[c0, c1, c2], [kBase64NullEnding], rfl, hb, .inr (.inl ⟨rfl, rfl⟩)⟩
    · exact ⟨[c0, c1], [kBase64NullEnding, kBase64NullEnding], rfl, hb,
        .inr (.inr ⟨rfl, .inr rfl⟩)⟩
  | case6 c0 c1 c2 c3 c4 cs ih =>
    rw [decoded, blockBytes_inner] at h
    obtain ⟨ys, hys, h⟩ := Option.bind_eq_some_iff.mp h
    obtain ⟨zs, hzs, rfl⟩ := Option.map_eq_some_iff.mp h
    obtain ⟨body, p, hs, hbody, htail⟩ := ih hzs fun hmem hs => ne_of_spelled hs hmem rfl
    refine ⟨c0 :: c1 :: c2 :: c3 :: body, p, by rw [hs]; rfl, ?_, ?_⟩
    · rw [spelled_four, hys, hbody]
      rfl
    · simp only [Tail, List.length_cons] at htail ⊢
      rwa [show (body.length + 1 + 1 + 1 + 1) % 4 = body.length % 4 by omega]

theorem decodedSize_append (ht : Tail body.length p) (h : spelled letter body = some xs)
    (hshort : ¬ (body.length % 4 = 2 ∧ p = [kBase64NullEnding])) :
    getBase64DecodedSize (body ++ p) = xs.length := by
  have hlen := length_of_spelled h
  induction body using decoded.induct generalizing xs with
  | case1 =>
    simp only [List.length_nil] at hlen
    obtain rfl | ⟨hn, -⟩ | ⟨hn, -⟩ := ht
    · rw [List.append_nil, getBase64DecodedSize, if_pos (.inl rfl)]
      omega
    · cases hn
    · cases hn
  | case2 c => exact absurd rfl (spelled_eq_some.mp h).length_ne
  | case3 c0 c1 =>
    simp only [List.length_cons, List.length_nil] at hlen
    obtain rfl | ⟨hn, -⟩ | ⟨hn, rfl | rfl⟩ := ht
    · rw [List.append_nil, decodedSize_two]
      omega
    · cases hn
    · exact absurd ⟨hn, rfl⟩ hshort
    · simp only [List.cons_append, List.nil_append, decodedSize_four, ↓reduceIte]
      omega
  | case4 c0 c1 c2 =>
    have hc2 := ne_of_spelled (c := c2) h (by simp)
    simp only [List.length_cons, List.length_nil] at hlen
    obtain rfl | ⟨-, rfl⟩ | ⟨hn, -⟩ := ht
    · rw [List.append_nil, decodedSize_three]
      omega
    · simp only [List.cons_append, List.nil_append, decodedSize_four, ↓reduceIte, if_neg hc2]
      omega
    · cases hn
  | case5 c0 c1 c2 c3 =>
    have hc3 := ne_of_spelled (c := c3) h (by simp)
    simp only [List.length_cons, List.length_nil] at hlen
    obtain rfl | ⟨hn, -⟩ | ⟨hn, -⟩ := ht
    · rw [List.append_nil, decodedSize_four, if_neg hc3]
      omega
    · simp at hn
    · simp at hn
  | case6 c0 c1 c2 c3 c4 cs ih =>
    rw [spelled_four] at h
    obtain ⟨ys, hys, h⟩ := Option.bind_eq_some_iff.mp h
    obtain ⟨zs, hzs, rfl⟩ := Option.map_eq_some_iff.mp h
    have hmod : (c0 :: c1 :: c2 :: c3 :: c4 :: cs).length % 4 = (c4 :: cs).length % 4 := by
      simp only [List.length_cons]
      omega
    have htail : Tail (c4 :: cs).length p := by
      rwa [Tail, ← hmod]
    rw [hmod] at hshort
    have hlen' := length_of_spelled hzs
    have hrest := ih htail hzs hshort hlen'
    have hys := length_of_spelled hys
    have hodd : (c4 :: (cs ++ p)).length % 4 ≠ 1 := by
      have hne := (spelled_eq_some.mp hzs).length_ne
      obtain rfl | ⟨hn, rfl⟩ | ⟨hn, rfl | rfl⟩ := htail
      · rwa [List.append_nil]
      · simp only [List.length_cons, List.length_append, List.length_nil] at hn ⊢
        omega
      · exact absurd ⟨hn, rfl⟩ hshort
      · simp only [List.length_cons, List.length_append, List.length_nil] at hn ⊢
        omega
    simp only [List.cons_append] at hrest ⊢
    rw [decodedSize_cons hodd, hrest, List.length_append]
    simp only [List.length_cons, List.length_nil] at hys
    omega

end Tail

/-- An encoding without padding that wants `==`, followed by a single `=`. -/
def HalfPadded (s : List UInt8) : Prop :=
  ∃ xs body, Spells letter xs body ∧ body.length % 4 = 2 ∧ s = body ++ [kBase64NullEnding]

section Accepts

variable {s xs ys : List UInt8}

theorem encodes_iff : Encodes letter kBase64NullEnding xs s ↔
    ∃ body p, s = body ++ p ∧ spelled letter body = some xs ∧ Tail body.length p ∧
      ¬ (body.length % 4 = 2 ∧ p = [kBase64NullEnding]) := by
  constructor
  · rintro ⟨body, hbody, rfl | rfl⟩
    · refine ⟨s, [], by simp, spelled_eq_some.mpr hbody, .inl rfl, ?_⟩
      rintro ⟨-, hp⟩
      cases hp
    · have hne := hbody.length_ne
      refine ⟨body, _, rfl, spelled_eq_some.mpr hbody, ?_, ?_⟩
      · obtain hn | hn | hn : body.length % 4 = 0 ∨ body.length % 4 = 2 ∨ body.length % 4 = 3 := by
          omega
        · rw [hn]
          exact .inl rfl
        · rw [hn]
          exact .inr (.inr ⟨hn, .inr rfl⟩)
        · rw [hn]
          exact .inr (.inl ⟨hn, rfl⟩)
      · rintro ⟨hn, hp⟩
        rw [hn] at hp
        cases hp
  · rintro ⟨body, p, rfl, hbody, ht, hshort⟩
    refine ⟨body, spelled_eq_some.mp hbody, ?_⟩
    obtain rfl | ⟨hn, rfl⟩ | ⟨hn, rfl | rfl⟩ := ht
    · exact .inl (List.append_nil body)
    · rw [hn]
      exact .inr rfl
    · exact absurd ⟨hn, rfl⟩ hshort
    · rw [hn]
      exact .inr rfl

theorem not_encodes_of_halfPadded (h : HalfPadded s) : ¬ Encodes letter kBase64NullEnding xs s := by
  obtain ⟨zs, body, hbody, hn, rfl⟩ := h
  intro he
  obtain ⟨text, p, hs, htext, ht, hshort⟩ := encodes_iff.mp he
  have hlen := congrArg List.length hs
  simp only [List.length_append, List.length_cons, List.length_nil] at hlen
  obtain rfl | ⟨hm, rfl⟩ | ⟨hm, rfl | rfl⟩ := ht
  · rw [List.append_nil] at hs
    apply ne_of_spelled htext _ rfl
    rw [← hs]
    simp
  · simp only [List.length_cons, List.length_nil] at hlen
    omega
  · exact hshort ⟨hm, rfl⟩
  · simp only [List.length_cons, List.length_nil] at hlen
    omega

theorem length_resize (output : List UInt8) (n : ℕ) : (resize output n).length = n := by
  simp only [resize, List.length_append, List.length_take, List.length_replicate]
  omega

theorem base64Decode_unsigned (h : s.length % 4 ≠ 1) (output : Output) :
    base64Decode .unsigned s (some output) = .ok ((decoded s).map fun xs =>
      xs ++ (resize output.buffer (getBase64DecodedSize s)).drop xs.length) := by
  rw [base64Decode, if_neg h]
  exact @decodeFrom_unsigned s [] _ s s.length 0 rfl (Nat.le_refl _) h (length_resize _ _)

/-- The decoder succeeds on the encodings of `xs` alone, and stores `xs`. -/
def Exact (char : CharType) (s : List UInt8) (output : Output) : Prop :=
  ∃ r, base64Decode char s (some output) = .ok r ∧
    ∀ xs, r = some xs ↔ Encodes letter kBase64NullEnding xs s

theorem Tail.length_ne {body p : List UInt8} (ht : Tail body.length p) (h : body.length % 4 ≠ 1) :
    (body ++ p).length % 4 ≠ 1 := by
  rw [List.length_append]
  obtain rfl | ⟨hn, rfl⟩ | ⟨hn, rfl | rfl⟩ := ht
  · exact h
  · simp only [List.length_cons, List.length_nil]
    omega
  · simp only [List.length_cons, List.length_nil]
    omega
  · simp only [List.length_cons, List.length_nil]
    omega

theorem length_of_encodes (h : Encodes letter kBase64NullEnding xs s) : s.length % 4 ≠ 1 := by
  obtain ⟨body, p, rfl, hbody, ht, -⟩ := encodes_iff.mp h
  exact ht.length_ne (spelled_eq_some.mp hbody).length_ne

theorem exact_short (char : CharType) (h : s.length % 4 = 1) (output : Output) :
    Exact char s output := by
  refine ⟨none, if_pos h, fun xs => ?_⟩
  apply iff_of_false
  · intro hnone
    cases hnone
  · intro he
    exact length_of_encodes he h

theorem base64Decode_encodes (h : Encodes letter kBase64NullEnding xs s) (output : Output) :
    base64Decode .unsigned s (some output) = .ok (some xs) := by
  have hmod := length_of_encodes h
  obtain ⟨body, p, rfl, hbody, ht, hshort⟩ := encodes_iff.mp h
  have hsize := decodedSize_append ht hbody hshort
  rw [base64Decode_unsigned hmod, decoded_append ht hbody, Option.map_some, hsize]
  have hlen := length_resize output.buffer xs.length
  rw [List.drop_eq_nil_of_le (by omega), List.append_nil]

theorem exact_unsigned_iff (h : s.length % 4 ≠ 1) (output : Output) :
    Exact .unsigned s output ↔ ¬ HalfPadded s := by
  constructor
  · rintro ⟨r, hr, hexact⟩ hhalf
    have hnone : ∀ xs, r ≠ some xs :=
      fun xs hxs => not_encodes_of_halfPadded hhalf ((hexact xs).mp hxs)
    obtain ⟨xs, body, hbody, hn, rfl⟩ := hhalf
    rw [base64Decode_unsigned h, decoded_append (.inr (.inr ⟨hn, .inl rfl⟩))
      (spelled_eq_some.mpr hbody)] at hr
    exact hnone _ (Except.ok.inj hr).symm
  · intro hhalf
    refine ⟨_, base64Decode_unsigned h output, fun xs => ⟨fun hxs => ?_, fun he => ?_⟩⟩
    · obtain ⟨ys, hys, rfl⟩ := Option.map_eq_some_iff.mp hxs
      obtain ⟨body, p, rfl, hbody, ht⟩ := decoded_eq_some hys
      have hshort : ¬ (body.length % 4 = 2 ∧ p = [kBase64NullEnding]) := by
        rintro ⟨hn, rfl⟩
        exact hhalf ⟨ys, body, spelled_eq_some.mp hbody, hn, rfl⟩
      have he := encodes_iff.mpr ⟨body, p, rfl, hbody, ht, hshort⟩
      have hr := base64Decode_encodes he output
      rw [base64Decode_unsigned h, hys, Option.map_some] at hr
      rw [Option.some.inj (Except.ok.inj hr)]
      exact he
    · have hr := base64Decode_encodes he output
      rw [base64Decode_unsigned h] at hr
      exact Except.ok.inj hr

end Accepts

section Signed

variable {c c0 c1 c2 c3 c4 : UInt8} {cs s rest input before hole : List UInt8} {turns i o : ℕ}

/-- A byte from `0x80` on that the test of the block's characters comes to. -/
def HighFirst (cs : List UInt8) : Prop :=
  ∃ p b r, cs = p ++ b :: r ∧ 128 ≤ b.toNat ∧ p.all known = true

/-- A byte from `0x80` on after letters and `=` only, and no `=` in the blocks before its own. -/
def ReadsHigh (s : List UInt8) : Prop :=
  ∃ p b r, s = p ++ b :: r ∧ 128 ≤ b.toNat ∧ p.all known = true ∧
    kBase64NullEnding ∉ p.take (p.length / 4 * 4)

theorem reverse_signed_low (h : c.toNat < 128) : reverse .signed c = reverse .unsigned c := by
  have hlow : ∀ n < 128, (UInt8.ofNat n).toInt8.toInt = n := by decide +kernel
  have hindex := hlow c.toNat h
  rw [UInt8.ofNat_toNat] at hindex
  simp only [reverse, CharType.index, hindex]

theorem reverse_signed_high (h : 128 ≤ c.toNat) : reverse .signed c = .error .reverseTable := by
  have hhigh : ∀ n < 256, 128 ≤ n → (UInt8.ofNat n).toInt8.toInt < 0 := by decide +kernel
  have hindex := hhigh c.toNat c.toNat_lt h
  rw [UInt8.ofNat_toNat] at hindex
  obtain ⟨k, hk⟩ := Int.eq_negSucc_of_lt_zero hindex
  simp only [reverse, CharType.index, hk]

theorem highFirst_cons : HighFirst (c :: cs) ↔ 128 ≤ c.toNat ∨ (known c = true ∧ HighFirst cs) := by
  constructor
  · rintro ⟨p, b, r, h, hb, hp⟩
    cases p with
    | nil =>
      obtain ⟨rfl, -⟩ := List.cons.inj h
      exact .inl hb
    | cons a p =>
      obtain ⟨rfl, htail⟩ := List.cons.inj h
      rw [List.all_cons, Bool.and_eq_true] at hp
      exact .inr ⟨hp.1, p, b, r, htail, hb, hp.2⟩
  · rintro (hc | ⟨hc, p, b, r, rfl, hb, hp⟩)
    · exact ⟨[], c, cs, rfl, hc, rfl⟩
    · refine ⟨c :: p, b, r, rfl, hb, ?_⟩
      rw [List.all_cons, hc, hp]
      rfl

theorem unknown_signed_high (h : HighFirst cs) : unknown .signed cs = .error .reverseTable := by
  induction cs with
  | nil =>
    obtain ⟨p, b, r, h, -⟩ := h
    simp at h
  | cons c cs ih =>
    rw [unknown]
    by_cases hc : 128 ≤ c.toNat
    · rw [reverse_signed_high hc]
      rfl
    · obtain hhigh | ⟨hknown, hhigh⟩ := highFirst_cons.mp h
      · exact absurd hhigh hc
      · have hentry : ¬ entry c < 0 := by
          rw [entry_neg, hknown]
          decide
        rw [reverse_signed_low (Nat.lt_of_not_le hc), reverse_unsigned]
        simp only [Except.bind, if_neg hentry]
        exact ih hhigh

theorem unknown_signed_low (h : ¬ HighFirst cs) : unknown .signed cs = unknown .unsigned cs := by
  induction cs with
  | nil => rfl
  | cons c cs ih =>
    rw [highFirst_cons, not_or, not_and] at h
    rw [unknown, unknown, reverse_signed_low (Nat.lt_of_not_le h.1), reverse_unsigned]
    simp only [Except.bind]
    split_ifs with hneg
    · rfl
    · rw [entry_neg, Bool.not_eq_false] at hneg
      exact ih (h.2 hneg)

theorem sixBits_signed_low (h : c.toNat < 128) : sixBits .signed c = sixBits .unsigned c := by
  rw [sixBits, reverse_signed_low h, sixBits]

theorem decodeBlock_signed_high {atEnd : Bool} {output : List UInt8}
    (h : HighFirst [c0, c1, c2, c3]) :
    decodeBlock .signed c0 c1 c2 c3 atEnd o output = .error .reverseTable := by
  rw [decodeBlock, unknown_signed_high h]
  rfl

theorem decodeBlock_signed_low {atEnd : Bool} {output : List UInt8}
    (h : ¬ HighFirst [c0, c1, c2, c3]) :
    decodeBlock .signed c0 c1 c2 c3 atEnd o output =
      decodeBlock .unsigned c0 c1 c2 c3 atEnd o output := by
  rw [decodeBlock, unknown_signed_low h, decodeBlock, unknown_unsigned]
  cases hk : [c0, c1, c2, c3].all known with
  | false => rfl
  | true =>
    simp only [List.all_cons, List.all_nil, Bool.and_true, Bool.and_eq_true] at hk
    simp only [highFirst_cons, hk, true_and, not_or, Nat.not_le] at h
    obtain ⟨h0, h1, h2, h3, -⟩ := h
    rw [sixBits_signed_low h0, sixBits_signed_low h1, sixBits_signed_low h2, sixBits_signed_low h3]

theorem highFirst_nil : ¬ HighFirst [] := by
  rintro ⟨p, b, r, h, -⟩
  simp at h

theorem highFirst_append_null : HighFirst (cs ++ [kBase64NullEnding]) ↔ HighFirst cs := by
  have hlow : ¬ 128 ≤ kBase64NullEnding.toNat := by decide
  induction cs with
  | nil =>
    rw [List.nil_append, highFirst_cons]
    simp only [hlow, false_or, highFirst_nil, and_false]
  | cons c cs ih =>
    rw [List.cons_append, highFirst_cons, highFirst_cons]
    exact or_congr_right (and_congr_right fun _ => ih)

theorem readsHigh_last (h : s.length ≤ 4) : ReadsHigh s ↔ HighFirst s := by
  constructor
  · rintro ⟨p, b, r, hs, hb, hp, -⟩
    exact ⟨p, b, r, hs, hb, hp⟩
  · rintro ⟨p, b, r, rfl, hb, hp⟩
    rw [List.length_append, List.length_cons] at h
    refine ⟨p, b, r, rfl, hb, hp, ?_⟩
    rw [show p.length / 4 * 4 = 0 by omega]
    exact List.not_mem_nil

theorem highFirst_block (h : cs.length ≤ 2) :
    HighFirst [c0, c1, cs.getD 0 kBase64NullEnding, cs.getD 1 kBase64NullEnding] ↔
      ReadsHigh (c0 :: c1 :: cs) := by
  match cs, h with
  | [], _ =>
    have hone : HighFirst ([c0, c1] ++ [kBase64NullEnding]) ↔ _ := highFirst_append_null
    have htwo : HighFirst ([c0, c1, kBase64NullEnding] ++ [kBase64NullEnding]) ↔ _ :=
      highFirst_append_null
    rw [readsHigh_last (by simp)]
    exact htwo.trans hone
  | [c2], _ =>
    have hone : HighFirst ([c0, c1, c2] ++ [kBase64NullEnding]) ↔ _ := highFirst_append_null
    rw [readsHigh_last (by simp)]
    exact hone
  | [c2, c3], _ =>
    rw [readsHigh_last (by simp)]
    rfl

theorem take_four (p : List UInt8) :
    (c0 :: c1 :: c2 :: c3 :: p).take ((c0 :: c1 :: c2 :: c3 :: p).length / 4 * 4) =
      [c0, c1, c2, c3] ++ p.take (p.length / 4 * 4) := by
  simp only [List.length_cons]
  rw [show (p.length + 1 + 1 + 1 + 1) / 4 * 4 = p.length / 4 * 4 + 4 by omega]
  rfl

theorem readsHigh_cons : ReadsHigh (c0 :: c1 :: c2 :: c3 :: cs) ↔
    HighFirst [c0, c1, c2, c3] ∨
      ((∀ c ∈ [c0, c1, c2, c3], known c = true ∧ c ≠ kBase64NullEnding) ∧ ReadsHigh cs) := by
  constructor
  · rintro ⟨p, b, r, h, hb, hp, hnull⟩
    match p with
    | [] =>
      obtain ⟨rfl, -⟩ := List.cons.inj h
      exact .inl ⟨[], c0, _, rfl, hb, hp⟩
    | [a0] =>
      simp only [List.cons_append, List.nil_append, List.cons.injEq] at h
      obtain ⟨rfl, rfl, -⟩ := h
      exact .inl ⟨[c0], c1, _, rfl, hb, hp⟩
    | [a0, a1] =>
      simp only [List.cons_append, List.nil_append, List.cons.injEq] at h
      obtain ⟨rfl, rfl, rfl, -⟩ := h
      exact .inl ⟨[c0, c1], c2, _, rfl, hb, hp⟩
    | [a0, a1, a2] =>
      simp only [List.cons_append, List.nil_append, List.cons.injEq] at h
      obtain ⟨rfl, rfl, rfl, rfl, -⟩ := h
      exact .inl ⟨[c0, c1, c2], c3, _, rfl, hb, hp⟩
    | a0 :: a1 :: a2 :: a3 :: p =>
      simp only [List.cons_append, List.cons.injEq] at h
      obtain ⟨rfl, rfl, rfl, rfl, rfl⟩ := h
      rw [take_four, List.mem_append, not_or] at hnull
      have hsplit : ([c0, c1, c2, c3] ++ p).all known = true := hp
      rw [List.all_append, Bool.and_eq_true] at hsplit
      refine .inr ⟨fun c hc => ⟨List.all_eq_true.mp hsplit.1 c hc, ?_⟩, p, b, r, rfl, hb, hsplit.2,
        hnull.2⟩
      rintro rfl
      exact hnull.1 hc
  · rintro (⟨p, b, r, h, hb, hp⟩ | ⟨hfour, p, b, r, rfl, hb, hp, hnull⟩)
    · have hlen := congrArg List.length h
      simp only [List.length_append, List.length_cons, List.length_nil] at hlen
      refine ⟨p, b, r ++ cs, ?_, hb, hp, ?_⟩
      · rw [← List.cons_append, ← List.append_assoc, ← h]
        rfl
      · rw [show p.length / 4 * 4 = 0 by omega]
        exact List.not_mem_nil
    · refine ⟨c0 :: c1 :: c2 :: c3 :: p, b, r, rfl, hb, ?_, ?_⟩
      · rw [List.all_eq_true] at hp ⊢
        intro c hc
        cases List.mem_append.mp (show c ∈ [c0, c1, c2, c3] ++ p from hc) with
        | inl hfirst => exact (hfour c hfirst).1
        | inr hrest => exact hp c hrest
      · rw [take_four, List.mem_append, not_or]
        exact ⟨fun hmem => (hfour _ hmem).2 rfl, hnull⟩

theorem decodeFrom_signed_last (h : input.drop i = c0 :: c1 :: cs) (hcs : cs.length ≤ 2)
    {output : List UInt8} :
    (ReadsHigh (c0 :: c1 :: cs) →
      decodeFrom .signed input (turns + 1) i o output = .error .reverseTable) ∧
    (¬ ReadsHigh (c0 :: c1 :: cs) → decodeFrom .signed input (turns + 1) i o output =
      decodeFrom .unsigned input (turns + 1) i o output) := by
  have hnil := drop_last h hcs
  rw [decodeFrom_cons h, decodeFrom_cons h, ← highFirst_block hcs]
  constructor
  · intro hhigh
    rw [decodeBlock_signed_high hhigh]
    rfl
  · intro hlow
    rw [decodeBlock_signed_low hlow]
    simp only [decodeFrom_nil hnil]

theorem spelled_isSome_iff : (spelled letter [c0, c1, c2, c3]).isSome = true ↔
    ∀ c ∈ [c0, c1, c2, c3], known c = true ∧ c ≠ kBase64NullEnding := by
  constructor
  · intro h c hc
    obtain ⟨xs, hxs⟩ := Option.isSome_iff_exists.mp h
    have hletter := (spelled_eq_some.mp hxs).mem hc
    refine ⟨?_, ne_of_spelled hxs hc⟩
    rw [known, Option.isSome_iff_ne_none.mpr hletter]
    rfl
  · intro h
    have h0 := h c0 (by simp)
    have h1 := h c1 (by simp)
    have h2 := h c2 (by simp)
    have h3 := h c3 (by simp)
    rw [spelled_letters (letter_of_known h0.1 h0.2) (letter_of_known h1.1 h1.2)
      (letter_of_known h2.1 h2.2) (letter_of_known h3.1 h3.2)]
    rfl

theorem decodeFrom_signed (h : input.drop i = rest) (hturns : rest.length ≤ turns)
    (hmod : rest.length % 4 ≠ 1) (hroom : hole.length = getBase64DecodedSize rest) :
    (ReadsHigh rest → decodeFrom .signed input turns i before.length (before ++ hole) =
      .error .reverseTable) ∧
    (¬ ReadsHigh rest → decodeFrom .signed input turns i before.length (before ++ hole) =
      decodeFrom .unsigned input turns i before.length (before ++ hole)) := by
  induction rest using decoded.induct generalizing turns i before hole with
  | case1 =>
    rw [decodeFrom_nil h, decodeFrom_nil h]
    refine ⟨fun hhigh => ?_, fun _ => rfl⟩
    exact absurd ((readsHigh_last (by simp)).mp hhigh) highFirst_nil
  | case2 c => exact absurd rfl hmod
  | case3 c0 c1 =>
    obtain ⟨turns, rfl⟩ := exists_turn hturns
    exact decodeFrom_signed_last h (by simp)
  | case4 c0 c1 c2 =>
    obtain ⟨turns, rfl⟩ := exists_turn hturns
    exact decodeFrom_signed_last h (by simp)
  | case5 c0 c1 c2 c3 =>
    obtain ⟨turns, rfl⟩ := exists_turn hturns
    exact decodeFrom_signed_last h (by simp)
  | case6 c0 c1 c2 c3 c4 cs ih =>
    obtain ⟨turns, rfl⟩ := exists_turn hturns
    have hmod' : (c4 :: cs).length % 4 ≠ 1 := by
      simp only [List.length_cons] at hmod ⊢
      omega
    rw [decodedSize_cons hmod'] at hroom
    rw [readsHigh_cons]
    by_cases hb : HighFirst [c0, c1, c2, c3]
    · refine ⟨fun _ => ?_, fun hlow => absurd (.inl hb) hlow⟩
      rw [decodeFrom_cons h]
      simp only [List.getD_cons_zero, List.getD_cons_succ]
      rw [decodeBlock_signed_high hb]
      rfl
    · rw [decodeFrom_inner h (by omega) (decodeBlock_signed_low hb),
        decodeFrom_inner h (by omega) rfl, ← spelled_isSome_iff]
      cases hs : spelled letter [c0, c1, c2, c3] with
      | none => simp [hb]
      | some xs =>
        have hlen := length_of_spelled hs
        simp only [List.length_cons, List.length_nil] at hlen
        simp only [Option.isSome_some, true_and, hb, false_or]
        exact ih (drop_four h) (by simp only [List.length_cons] at hturns ⊢; omega) hmod'
          (by rw [List.length_drop]; omega)

theorem base64Decode_signed (h : s.length % 4 ≠ 1) (output : Output) :
    (ReadsHigh s → base64Decode .signed s (some output) = .error .reverseTable) ∧
    (¬ ReadsHigh s →
      base64Decode .signed s (some output) = base64Decode .unsigned s (some output)) := by
  rw [base64Decode, base64Decode, if_neg h, if_neg h]
  exact @decodeFrom_signed s s [] _ s.length 0 rfl (Nat.le_refl _) h (length_resize output.buffer _)

theorem exact_signed_iff (h : s.length % 4 ≠ 1) (output : Output) :
    Exact .signed s output ↔ ¬ HalfPadded s ∧ ¬ ReadsHigh s := by
  have hsigned := base64Decode_signed h output
  rw [← exact_unsigned_iff h output]
  constructor
  · rintro ⟨r, hr, hexact⟩
    have hlow : ¬ ReadsHigh s := by
      intro hhigh
      cases (hsigned.1 hhigh).symm.trans hr
    exact ⟨⟨r, (hsigned.2 hlow).symm.trans hr, hexact⟩, hlow⟩
  · rintro ⟨⟨r, hr, hexact⟩, hlow⟩
    exact ⟨r, (hsigned.2 hlow).trans hr, hexact⟩

end Signed

theorem base64Decode_exact_iff (char : CharType) (s : List UInt8) (output : Output) :
    Exact char s output ↔
      ¬ HalfPadded s ∧ (char = .signed → s.length % 4 ≠ 1 → ¬ ReadsHigh s) := by
  by_cases h : s.length % 4 = 1
  · have hhalf : ¬ HalfPadded s := by
      rintro ⟨xs, body, -, hn, rfl⟩
      simp only [List.length_append, List.length_cons, List.length_nil] at h
      omega
    exact iff_of_true (exact_short char h output) ⟨hhalf, fun _ hne => absurd h hne⟩
  · cases char with
    | unsigned =>
      rw [exact_unsigned_iff h]
      exact (and_iff_left fun hchar => by cases hchar).symm
    | signed =>
      rw [exact_signed_iff h]
      simp [h]

theorem halfPadded_accepted :
    base64Decode .unsigned (bytes "QQ=") (some .inplace) = .ok (some [65, 0]) ∧
      base64Decode .unsigned (bytes "QQ=") (some (.other [1, 2])) = .ok (some [65, 2]) ∧
      (∀ xs, ¬ Encodes letter kBase64NullEnding xs (bytes "QQ=")) ∧
      ¬ Exact .unsigned (bytes "QQ=") .inplace := by
  have hhalf : HalfPadded (bytes "QQ=") :=
    ⟨[65], bytes "QQ", spelled_eq_some.mp (by decide +kernel), by decide +kernel, by decide +kernel⟩
  refine ⟨by decide +kernel, by decide +kernel, fun xs => not_encodes_of_halfPadded hhalf, ?_⟩
  rw [exact_unsigned_iff (by decide +kernel)]
  exact not_not_intro hhalf

end EnvironmentCheck.Base64
