import EnvironmentCheck.Base64Bounds

namespace EnvironmentCheck.Base64

open Sextets

/-- `decodeFrom` with the `int` sum of the test for the end of the input. -/
def decodeIndexedFrom (char : CharType) (input : List UInt8) :
    ℕ → ℕ → ℕ → List UInt8 → Except OutOfBounds (Option (List UInt8))
  | 0, _, _, output => .ok (some output)
  | turns + 1, i, o, output =>
    if i < input.length then
      (read input (i + 0)).bind fun input0 =>
      (read input (i + 1)).bind fun input1 =>
      let input2 := input.getD (i + 2) kBase64NullEnding
      let input3 := input.getD (i + 3) kBase64NullEnding
      (unknown char [input0, input1, input2, input3]).bind fun u =>
      if u then .ok none
      else
        (int (i + 4)).bind fun next =>
        (decodeBlock char input0 input1 input2 input3 (next ≥ input.length) o output).bind fun
          | none => .ok none
          | some output => decodeIndexedFrom char input turns next (o + 3) output
    else .ok (some output)

/-- `Base64Decode`, for an input of any length. -/
def base64DecodeIndexed (char : CharType) (input : List UInt8) :
    Option Output → Except OutOfBounds (Option (List UInt8))
  | none => .ok none
  | some output =>
    if input.length % 4 = 1 then .ok none
    else decodeIndexedFrom char input input.length 0 0
      (resize output.buffer (getBase64DecodedSize input))

section Unknown

variable {char : CharType} {cs : List UInt8}

theorem unknown_of_known (h : cs.all known = true) : unknown char cs = .ok false := by
  have hunsigned : unknown .unsigned cs = .ok false := by rw [unknown_unsigned, h]; rfl
  cases char with
  | unsigned => exact hunsigned
  | signed =>
    rw [unknown_signed_low, hunsigned]
    rintro ⟨p, b, r, rfl, hb, -⟩
    have hknown := List.all_eq_true.mp h b (by simp)
    rw [known, letter_high hb, Option.isSome_none, Bool.false_or, decide_eq_true_eq] at hknown
    rw [hknown] at hb
    exact absurd hb (by decide)

theorem unknown_ne_false (h : ¬ cs.all known = true) : unknown char cs ≠ .ok false := by
  have hunsigned : unknown .unsigned cs ≠ .ok false := by
    rw [unknown_unsigned, Bool.eq_false_of_not_eq_true h]
    exact fun he => Bool.noConfusion (Except.ok.inj he)
  cases char with
  | unsigned => exact hunsigned
  | signed =>
    by_cases hhigh : HighFirst cs
    · rw [unknown_signed_high hhigh]
      intro he
      cases he
    · rwa [unknown_signed_low hhigh]

end Unknown

/-- The turn that comes to byte `2 ^ 31 - 4` after letters alone, and finds no unknown character
there: the index of its next block is not an `int`. -/
def Overruns (i : ℕ) (rest : List UInt8) : Prop :=
  ∃ p r, rest = p ++ r ∧ i + p.length + 4 = 2 ^ 31 ∧ r ≠ [] ∧
    (∀ c ∈ p, known c = true ∧ c ≠ kBase64NullEnding) ∧ (r.take 4).all known = true

section Overruns

variable {i : ℕ} {rest cs : List UInt8} {c0 c1 c2 c3 : UInt8}

theorem not_overruns_short (h : rest.length ≤ 4) (hi : i % 4 = 0) (hint : i + 4 < 2 ^ 31) :
    ¬ Overruns i rest := by
  rintro ⟨p, r, rfl, hlen, hr, -⟩
  have hpos := List.length_pos_iff.mpr hr
  rw [List.length_append] at h
  omega

theorem overruns_here (hint : i + 4 = 2 ^ 31) (hrest : rest ≠ []) :
    Overruns i rest ↔ (rest.take 4).all known = true := by
  constructor
  · rintro ⟨p, r, rfl, hlen, -, -, hknown⟩
    have hp : p = [] := List.eq_nil_of_length_eq_zero (by omega)
    rwa [hp, List.nil_append]
  · intro hknown
    exact ⟨[], rest, rfl, hint, hrest, by simp, hknown⟩

theorem overruns_cons (hi : i % 4 = 0) (hint : i + 4 < 2 ^ 31) :
    Overruns i (c0 :: c1 :: c2 :: c3 :: cs) ↔
      (∀ c ∈ [c0, c1, c2, c3], known c = true ∧ c ≠ kBase64NullEnding) ∧ Overruns (i + 4) cs := by
  constructor
  · rintro ⟨p, r, hs, hlen, hr, hp, hknown⟩
    obtain ⟨q, rfl⟩ : ∃ q, p = [c0, c1, c2, c3] ++ q := by
      have hfour : 4 ≤ p.length := by omega
      refine ⟨p.drop 4, ?_⟩
      have htake := congrArg (List.take 4) hs
      rw [List.take_append_of_le_length hfour] at htake
      rw [show [c0, c1, c2, c3] = p.take 4 from htake, List.take_append_drop]
    rw [List.append_assoc] at hs
    simp only [List.cons_append, List.nil_append, List.cons.injEq, true_and] at hs
    rw [List.length_append] at hlen
    refine ⟨fun c hc => hp c (List.mem_append_left q hc), q, r, hs, ?_, hr,
      fun c hc => hp c (List.mem_append_right _ hc), hknown⟩
    simp only [List.length_cons, List.length_nil] at hlen
    omega
  · rintro ⟨hfour, q, r, rfl, hlen, hr, hq, hknown⟩
    refine ⟨[c0, c1, c2, c3] ++ q, r, rfl, ?_, hr, ?_, hknown⟩
    · simp only [List.length_append, List.length_cons, List.length_nil]
      omega
    · intro c hc
      cases List.mem_append.mp hc with
      | inl hfirst => exact hfour c hfirst
      | inr hlater => exact hq c hlater

theorem known_block (h : cs.length ≤ 2) :
    [c0, c1, cs.getD 0 kBase64NullEnding, cs.getD 1 kBase64NullEnding].all known =
      ((c0 :: c1 :: cs).take 4).all known := by
  have hnull : known kBase64NullEnding = true := by decide +kernel
  match cs, h with
  | [], _ => simp [hnull]
  | [c2], _ => simp [hnull]
  | [c2, c3], _ => rfl

end Overruns

section Loop

variable {char : CharType} {input output before hole cs rest : List UInt8}
  {c0 c1 c2 c3 c4 : UInt8} {turns i o : ℕ}

theorem decodeIndexedFrom_nil (h : input.drop i = []) :
    decodeIndexedFrom char input turns i o output = .ok (some output) := by
  cases turns with
  | zero => rfl
  | succ turns =>
    rw [decodeIndexedFrom, if_neg]
    rw [List.drop_eq_nil_iff] at h
    omega

theorem decodeIndexedFrom_cons (h : input.drop i = c0 :: c1 :: cs) :
    decodeIndexedFrom char input (turns + 1) i o output =
      (unknown char [c0, c1, cs.getD 0 kBase64NullEnding, cs.getD 1 kBase64NullEnding]).bind fun u =>
      if u then .ok none
      else if i + 4 < 2 ^ 31 then
        (decodeBlock char c0 c1 (cs.getD 0 kBase64NullEnding) (cs.getD 1 kBase64NullEnding)
          (cs.length ≤ 2) o output).bind fun
            | none => .ok none
            | some output => decodeIndexedFrom char input turns (i + 4) (o + 3) output
      else .error .int := by
  have hlen := congrArg List.length h
  rw [List.length_drop, List.length_cons, List.length_cons] at hlen
  have h0 : input[i + 0]? = some c0 := getElem?_of_drop h 0
  have h1 : input[i + 1]? = some c1 := getElem?_of_drop h 1
  have h2 : input.getD (i + 2) kBase64NullEnding = cs.getD 0 kBase64NullEnding := getD_of_drop h 2
  have h3 : input.getD (i + 3) kBase64NullEnding = cs.getD 1 kBase64NullEnding := getD_of_drop h 3
  have hend : decide (i + 4 ≥ input.length) = decide (cs.length ≤ 2) := by
    apply decide_eq_decide.mpr
    omega
  rw [decodeIndexedFrom, if_pos (by omega)]
  simp only [read, h0, h1, h2, h3, ← hend, int]
  by_cases hint : i + 4 < 2 ^ 31
  · simp only [if_pos hint]
    rfl
  · simp only [if_neg hint]
    rfl

theorem decodeBlock_known {atEnd : Bool} :
    decodeBlock char c0 c1 c2 c3 atEnd o output =
      (unknown char [c0, c1, c2, c3]).bind fun u =>
      if u then .ok none else decodeBlock char c0 c1 c2 c3 atEnd o output := by
  rw [decodeBlock]
  cases unknown char [c0, c1, c2, c3] with
  | error e => rfl
  | ok u =>
    cases u with
    | true => rfl
    | false => rfl

theorem decodeIndexedFrom_step (h : input.drop i = c0 :: c1 :: cs) (hint : i + 4 < 2 ^ 31) :
    decodeIndexedFrom char input (turns + 1) i o output =
      (decodeBlock char c0 c1 (cs.getD 0 kBase64NullEnding) (cs.getD 1 kBase64NullEnding)
        (cs.length ≤ 2) o output).bind fun
          | none => .ok none
          | some output => decodeIndexedFrom char input turns (i + 4) (o + 3) output := by
  rw [decodeIndexedFrom_cons h, if_pos hint, decodeBlock_known]
  cases unknown char [c0, c1, cs.getD 0 kBase64NullEnding, cs.getD 1 kBase64NullEnding] with
  | error e => rfl
  | ok u =>
    cases u with
    | true => rfl
    | false => rfl

theorem decodeIndexedFrom_limit (h : input.drop i = c0 :: c1 :: cs) (hint : i + 4 = 2 ^ 31) :
    ([c0, c1, cs.getD 0 kBase64NullEnding, cs.getD 1 kBase64NullEnding].all known = true →
      decodeIndexedFrom char input (turns + 1) i o output = .error .int) ∧
    (¬ [c0, c1, cs.getD 0 kBase64NullEnding, cs.getD 1 kBase64NullEnding].all known = true →
      decodeIndexedFrom char input (turns + 1) i o output =
        decodeFrom char input (turns + 1) i o output) := by
  rw [decodeIndexedFrom_cons h, decodeFrom_cons h, if_neg (by omega)]
  constructor
  · intro hknown
    rw [unknown_of_known hknown]
    rfl
  · intro hunknown
    have hne : unknown char _ ≠ .ok false := unknown_ne_false hunknown
    rw [decodeBlock_known]
    cases hu : unknown char [c0, c1, cs.getD 0 kBase64NullEnding, cs.getD 1 kBase64NullEnding] with
    | error e => rfl
    | ok u =>
      cases u with
      | true => rfl
      | false => exact absurd hu hne

theorem decodeBlock_spelled {xs : List UInt8} (h : spelled letter [c0, c1, c2, c3] = some xs)
    (hroom : 3 ≤ hole.length) :
    decodeBlock char c0 c1 c2 c3 false before.length (before ++ hole) =
      .ok (some (before ++ xs ++ hole.drop xs.length)) := by
  have hunsigned := @decodeBlock_inner before hole c0 c1 c2 c3 hroom
  rw [h, Option.map_some] at hunsigned
  cases char with
  | unsigned => exact hunsigned
  | signed =>
    rw [decodeBlock_signed_low, hunsigned]
    rintro ⟨p, b, r, hs, hb, -⟩
    have hmem : b ∈ [c0, c1, c2, c3] := by simp [hs]
    exact (spelled_eq_some.mp h).mem hmem (letter_high hb)

theorem decodeBlock_not_spelled (h : spelled letter [c0, c1, c2, c3] = none)
    (hroom : 3 ≤ hole.length) :
    decodeBlock char c0 c1 c2 c3 false before.length (before ++ hole) = .ok none ∨
      decodeBlock char c0 c1 c2 c3 false before.length (before ++ hole) = .error .reverseTable := by
  have hunsigned := @decodeBlock_inner before hole c0 c1 c2 c3 hroom
  rw [h, Option.map_none] at hunsigned
  cases char with
  | unsigned => exact .inl hunsigned
  | signed =>
    by_cases hhigh : HighFirst [c0, c1, c2, c3]
    · exact .inr (decodeBlock_signed_high hhigh)
    · exact .inl ((decodeBlock_signed_low hhigh).trans hunsigned)

/-- What a run of the loop from byte `i` comes to, next to the loop of unbounded indices. -/
structure Agrees (char : CharType) (input : List UInt8) (turns i o : ℕ) (output rest : List UInt8) :
    Prop where
  overrun : Overruns i rest → decodeIndexedFrom char input turns i o output = .error .int
  within : ¬ Overruns i rest → decodeIndexedFrom char input turns i o output =
    decodeFrom char input turns i o output

theorem agrees_limit (h : input.drop i = c0 :: c1 :: cs) (hint : i + 4 = 2 ^ 31)
    (hknown : [c0, c1, cs.getD 0 kBase64NullEnding, cs.getD 1 kBase64NullEnding].all known =
      ((c0 :: c1 :: cs).take 4).all known) :
    Agrees char input (turns + 1) i o output (c0 :: c1 :: cs) := by
  have hlimit := @decodeIndexedFrom_limit char input output cs c0 c1 turns i o h hint
  rw [hknown, ← overruns_here hint (List.cons_ne_nil _ _)] at hlimit
  exact ⟨hlimit.1, hlimit.2⟩

theorem agrees_last (h : input.drop i = c0 :: c1 :: cs) (hcs : cs.length ≤ 2) (hi : i % 4 = 0)
    (hint : i + 4 ≤ 2 ^ 31) : Agrees char input (turns + 1) i o output (c0 :: c1 :: cs) := by
  obtain hlt | heq := Nat.lt_or_eq_of_le hint
  · have hshort : ¬ Overruns i (c0 :: c1 :: cs) :=
      not_overruns_short (by simp only [List.length_cons]; omega) hi hlt
    refine ⟨fun hover => absurd hover hshort, fun _ => ?_⟩
    have hnil := drop_last h hcs
    rw [decodeIndexedFrom_step h hlt, decodeFrom_cons h]
    cases decodeBlock char c0 c1 (cs.getD 0 kBase64NullEnding) (cs.getD 1 kBase64NullEnding)
      (cs.length ≤ 2) o output with
    | error e => rfl
    | ok r =>
      cases r with
      | none => rfl
      | some output => exact (decodeIndexedFrom_nil hnil).trans (decodeFrom_nil hnil).symm
  · exact agrees_limit h heq (known_block hcs)

theorem agrees_inner (h : input.drop i = c0 :: c1 :: c2 :: c3 :: cs) (hcs : cs ≠ [])
    (hroom : 3 ≤ hole.length) (hi : i % 4 = 0) (hint : i + 4 ≤ 2 ^ 31)
    (hrest : ∀ xs, xs.length = 3 → i + 4 < 2 ^ 31 →
      Agrees char input turns (i + 4) (before.length + 3) (before ++ xs ++ hole.drop 3) cs) :
    Agrees char input (turns + 1) i before.length (before ++ hole) (c0 :: c1 :: c2 :: c3 :: cs) := by
  obtain hlt | heq := Nat.lt_or_eq_of_le hint
  · have hpos := List.length_pos_iff.mpr hcs
    have hend : decide ((c2 :: c3 :: cs).length ≤ 2) = false := by
      simp only [List.length_cons, decide_eq_false_iff_not]
      omega
    have hstep := @decodeIndexedFrom_step char input (before ++ hole) _ c0 c1 turns i before.length h hlt
    have hloop := @decodeFrom_cons char input (before ++ hole) _ c0 c1 turns i before.length h
    rw [hend] at hstep hloop
    simp only [List.getD_cons_zero, List.getD_cons_succ] at hstep hloop
    cases hs : spelled letter [c0, c1, c2, c3] with
    | none =>
      have hnot : ¬ Overruns i (c0 :: c1 :: c2 :: c3 :: cs) := by
        rw [overruns_cons hi hlt, ← spelled_isSome_iff, hs]
        simp
      refine ⟨fun hover => absurd hover hnot, fun _ => ?_⟩
      rw [hstep, hloop]
      obtain hblock | hblock := @decodeBlock_not_spelled char before hole c0 c1 c2 c3 hs hroom
      · rw [hblock]
        rfl
      · rw [hblock]
        rfl
    | some xs =>
      have hthree : xs.length = 3 := by
        have hlen := length_of_spelled hs
        simp only [List.length_cons, List.length_nil] at hlen
        omega
      have hover : Overruns i (c0 :: c1 :: c2 :: c3 :: cs) ↔ Overruns (i + 4) cs := by
        rw [overruns_cons hi hlt, ← spelled_isSome_iff, hs]
        simp
      have hagrees := hrest xs hthree hlt
      rw [decodeBlock_spelled hs hroom, hthree] at hstep hloop
      exact ⟨fun ho => hstep.trans (hagrees.overrun (hover.mp ho)), fun hw =>
        hstep.trans ((hagrees.within fun ho => hw (hover.mpr ho)).trans hloop.symm)⟩
  · exact agrees_limit h heq rfl

theorem agrees_run (h : input.drop i = rest) (hturns : rest.length ≤ turns)
    (hmod : rest.length % 4 ≠ 1) (hroom : hole.length = getBase64DecodedSize rest)
    (hi : i % 4 = 0) (hint : i + 4 ≤ 2 ^ 31) :
    Agrees char input turns i before.length (before ++ hole) rest := by
  induction rest using decoded.induct generalizing turns i before hole with
  | case1 =>
    have hnot : ¬ Overruns i [] := by
      rintro ⟨p, r, hs, -, hr, -⟩
      exact hr (List.append_eq_nil_iff.mp hs.symm).2
    exact ⟨fun hover => absurd hover hnot, fun _ =>
      (decodeIndexedFrom_nil h).trans (decodeFrom_nil h).symm⟩
  | case2 c => exact absurd rfl hmod
  | case3 c0 c1 =>
    obtain ⟨turns, rfl⟩ := exists_turn hturns
    exact agrees_last h (by simp) hi hint
  | case4 c0 c1 c2 =>
    obtain ⟨turns, rfl⟩ := exists_turn hturns
    exact agrees_last h (by simp) hi hint
  | case5 c0 c1 c2 c3 =>
    obtain ⟨turns, rfl⟩ := exists_turn hturns
    exact agrees_last h (by simp) hi hint
  | case6 c0 c1 c2 c3 c4 cs ih =>
    obtain ⟨turns, rfl⟩ := exists_turn hturns
    simp only [List.length_cons] at hturns hmod
    have hmod' : (c4 :: cs).length % 4 ≠ 1 := by
      simp only [List.length_cons]
      omega
    rw [decodedSize_cons hmod'] at hroom
    apply agrees_inner h (List.cons_ne_nil c4 cs) (by omega) hi hint
    intro xs hthree hlt
    have hrest := @ih (before ++ xs) (hole.drop 3) turns (i + 4) (drop_four h)
      (by simp only [List.length_cons]; omega) hmod' (by rw [List.length_drop]; omega)
      (by omega) (by omega)
    rwa [List.length_append, hthree] at hrest

end Loop

section Results

variable {char : CharType} {s xs : List UInt8}

theorem base64DecodeIndexed_agrees (char : CharType) (h : s.length % 4 ≠ 1) (output : Output) :
    (Overruns 0 s → base64DecodeIndexed char s (some output) = .error .int) ∧
    (¬ Overruns 0 s → base64DecodeIndexed char s (some output) =
      base64Decode char s (some output)) := by
  rw [base64DecodeIndexed, base64Decode, if_neg h, if_neg h]
  have hagrees := @agrees_run char s [] _ s s.length 0 rfl (Nat.le_refl _) h
    (length_resize output.buffer _) rfl (by decide)
  exact ⟨hagrees.overrun, hagrees.within⟩

/-- Every access and every sum of the decoder is defined. -/
def Decodable (char : CharType) (s : List UInt8) : Prop :=
  s.length % 4 ≠ 1 → ¬ Overruns 0 s ∧ (char = .signed → ¬ ReadsHigh s)

theorem base64DecodeIndexed_ok_iff (char : CharType) (s : List UInt8) (output : Output) :
    (∃ r, base64DecodeIndexed char s (some output) = .ok r) ↔ Decodable char s := by
  by_cases h : s.length % 4 = 1
  · exact iff_of_true ⟨none, if_pos h⟩ fun hne => absurd h hne
  · have hagrees := base64DecodeIndexed_agrees char h output
    have hok := base64Decode_ok_iff char s output
    constructor
    · rintro ⟨r, hr⟩ -
      have hover : ¬ Overruns 0 s := by
        intro hover
        cases (hagrees.1 hover).symm.trans hr
      exact ⟨hover, fun hchar => hok.mp ⟨r, (hagrees.2 hover).symm.trans hr⟩ hchar h⟩
    · intro hdec
      rw [hagrees.2 (hdec h).1]
      exact hok.mpr fun hchar _ => (hdec h).2 hchar

theorem base64DecodeIndexed_eq (hdec : Decodable char s) (h : s.length % 4 ≠ 1) (output : Output) :
    base64DecodeIndexed char s (some output) = .ok ((decoded s).map fun xs =>
      xs ++ (resize output.buffer (getBase64DecodedSize s)).drop xs.length) := by
  obtain ⟨hover, hlow⟩ := hdec h
  rw [(base64DecodeIndexed_agrees char h output).2 hover, ← base64Decode_unsigned h]
  cases char with
  | unsigned => rfl
  | signed => exact (base64Decode_signed h output).2 (hlow rfl)

theorem not_overruns_encoding (urlSafe padTo32Bits : Bool)
    (hsize : getBase64EncodedSize xs < 2 ^ 31) :
    ¬ Overruns 0 (encoding urlSafe padTo32Bits xs) := by
  have hlen : (encoding urlSafe padTo32Bits xs).length ≤ getBase64EncodedSize xs := by
    cases padTo32Bits with
    | true => exact Nat.le_of_eq (length_padded urlSafe xs)
    | false =>
      simp only [encoding, Bool.false_eq_true, ↓reduceIte, length_text, getBase64EncodedSize]
      omega
  rintro ⟨p, r, hs, hint, hr, -⟩
  have hpos := List.length_pos_iff.mpr hr
  rw [hs, List.length_append] at hlen
  unfold getBase64EncodedSize at hlen hsize
  omega

end Results

end EnvironmentCheck.Base64
