import EnvironmentCheck.Base64Decode

namespace EnvironmentCheck.Base64

open Sextets

def getBase64EncodedSize (input : List UInt8) : ℕ := (input.length + 2) / 3 * 4

/-- `base64_table[i]` -/
def character (table : List UInt8) (i : UInt32) : Except OutOfBounds UInt8 :=
  match table[i.toNat]? with
  | some c => .ok c
  | none => .error .table

/-- The result of an `int` addition, which is undefined from `2 ^ 31` on. -/
def int (n : ℕ) : Except OutOfBounds ℕ := if n < 2 ^ 31 then .ok n else .error .int

def encodeBlock (table input : List UInt8) (i o : ℕ) (output : List UInt8) :
    Except OutOfBounds (List UInt8) :=
  (read input i).bind fun b0 =>
  (if i + 1 < input.length then read input (i + 1) else .ok 0).bind fun b1 =>
  (if i + 2 < input.length then read input (i + 2) else .ok 0).bind fun b2 =>
  let stream := (b2.toUInt32 &&& 0xFF : UInt32) ||| ((b1.toUInt32 &&& 0xFF : UInt32) <<< 8) |||
    ((b0.toUInt32 &&& 0xFF : UInt32) <<< 16)
  (character table ((stream >>> 18) &&& 0x3F)).bind fun c0 =>
  (store output (o + 0) c0).bind fun output =>
  (character table ((stream >>> 12) &&& 0x3F)).bind fun c1 =>
  (store output (o + 1) c1).bind fun output =>
  (if i + 1 < input.length then character table ((stream >>> 6) &&& 0x3F)
    else .ok kBase64NullEnding).bind fun c2 =>
  (store output (o + 2) c2).bind fun output =>
  (if i + 2 < input.length then character table ((stream >>> 0) &&& 0x3F)
    else .ok kBase64NullEnding).bind fun c3 =>
  store output (o + 3) c3

/-- The loop, with an upper bound for its turns. -/
def encodeFrom (table input : List UInt8) :
    ℕ → ℕ → ℕ → List UInt8 → Except OutOfBounds (List UInt8)
  | 0, _, _, output => .ok output
  | turns + 1, i, o, output =>
    if i < input.length then
      (encodeBlock table input i o output).bind fun output =>
      (int (i + 3)).bind fun i =>
      (int (o + 4)).bind fun o => encodeFrom table input turns i o output
    else .ok output

/-- If the last one or two characters are `=`, trim them. -/
def trim (output : List UInt8) : List UInt8 :=
  if output ≠ [] ∧ output[output.length - 1]? = some kBase64NullEnding then
    if output.length > 1 ∧ output[output.length - 2]? = some kBase64NullEnding then
      resize output (output.length - 2)
    else resize output (output.length - 1)
  else output

def base64EncodeInternal (input : List UInt8) :
    Option Output → Bool → Bool → Except OutOfBounds (Option (List UInt8))
  | none, _, _ => .ok none
  | some output, urlSafe, padTo32Bits =>
    (encodeFrom (if urlSafe then kBase64TableUrlSafe else kBase64Table) input input.length 0 0
      (resize output.buffer (getBase64EncodedSize input))).map fun output =>
        some (if padTo32Bits then output else trim output)

def base64Encode (input : List UInt8) (output : Option Output) :
    Except OutOfBounds (Option (List UInt8)) :=
  base64EncodeInternal input output false false

def base64EncodeWithPadding (input : List UInt8) (output : Option Output) :
    Except OutOfBounds (Option (List UInt8)) :=
  base64EncodeInternal input output false true

def base64EncodeUrlSafe (input : List UInt8) (output : Option Output) :
    Except OutOfBounds (Option (List UInt8)) :=
  base64EncodeInternal input output true false

def base64EncodeUrlSafeWithPadding (input : List UInt8) (output : Option Output) :
    Except OutOfBounds (Option (List UInt8)) :=
  base64EncodeInternal input output true true

def spell (table : List UInt8) (d : Fin 64) : UInt8 := table.getD d.val kBase64NullEnding

def text (table xs : List UInt8) : List UInt8 := (sextets xs).map (spell table)

def padding (n : ℕ) : List UInt8 := List.replicate ((4 - n % 4) % 4) kBase64NullEnding

section Block

variable {table input before hole rest : List UInt8} {i : ℕ} {a b c d x y z : UInt8}

theorem character_eq (ht : table.length = 64) {w : UInt32} {n : ℕ} (h : w.toNat = n) (hn : n < 64) :
    character table w = .ok (spell table (.ofNat 64 n)) := by
  have hlt : n < table.length := by omega
  rw [character, h, spell, Fin.val_ofNat, Nat.mod_eq_of_lt hn, List.getElem?_eq_getElem hlt,
    List.getD_eq_getElem _ _ hlt]

theorem read_drop (h : input.drop i = rest) (k : ℕ) {x : UInt8} (hx : rest[k]? = some x) :
    read input (i + k) = .ok x := by
  rw [read, getElem?_of_drop h k, hx]

theorem length_drop (h : input.drop i = x :: rest) : input.length = i + 1 + rest.length := by
  have hlen := congrArg List.length h
  rw [List.length_drop, List.length_cons] at hlen
  omega

/-- The four characters that a turn of the loop stores. -/
def characters (table : List UInt8) (x y z : UInt8) (second third : Bool) : List UInt8 :=
  [spell table (digitOf (x.toNat / 4)), spell table (digitOf (x.toNat % 4 * 16 + y.toNat / 16)),
    if second then spell table (digitOf (y.toNat % 16 * 4 + z.toNat / 64)) else kBase64NullEnding,
    if third then spell table (digitOf (z.toNat % 64)) else kBase64NullEnding]

def storeCharacters (table : List UInt8) (x y z : UInt8) (second third : Bool) (o : ℕ)
    (output : List UInt8) : Except OutOfBounds (List UInt8) :=
  let stream := join x.toUInt32 y.toUInt32 z.toUInt32
  (character table (sextetAt stream 18)).bind fun c0 =>
  (store output (o + 0) c0).bind fun output =>
  (character table (sextetAt stream 12)).bind fun c1 =>
  (store output (o + 1) c1).bind fun output =>
  (if second then character table (sextetAt stream 6) else .ok kBase64NullEnding).bind fun c2 =>
  (store output (o + 2) c2).bind fun output =>
  (if third then character table (sextetAt stream 0) else .ok kBase64NullEnding).bind fun c3 =>
  store output (o + 3) c3

theorem storeCharacters_eq (ht : table.length = 64) (second third : Bool) :
    storeCharacters table x y z second third before.length (before ++ a :: b :: c :: d :: hole) =
      .ok (before ++ characters table x y z second third ++ hole) := by
  have hx := x.toNat_lt
  have hy := y.toNat_lt
  have hz := z.toNat_lt
  have hstore : ∀ (before hole : List UInt8) (n : ℕ) (h b : UInt8), before.length = n →
      store (before ++ h :: hole) n b = .ok (before ++ b :: hole) := by
    rintro before hole n h b rfl
    exact store_append before hole h b
  have hif : ∀ (p : Bool) (w : UInt32) (n : ℕ), w.toNat = n → n < 64 →
      (if p then character table w else .ok kBase64NullEnding) =
        .ok (if p then spell table (.ofNat 64 n) else kBase64NullEnding) := by
    intro p w n h hn
    cases p with
    | false => rfl
    | true => exact character_eq ht h hn
  rw [storeCharacters, character_eq ht (join_first x y z) (by omega),
    character_eq ht (join_second x y z) (by omega), hif _ _ _ (join_third x y z) (by omega),
    hif _ _ _ (join_fourth x y z) (by omega)]
  simp only [Except.bind]
  rw [hstore before _ (before.length + 0) _ _ rfl]
  simp only
  rw [List.append_cons, hstore _ _ _ _ _ (by simp)]
  simp only
  rw [List.append_cons, hstore _ _ _ _ _ (by simp)]
  simp only
  rw [List.append_cons, hstore _ _ _ _ _ (by simp)]
  simp [characters]

theorem encodeBlock_cons {output : List UInt8} (h : input.drop i = x :: rest) (o : ℕ) :
    encodeBlock table input i o output = storeCharacters table x (rest.getD 0 0) (rest.getD 1 0)
      (0 < rest.length) (1 < rest.length) o output := by
  have hlen := length_drop h
  have hsecond : i + 1 < input.length ↔ 0 < rest.length := by omega
  have hthird : i + 2 < input.length ↔ 1 < rest.length := by omega
  have hfirst : read input i = .ok x := read_drop h 0 rfl
  have hread : ∀ k, (if k < rest.length then read input (i + (k + 1)) else .ok 0) =
      .ok (rest.getD k 0) := by
    intro k
    split_ifs with hk
    · rw [List.getD_eq_getElem _ _ hk]
      exact read_drop h (k + 1) (List.getElem?_eq_getElem hk)
    · rw [List.getD_eq_default _ _ (Nat.le_of_not_lt hk)]
  rw [encodeBlock]
  simp only [hsecond, hthird, hfirst, hread 0, hread 1, Except.bind]
  simp only [storeCharacters, decide_eq_true_eq, Except.bind]
  rfl

end Block

section Loop

variable {table input before hole rest : List UInt8} {turns i o : ℕ} {x y z : UInt8}

theorem encodeFrom_nil {output : List UInt8} (h : input.drop i = []) :
    encodeFrom table input turns i o output = .ok output := by
  cases turns with
  | zero => rfl
  | succ turns =>
    rw [encodeFrom, if_neg]
    rw [List.drop_eq_nil_iff] at h
    omega

theorem encodeFrom_cons (ht : table.length = 64) (h : input.drop i = x :: rest)
    (hroom : 4 ≤ hole.length) (hi : i ≤ before.length) :
    encodeFrom table input (turns + 1) i before.length (before ++ hole) =
      if before.length + 4 < 2 ^ 31 then
        encodeFrom table input turns (i + 3) (before.length + 4) (before ++
          characters table x (rest.getD 0 0) (rest.getD 1 0) (0 < rest.length) (1 < rest.length) ++
          hole.drop 4)
      else .error .int := by
  have hlen := length_drop h
  match hole, hroom with
  | a :: b :: c :: d :: hole, _ =>
    rw [encodeFrom, if_pos (by omega), encodeBlock_cons h, storeCharacters_eq ht]
    by_cases hint : before.length + 4 < 2 ^ 31
    · have hi3 : int (i + 3) = .ok (i + 3) := if_pos (by omega)
      have ho4 : int (before.length + 4) = .ok (before.length + 4) := if_pos hint
      simp only [Except.bind, hi3, ho4, if_pos hint]
      rfl
    · have ho4 : int (before.length + 4) = .error .int := if_neg hint
      simp only [Except.bind, ho4, if_neg hint]
      cases hi3 : int (i + 3) with
      | ok n => rfl
      | error e =>
        unfold int at hi3
        split_ifs at hi3
        exact congrArg Except.error (Except.error.inj hi3).symm

theorem text_cons (xs : List UInt8) :
    text table (x :: y :: z :: xs) = characters table x y z true true ++ text table xs := rfl

theorem length_text (xs : List UInt8) : (text table xs).length = (4 * xs.length + 2) / 3 := by
  rw [text, List.length_map, length_sextets]

theorem encodeFrom_last (ht : table.length = 64) (h : input.drop i = x :: rest)
    (hrest : rest.length < 2) (hroom : hole.length = 4) (hi : i ≤ before.length) :
    encodeFrom table input (turns + 1) i before.length (before ++ hole) =
      if before.length + hole.length < 2 ^ 31 then
        .ok (before ++ characters table x (rest.getD 0 0) (rest.getD 1 0) (0 < rest.length)
          (1 < rest.length))
      else .error .int := by
  have hnil : input.drop (i + 3) = [] := by
    rw [← List.drop_drop, h, List.drop_eq_nil_iff, List.length_cons]
    omega
  rw [encodeFrom_cons ht h (Nat.le_of_eq hroom.symm) hi, encodeFrom_nil hnil, hroom,
    List.drop_eq_nil_of_le (Nat.le_of_eq hroom), List.append_nil]

theorem encodeFrom_eq (ht : table.length = 64) (h : input.drop i = rest)
    (hturns : rest.length ≤ turns) (hroom : hole.length = getBase64EncodedSize rest)
    (hi : i ≤ before.length) (ho : before.length < 2 ^ 31) :
    encodeFrom table input turns i before.length (before ++ hole) =
      if before.length + hole.length < 2 ^ 31 then
        .ok (before ++ (text table rest ++ padding (text table rest).length))
      else .error .int := by
  unfold getBase64EncodedSize at hroom
  induction rest using sextets.induct generalizing turns i before hole with
  | case1 =>
    have hempty : hole = [] := List.eq_nil_of_length_eq_zero hroom
    rw [encodeFrom_nil h, hempty, List.length_nil, Nat.add_zero, if_pos ho]
    simp [text, sextets, padding]
  | case2 x =>
    obtain ⟨turns, rfl⟩ := exists_turn hturns
    rw [encodeFrom_last ht h (by simp) (by simpa using hroom) hi]
    simp [text, sextets, characters, padding]
  | case3 x y =>
    obtain ⟨turns, rfl⟩ := exists_turn hturns
    rw [encodeFrom_last ht h (by simp) (by simpa using hroom) hi]
    simp [text, sextets, characters, padding]
  | case4 x y z rest ih =>
    obtain ⟨turns, rfl⟩ := exists_turn hturns
    simp only [List.length_cons] at hroom hturns
    have hdrop : input.drop (i + 3) = rest := by
      rw [← List.drop_drop, h]
      rfl
    have hmod : (text table (x :: y :: z :: rest)).length % 4 = (text table rest).length % 4 := by
      rw [text_cons, List.length_append]
      exact Nat.add_mod_left 4 _
    have hpadding : padding (text table (x :: y :: z :: rest)).length =
        padding (text table rest).length := by
      rw [padding, hmod]
      rfl
    rw [encodeFrom_cons ht h (by omega) hi]
    by_cases hint : before.length + 4 < 2 ^ 31
    · have hrest := @ih (before ++ characters table x y z true true) (hole.drop 4) turns (i + 3) hdrop
        (by omega)
        (by rw [List.length_drop]; omega)
        (by rw [List.length_append]; exact Nat.add_le_add hi (by decide : 3 ≤ 4))
        (by rw [List.length_append]; exact hint)
      have hlen : (before ++ characters table x y z true true).length = before.length + 4 := by
        rw [List.length_append]
        rfl
      rw [hlen, List.length_drop, show before.length + 4 + (hole.length - 4) =
        before.length + hole.length by omega] at hrest
      rw [if_pos hint, hpadding, text_cons]
      simp only [List.append_assoc] at hrest ⊢
      exact hrest
    · rw [if_neg hint, if_neg (by omega)]

end Loop

section Trim

variable {body : List UInt8}

theorem trim_append (h : kBase64NullEnding ∉ body) (hmod : body.length % 4 ≠ 1) :
    trim (body ++ padding body.length) = body := by
  obtain hn | hn | hn : body.length % 4 = 0 ∨ body.length % 4 = 2 ∨ body.length % 4 = 3 := by omega
  · have hnil : padding body.length = [] := by
      rw [padding, hn]
      rfl
    rw [hnil, List.append_nil, trim, if_neg]
    exact fun hlast => h (List.mem_of_getElem? hlast.2)
  · rw [padding, hn]
    simp [trim, resize, List.replicate_succ]
  · have hpadding : padding body.length = [kBase64NullEnding] := by
      rw [padding, hn]
      rfl
    have hlength : (body ++ [kBase64NullEnding]).length = body.length + 1 := List.length_append
    have hbefore : (body ++ [kBase64NullEnding])[body.length + 1 - 2]? ≠ some kBase64NullEnding := by
      rw [List.getElem?_append_left (by omega)]
      intro hlast
      exact h (List.mem_of_getElem? hlast)
    rw [hpadding, trim, hlength, if_pos, if_neg fun hlast => hbefore hlast.2]
    · simp [resize]
    · simp

end Trim

section Encoding

variable {xs : List UInt8}

def encodingTable (urlSafe : Bool) : List UInt8 :=
  if urlSafe then kBase64TableUrlSafe else kBase64Table

def encoding (urlSafe padTo32Bits : Bool) (xs : List UInt8) : List UInt8 :=
  let body := text (encodingTable urlSafe) xs
  if padTo32Bits then body ++ padding body.length else body

theorem length_encodingTable (urlSafe : Bool) : (encodingTable urlSafe).length = 64 := by
  cases urlSafe <;> decide +kernel

theorem letter_spell (urlSafe : Bool) (d : Fin 64) :
    letter (spell (encodingTable urlSafe) d) = some d := by
  have hlt : d.val < (encodingTable urlSafe).length := by
    rw [length_encodingTable]
    exact d.isLt
  have hspell := List.getElem?_eq_getElem hlt
  rw [← List.getD_eq_getElem _ kBase64NullEnding hlt] at hspell
  rw [letter_eq_some]
  cases urlSafe with
  | false => exact .inl hspell
  | true => exact .inr hspell

theorem spells_text (urlSafe : Bool) (xs : List UInt8) :
    Spells letter xs (text (encodingTable urlSafe) xs) := by
  rw [Spells, text, List.map_map]
  apply List.map_congr_left
  intro d _
  exact letter_spell urlSafe d

theorem nullEnding_not_mem_text (urlSafe : Bool) (xs : List UInt8) :
    kBase64NullEnding ∉ text (encodingTable urlSafe) xs :=
  fun hmem => (spells_text urlSafe xs).mem hmem letter_nullEnding

theorem encodes_encoding (urlSafe padTo32Bits : Bool) (xs : List UInt8) :
    Encodes letter kBase64NullEnding xs (encoding urlSafe padTo32Bits xs) := by
  refine ⟨_, spells_text urlSafe xs, ?_⟩
  cases padTo32Bits with
  | false => exact .inl rfl
  | true => exact .inr rfl

theorem base64EncodeInternal_eq (xs : List UInt8) (output : Output) (urlSafe padTo32Bits : Bool) :
    base64EncodeInternal xs (some output) urlSafe padTo32Bits =
      if getBase64EncodedSize xs < 2 ^ 31 then .ok (some (encoding urlSafe padTo32Bits xs))
      else .error .int := by
  have hsize := length_resize output.buffer (getBase64EncodedSize xs)
  have hloop := @encodeFrom_eq (encodingTable urlSafe) xs [] _ xs xs.length 0
    (length_encodingTable urlSafe) rfl (Nat.le_refl _) hsize (Nat.le_refl _) (by decide)
  rw [hsize, List.length_nil, Nat.zero_add, List.nil_append, List.nil_append] at hloop
  have htable : (if urlSafe then kBase64TableUrlSafe else kBase64Table) = encodingTable urlSafe := rfl
  rw [base64EncodeInternal, htable, hloop]
  by_cases hint : getBase64EncodedSize xs < 2 ^ 31
  · rw [if_pos hint, if_pos hint, Except.map]
    cases padTo32Bits with
    | true => rfl
    | false =>
      simp only [Bool.false_eq_true, ↓reduceIte, encoding]
      rw [trim_append (nullEnding_not_mem_text urlSafe xs) (spells_text urlSafe xs).length_ne]
  · rw [if_neg hint, if_neg hint]
    rfl

theorem length_padded (urlSafe : Bool) (xs : List UInt8) :
    (encoding urlSafe true xs).length = getBase64EncodedSize xs := by
  simp only [encoding, ↓reduceIte, List.length_append, length_text, padding, List.length_replicate,
    getBase64EncodedSize]
  omega

theorem decodedSize_encoding (urlSafe padTo32Bits : Bool) (xs : List UInt8) :
    getBase64DecodedSize (encoding urlSafe padTo32Bits xs) = xs.length := by
  obtain ⟨body, p, hs, hbody, ht, hshort⟩ := encodes_iff.mp (encodes_encoding urlSafe padTo32Bits xs)
  rw [hs]
  exact decodedSize_append ht hbody hshort

theorem letter_high {c : UInt8} (h : 128 ≤ c.toNat) : letter c = none :=
  Option.eq_none_iff_forall_ne_some.mpr fun _ hl => Nat.not_lt.mpr h (ascii_of_letter hl).1

theorem low_of_encodes {s : List UInt8} (h : Encodes letter kBase64NullEnding xs s) {c : UInt8}
    (hc : c ∈ s) : c.toNat < 128 := by
  have hnull : kBase64NullEnding.toNat < 128 := by decide
  have hbody : ∀ {body : List UInt8}, Spells letter xs body → c ∈ body → c.toNat < 128 :=
    fun hspells hmem => Nat.lt_of_not_le fun hhigh => hspells.mem hmem (letter_high hhigh)
  obtain ⟨body, hspells, rfl | rfl⟩ := h
  · exact hbody hspells hc
  · cases List.mem_append.mp hc with
    | inl hmem => exact hbody hspells hmem
    | inr hmem =>
      rw [List.eq_of_mem_replicate hmem]
      exact hnull

theorem base64Decode_of_encodes {s : List UInt8} (char : CharType)
    (h : Encodes letter kBase64NullEnding xs s) (output : Output) :
    base64Decode char s (some output) = .ok (some xs) := by
  have hr := base64Decode_encodes h output
  cases char with
  | unsigned => exact hr
  | signed =>
    have hmod := length_of_encodes h
    have hlow : ¬ ReadsHigh s := by
      rintro ⟨p, b, r, rfl, hb, -⟩
      have hlt := low_of_encodes h (c := b) (by simp)
      omega
    exact ((base64Decode_signed hmod output).2 hlow).trans hr

end Encoding

inductive Encoder where
  | base64Encode
  | base64EncodeWithPadding
  | base64EncodeUrlSafe
  | base64EncodeUrlSafeWithPadding

def Encoder.run : Encoder → List UInt8 → Option Output → Except OutOfBounds (Option (List UInt8))
  | .base64Encode => Base64.base64Encode
  | .base64EncodeWithPadding => Base64.base64EncodeWithPadding
  | .base64EncodeUrlSafe => Base64.base64EncodeUrlSafe
  | .base64EncodeUrlSafeWithPadding => Base64.base64EncodeUrlSafeWithPadding

def Encoder.Pads : Encoder → Prop
  | .base64Encode => False
  | .base64EncodeWithPadding => True
  | .base64EncodeUrlSafe => False
  | .base64EncodeUrlSafeWithPadding => True

theorem Encoder.run_eq (encoder : Encoder) : ∃ urlSafe padTo32Bits, (encoder.Pads → padTo32Bits = true) ∧
    ∀ xs output, encoder.run xs output = base64EncodeInternal xs output urlSafe padTo32Bits := by
  cases encoder with
  | base64Encode => exact ⟨false, false, False.elim, fun _ _ => rfl⟩
  | base64EncodeWithPadding => exact ⟨false, true, fun _ => rfl, fun _ _ => rfl⟩
  | base64EncodeUrlSafe => exact ⟨true, false, False.elim, fun _ _ => rfl⟩
  | base64EncodeUrlSafeWithPadding => exact ⟨true, true, fun _ => rfl, fun _ _ => rfl⟩

theorem base64_round_trip (char : CharType) (encoder : Encoder) {xs : List UInt8}
    (h : (xs.length + 2) / 3 * 4 < 2 ^ 31) (output output' : Output) :
    ∃ s, encoder.run xs (some output) = .ok (some s) ∧
      base64Decode char s (some output') = .ok (some xs) ∧
      (encoder.Pads → s.length = getBase64EncodedSize xs) ∧
      getBase64DecodedSize s = xs.length := by
  obtain ⟨urlSafe, padTo32Bits, hpads, hrun⟩ := encoder.run_eq
  refine ⟨encoding urlSafe padTo32Bits xs, ?_, ?_, ?_, decodedSize_encoding urlSafe padTo32Bits xs⟩
  · rw [hrun, base64EncodeInternal_eq]
    exact if_pos h
  · exact base64Decode_of_encodes char (encodes_encoding urlSafe padTo32Bits xs) output'
  · intro hp
    rw [hpads hp]
    exact length_padded urlSafe xs

theorem base64_round_trip_inplace :
    ∃ s, base64EncodeUrlSafe [251, 255] (some .inplace) = .ok (some s) ∧
      base64Decode .signed s (some .inplace) = .ok (some [251, 255]) := by
  obtain ⟨s, hs, hd, -, -⟩ := @base64_round_trip .signed .base64EncodeUrlSafe [251, 255]
    (by decide) .inplace .inplace
  exact ⟨s, hs, hd⟩

end EnvironmentCheck.Base64
