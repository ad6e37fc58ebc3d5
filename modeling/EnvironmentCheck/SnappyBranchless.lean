import EnvironmentCheck.SnappyDecompressor
import EnvironmentCheck.SnappyWriter

namespace EnvironmentCheck.SnappyCodec

open BackReference Buffer LittleEndian

def advanceToNextTagArmOptimized (ip : List UInt8) (tag : UInt8) : Option (ℕ × UInt8 × List UInt8) := do
  let tagType := tag.toNat &&& 3
  if tagType = 0 then
    let nextLiteralTag := tag.toNat >>> 2 + 1
    return (tagType, ← ip[nextLiteralTag]?, ip.drop (nextLiteralTag + 1))
  else return (tagType, ← ip[tagType]?, ip.drop (tagType + 1))

/-- Both of the tags that may come next are loaded. -/
def advanceToNextTagX86Optimized (ip : List UInt8) (tag : UInt8) : Option (ℕ × UInt8 × List UInt8) := do
  let literalLen := tag.toNat >>> 2
  let tagType := tag.toNat &&& 3
  let isLiteral := tagType = 0
  let tagLiteral ← ip[1 + literalLen]?
  let tagCopy ← ip[tagType]?
  return (tagType, if isLiteral then tagLiteral else tagCopy,
    ip.drop (if isLiteral then 2 + literalLen else 1 + tagType))

def advanceToNextTag : Abi → List UInt8 → UInt8 → Option (ℕ × UInt8 × List UInt8)
  | .arm64V8a => advanceToNextTagArmOptimized
  | .armeabiV7a | .x86 | .x86_64 => advanceToNextTagX86Optimized

def extractOffset (abi : Abi) (val tagType : ℕ) : ℕ :=
  match abi with
  | .arm64V8a | .x86_64 => val &&& (0x0000FFFF00FF0000 >>> (tagType * 16) &&& 0xFFFF)
  | .armeabiV7a | .x86 => val &&& [0, 0xFF, 0xFFFF, 0].getD tagType 0

/-- `ip` is just past the tag, and `op` is relative to the base. -/
structure Branchless (σ : Type) where
  writer : σ
  tag : UInt8
  ip : List UInt8
  op : ℤ

variable {σ : Type}

/-- The address in the writer's output. -/
def address (base : ℕ) (op : ℤ) : ℕ := (base + op).toNat

/-- One of the two turns, and whether it breaks the loop. -/
def branchlessTurn (abi : Abi) (w : Writer σ) (base : ℕ) (b : Branchless σ) :
    Option (Bool × Branchless σ) := do
  let (tagType, tag, ip) ← advanceToNextTag abi b.ip b.tag
  let next ← load32 b.ip 0
  let len : ℕ := (kLengthMinusOffset b.tag % 2 ^ 8).toNat
  let lenMinOffset := kLengthMinusOffset b.tag - extractOffset abi next tagType
  let delta := b.op + lenMinOffset - len
  if lenMinOffset > 0 then
    if len &&& 0x80 ≠ 0 ∨ delta < 0 then return (true, b)
    else
      let (ok, writer) ←
        w.copy64BytesWithPatternExtension b.writer (address base b.op) (len - lenMinOffset).toNat
      return if ok then (false, ⟨writer, tag, ip, b.op + len⟩) else (true, { b with writer })
  else if delta < 0 then
    if tagType ≠ 0 then return (true, b)
    else
      let old ← load b.ip 0 kSlopBytes
      return (false, ⟨← w.memCopy b.writer (address base b.op) old, tag, ip, b.op + len⟩)
  else if tagType ≠ 0 then
    let writer ← w.memMove b.writer (address base b.op) (address base delta) kSlopBytes
    return (false, ⟨writer, tag, ip, b.op + len⟩)
  else
    let old ← load b.ip 0 kSlopBytes
    return (false, ⟨← w.memCopy b.writer (address base b.op) old, tag, ip, b.op + len⟩)

/-- The loop, with two turns before the limits are checked again. -/
def branchlessLoop (abi : Abi) (w : Writer σ) (base : ℕ) (limit : ℤ) :
    ℕ → Branchless σ → Option (Branchless σ)
  | 0, _ => none
  | fuel + 1, b => do
    let (stop, b) ← branchlessTurn abi w base b
    if stop then return b
    else
      let (stop, b) ← branchlessTurn abi w base b
      if stop then return b
      else if 2 * kSlopBytes + 1 < b.ip.length ∧ b.op < limit then branchlessLoop abi w base limit fuel b
      else return b

/-- `DecompressBranchless`, which gives back where it stopped in the input and in the output. -/
def decompressBranchless (abi : Abi) (w : Writer σ) (s : σ) (ip : List UInt8) (op : ℤ) (base : ℕ)
    (limit : ℤ) : Option (σ × List UInt8 × ℤ) :=
  let limit := limit - kSlopBytes
  match ip with
  | tag :: bytes =>
    if 2 * (kSlopBytes + 1) < ip.length ∧ op < limit then do
      let b ← branchlessLoop abi w base limit ip.length ⟨s, tag, bytes, op⟩
      return (b.writer, b.tag :: b.ip, b.op)
    else some (s, ip, op)
  | [] => some (s, ip, op)

variable {abi : Abi} {w : Writer σ} {n base : ℕ} {limit : ℤ} {s : σ} {op k : ℕ}
  {ip bytes out : List UInt8} {tag : UInt8}

/-- How far the next tag is from what follows this one. -/
def tagAdvance (tag : UInt8) : ℕ := if tag.toNat % 4 = 0 then tag.toNat / 4 + 1 else tag.toNat % 4

theorem exists_drop_eq_cons (h : k < ip.length) :
    ∃ b, ip[k]? = some b ∧ b :: ip.drop (k + 1) = ip.drop k := by
  refine ⟨ip[k], List.getElem?_eq_getElem h, ?_⟩
  rw [← List.drop_eq_getElem_cons h]

/-- Both ways to advance come to the same tag. -/
theorem advanceToNextTag_eq (abi : Abi) (tag : UInt8) (h : 64 < ip.length) :
    ∃ tag' ip', advanceToNextTag abi ip tag = some (tag.toNat % 4, tag', ip') ∧
      tag' :: ip' = ip.drop (tagAdvance tag) := by
  have hlt := tag.toNat_lt
  have hlow : tag.toNat &&& 3 = tag.toNat % 4 := Nat.and_two_pow_sub_one_eq_mod _ 2
  have hhigh : tag.toNat >>> 2 = tag.toNat / 4 := Nat.shiftRight_eq_div_pow _ 2
  obtain ⟨literal, hliteral, -⟩ := exists_drop_eq_cons (show tag.toNat / 4 + 1 < ip.length by omega)
  obtain ⟨copy, hcopy, -⟩ := exists_drop_eq_cons (show tag.toNat % 4 < ip.length by omega)
  have hnext : tagAdvance tag < ip.length := by
    rw [tagAdvance]
    split_ifs <;> omega
  obtain ⟨tag', htag', hdrop⟩ := exists_drop_eq_cons hnext
  have harm : advanceToNextTagArmOptimized ip tag =
      some (tag.toNat % 4, tag', ip.drop (tagAdvance tag + 1)) := by
    rw [tagAdvance] at htag' ⊢
    simp only [advanceToNextTagArmOptimized, hlow, hhigh]
    split_ifs at htag' ⊢ with htype
    · rw [htag', htype]
      rfl
    · rw [htag']
      rfl
  have hx86 : advanceToNextTagX86Optimized ip tag =
      some (tag.toNat % 4, tag', ip.drop (tagAdvance tag + 1)) := by
    rw [tagAdvance] at htag' ⊢
    simp only [advanceToNextTagX86Optimized, hlow, hhigh, Nat.add_comm 1, hliteral, hcopy,
      Option.bind_eq_bind, Option.bind_some]
    split_ifs at htag' ⊢ with htype
    · rw [hliteral] at htag'
      cases htag'
      rw [Nat.add_comm 2]
      rfl
    · rw [hcopy] at htag'
      cases htag'
      rfl
  refine ⟨tag', _, ?_, hdrop⟩
  cases abi
  · exact hx86
  · exact harm
  · exact hx86
  · exact hx86

theorem extractOffset_eq (abi : Abi) (tag : UInt8) (v : ℕ) : extractOffset abi v (tag.toNat % 4) =
    if tag.toNat % 4 = 1 then v % 256 else if tag.toNat % 4 = 2 then v % 256 ^ 2 else 0 := by
  have hone : v &&& 0xFF = v % 256 := Nat.and_two_pow_sub_one_eq_mod v 8
  have htwo : v &&& 0xFFFF = v % 256 ^ 2 := Nat.and_two_pow_sub_one_eq_mod v 16
  obtain h | h | h | h := tag_types tag
  all_goals
    rw [h]
    cases abi
  all_goals
    first
      | exact Nat.and_zero v
      | exact hone
      | exact htwo

theorem load_next (h : 4 ≤ ip.length) : load32 ip 0 = some (value (ip.take 4)) := by
  rw [load32, load_of_le (by omega), List.drop_zero, Option.map_some]

/-- What the writer holds at a turn, and where its output goes on. -/
structure Branchless.At (c : Contract w n) (base : ℕ) (limit : ℤ) (b : Branchless σ) (out : List UInt8) :
    Prop where
  base_eq : w.getBase b.writer = some (base, limit)
  address_nonneg : 0 ≤ base + b.op
  holds : c.Holds b.writer (address base b.op) out

/-- Whatever comes after these bytes, both decode to the same. -/
def Follows (stream out stream' out' : List UInt8) : Prop :=
  ∀ more final, Decodes (stream ++ more) out final ↔ Decodes (stream' ++ more) out' final

theorem Follows.of_element {stream rest next : List UInt8} {item : Item UInt8}
    (hread : readElement stream = some (item, rest)) (happly : item.apply out = some next) :
    Follows stream out rest next :=
  fun more _ => decodes_iff (readElement_append hread more) happly

theorem Follows.trans {s1 s2 s3 o1 o2 o3 : List UInt8} (h : Follows s1 o1 s2 o2)
    (h' : Follows s2 o2 s3 o3) : Follows s1 o1 s3 o3 :=
  fun more final => (h more final).trans (h' more final)

/-- A turn stops where it is, or it handles one element. -/
inductive Turned (c : Contract w n) (base : ℕ) (limit : ℤ) (b : Branchless σ) (out : List UInt8) :
    Option (Bool × Branchless σ) → Prop
  | stopped : Turned c base limit b out (some (true, b))
  | next {b' : Branchless σ} {out' : List UInt8} {k : ℕ} : b'.At c base limit out' →
    b'.tag :: b'.ip = b.ip.drop k → k ≤ 60 → b'.op ≤ b.op + 64 →
    Follows (b.tag :: b.ip) out (b'.tag :: b'.ip) out' → Turned c base limit b out (some (false, b'))

section Turn

variable {c : Contract w n} {b : Branchless σ}

theorem Branchless.At.advance {tag' : UInt8} {ip' : List UInt8} {s' : σ} {len : ℕ}
    (h : b.At c base limit out) (hbase : w.getBase s' = some (base, limit)) {out' : List UInt8}
    (hholds : c.Holds s' (address base b.op + len) out') :
    (⟨s', tag', ip', b.op + len⟩ : Branchless σ).At c base limit out' := by
  have hnonneg := h.address_nonneg
  have hsum : address base (b.op + len) = address base b.op + len := by
    simp only [address]
    omega
  refine ⟨hbase, ?_, ?_⟩
  · dsimp only
    omega
  · dsimp only
    rwa [hsum]

theorem literal_turned (h : b.At c base limit out) (hlt : b.op < limit) (hip : 64 < b.ip.length)
    (htype : b.tag.toNat % 4 = 0) (hshort : b.tag.toNat / 4 < 60) :
    Turned c base limit b out (branchlessTurn abi w base b) := by
  obtain ⟨tag', ip', hadvance, hdrop⟩ := advanceToNextTag_eq abi b.tag hip
  have hlength := elementLength_pos b.tag
  have hlong : elementLength b.tag = b.tag.toNat / 4 + 1 := by
    rw [elementLength, if_neg (by omega)]
  have hk : tagAdvance b.tag = elementLength b.tag := by
    rw [tagAdvance, if_pos htype, hlong]
  have hchunk : (b.ip.take kSlopBytes).length = 64 := by
    rw [List.length_take, kSlopBytes]
    omega
  have haddress : ((address base b.op : ℕ) : ℤ) - base = b.op := by
    have hnonneg := h.address_nonneg
    simp only [address]
    omega
  obtain ⟨s', hcopy, hbase, hholds⟩ :=
    c.memCopy (b.ip.take kSlopBytes) h.holds h.base_eq (by omega) hchunk
  have hnext := hholds (elementLength b.tag) (by omega)
  rw [List.take_take, Nat.min_eq_left (by rw [kSlopBytes]; omega)] at hnext
  have hold : load b.ip 0 kSlopBytes = some (b.ip.take kSlopBytes) :=
    load_of_le (by rw [kSlopBytes]; omega)
  have hentry := lengthMinusOffset_literal htype hshort
  have hlen : ((elementLength b.tag - 256 : ℤ) % 2 ^ 8).toNat = elementLength b.tag := by omega
  have hoffset : extractOffset abi (value (b.ip.take 4)) 0 = 0 := by
    have heq := extractOffset_eq abi b.tag (value (b.ip.take 4))
    rwa [htype] at heq
  have hnegative : ¬ (elementLength b.tag - 256 : ℤ) - (0 : ℕ) > 0 := by omega
  have hturn : branchlessTurn abi w base b =
      some (false, ⟨s', tag', ip', b.op + elementLength b.tag⟩) := by
    rw [branchlessTurn, hadvance, load_next (by omega)]
    simp only [Option.bind_eq_bind, Option.bind_some, htype, hentry, hlen, hoffset, hold,
      hcopy, if_neg hnegative, ne_eq, not_true_eq_false, if_false, ite_self]
    rfl
  rw [hturn]
  have hread : readElement (b.tag :: b.ip) =
      some (.literal (b.ip.take (elementLength b.tag)), b.ip.drop (elementLength b.tag)) := by
    rw [readElement_literal htype hshort]
    exact if_pos (by omega)
  apply Turned.next (h.advance hbase hnext) hdrop (by omega)
  · dsimp only
    omega
  · dsimp only
    rw [hdrop, hk]
    exact .of_element hread rfl

theorem exceptional_turned (hip : 64 < b.ip.length)
    (htype : b.tag.toNat % 4 = 3 ∨ b.tag.toNat % 4 = 0 ∧ ¬ b.tag.toNat / 4 < 60) :
    Turned c base limit b out (branchlessTurn abi w base b) := by
  obtain ⟨tag', ip', hadvance, -⟩ := advanceToNextTag_eq abi b.tag hip
  have hentry := lengthMinusOffset_exceptional htype
  have hoffset : extractOffset abi (value (b.ip.take 4)) (b.tag.toNat % 4) = 0 := by
    rw [extractOffset_eq, if_neg (by omega), if_neg (by omega)]
  have hpositive : (255 : ℤ) - (0 : ℕ) > 0 := by decide
  have hmarked : ((255 : ℤ) % 2 ^ 8).toNat &&& 0x80 ≠ 0 := by decide
  have hturn : branchlessTurn abi w base b = some (true, b) := by
    rw [branchlessTurn, hadvance, load_next (by omega)]
    simp only [Option.bind_eq_bind, Option.bind_some, hentry, hoffset, if_pos hpositive]
    rw [if_pos (Or.inl hmarked)]
    rfl
  rw [hturn]
  exact .stopped

theorem copy_turned (h : b.At c base limit out) (hlt : b.op < limit) (hip : 64 < b.ip.length)
    (htype : b.tag.toNat % 4 = 1 ∨ b.tag.toNat % 4 = 2) :
    Turned c base limit b out (branchlessTurn abi w base b) := by
  obtain ⟨tag', ip', hadvance, hdrop⟩ := advanceToNextTag_eq abi b.tag hip
  have hlength := elementLength_pos b.tag
  have hmax := elementLength_le b.tag
  have hlarge := trailerLength_le b.tag
  have htrailer : trailerLength b.tag = b.tag.toNat % 4 := by
    obtain htype | htype := htype <;> simp only [trailerLength, htype]
  have hk : tagAdvance b.tag = trailerLength b.tag := by
    rw [tagAdvance, if_neg (by omega), htrailer]
  have haddress : ((address base b.op : ℕ) : ℤ) - base = b.op := by
    have hnonneg := h.address_nonneg
    simp only [address]
    omega
  have hread := readElement_copy (show b.tag.toNat % 4 ≠ 0 by omega)
    (show trailerLength b.tag ≤ b.ip.length by omega)
  have hentry := lengthMinusOffset_copy htype
  have hlen : ((elementLength b.tag - 256 * tagOffset b.tag : ℤ) % 2 ^ 8).toNat = elementLength b.tag := by
    omega
  have hextract : extractOffset abi (value (b.ip.take 4)) (b.tag.toNat % 4) =
      value (b.ip.take (trailerLength b.tag)) := by
    have hvalue : value (b.ip.take 4) % 256 ^ trailerLength b.tag = value (b.ip.take (trailerLength b.tag)) := by
      rw [← value_take, List.take_take, Nat.min_eq_left hlarge]
    rw [extractOffset_eq, ← hvalue, htrailer]
    obtain htype | htype := htype
    · rw [if_pos htype, htype, pow_one]
    · rw [if_neg (by omega), if_pos htype, htype]
  have hoffset : (elementLength b.tag - 256 * tagOffset b.tag : ℤ) -
      value (b.ip.take (trailerLength b.tag)) = elementLength b.tag - copyOffset b.tag b.ip := by
    rw [copyOffset]
    omega
  have hmark : elementLength b.tag &&& 0x80 = 0 := by
    have hbit : (elementLength b.tag).testBit 7 = false := Nat.testBit_lt_two_pow (by omega)
    rw [show 0x80 = 2 ^ 7 from rfl, Nat.and_two_pow, hbit]
    rfl
  generalize copyOffset b.tag b.ip = offset at hread hoffset
  have hnext : 0 < offset → offset ≤ out.length → ∀ s',
      w.getBase s' = some (base, limit) →
      c.Holds s' (address base b.op + elementLength b.tag) (extend offset (elementLength b.tag) out) →
      Turned c base limit b out (some (false, ⟨s', tag', ip', b.op + elementLength b.tag⟩)) := by
    intro hpos hback s' hbase hholds
    apply Turned.next (h.advance hbase hholds) hdrop (by omega)
    · dsimp only
      omega
    · dsimp only
      rw [hdrop, hk]
      exact .of_element hread (if_pos ⟨hpos, hback⟩)
  have hwithin := c.base_le h.holds h.base_eq
  rw [branchlessTurn, hadvance, load_next (by omega)]
  simp only [Option.bind_eq_bind, Option.bind_some, hentry, hlen, hextract, hoffset, hmark, ne_eq,
    not_true_eq_false, false_or]
  have hback : b.op + (elementLength b.tag - offset : ℤ) - elementLength b.tag = b.op - offset := by ring
  have hdistance : ((elementLength b.tag : ℤ) - (elementLength b.tag - offset)).toNat = offset := by omega
  have htypes : ¬ b.tag.toNat % 4 = 0 := by omega
  rw [hback, hdistance]
  by_cases hoverlap : (elementLength b.tag : ℤ) - offset > 0
  · rw [if_pos hoverlap]
    by_cases hbefore : b.op - (offset : ℤ) < 0
    · rw [if_pos hbefore]
      exact .stopped
    · rw [if_neg hbefore]
      obtain rfl | hpos := Nat.eq_zero_or_pos offset
      · rw [c.copy64_zero h.base_eq]
        exact .stopped
      · obtain ⟨s', hcopy, hbase, hholds⟩ :=
          c.copy64 offset h.holds h.base_eq (by omega) hpos (by omega)
        rw [hcopy]
        exact hnext hpos (by omega) s' hbase (hholds _ hmax)
  · rw [if_neg hoverlap]
    by_cases hbefore : b.op - (offset : ℤ) < 0
    · rw [if_pos hbefore, if_pos htypes]
      exact .stopped
    · obtain ⟨s', hmove, hbase, hholds⟩ :=
        c.memMove offset h.holds h.base_eq (by omega) (by omega) (by omega)
      have hsource : address base (b.op - offset) = address base b.op - offset := by
        simp only [address]
        omega
      rw [if_neg hbefore, if_pos htypes, hsource, kSlopBytes, hmove]
      exact hnext (by omega) (by omega) s' hbase (hholds _ hmax (by omega))

theorem branchlessTurn_spec (h : b.At c base limit out) (hlt : b.op < limit) (hip : 64 < b.ip.length) :
    Turned c base limit b out (branchlessTurn abi w base b) := by
  obtain htype | htype | htype | htype := tag_types b.tag
  · by_cases hshort : b.tag.toNat / 4 < 60
    · exact literal_turned h hlt hip htype hshort
    · exact exceptional_turned hip (.inr ⟨htype, hshort⟩)
  · exact copy_turned h hlt hip (.inl htype)
  · exact copy_turned h hlt hip (.inr htype)
  · exact exceptional_turned hip (.inl htype)

/-- The whole loop, on which the same is true as on a turn. -/
structure Ran (c : Contract w n) (base : ℕ) (limit : ℤ) (b : Branchless σ) (out : List UInt8)
    (b' : Branchless σ) (out' : List UInt8) : Prop where
  at_end : b'.At c base limit out'
  suffix : b'.tag :: b'.ip <:+ b.tag :: b.ip
  follows : Follows (b.tag :: b.ip) out (b'.tag :: b'.ip) out'

theorem Ran.stay (h : b.At c base limit out) : Ran c base limit b out b out :=
  ⟨h, List.suffix_rfl, fun _ _ => Iff.rfl⟩

theorem Ran.next {b' b'' : Branchless σ} {out' out'' : List UInt8} (hdrop : b'.tag :: b'.ip = b.ip.drop k)
    (hfollows : Follows (b.tag :: b.ip) out (b'.tag :: b'.ip) out') (h : Ran c base limit b' out' b'' out'') :
    Ran c base limit b out b'' out'' := by
  refine ⟨h.at_end, h.suffix.trans ?_, hfollows.trans h.follows⟩
  rw [hdrop]
  exact (List.drop_suffix k b.ip).trans (List.suffix_cons b.tag b.ip)

theorem branchlessLoop_spec {fuel : ℕ} (h : b.At c base limit out) (hlt : b.op < limit - kSlopBytes)
    (hip : 2 * kSlopBytes + 1 < b.ip.length) (hfuel : b.ip.length < fuel) :
    ∃ b' out', branchlessLoop abi w base (limit - kSlopBytes) fuel b = some b' ∧
      Ran c base limit b out b' out' := by
  have hslop : kSlopBytes = 64 := rfl
  induction fuel generalizing b out with
  | zero => omega
  | succ fuel ih =>
    rw [branchlessLoop]
    have hturn : Turned c base limit b out (branchlessTurn abi w base b) :=
      branchlessTurn_spec h (by omega) (by omega)
    generalize branchlessTurn abi w base b = turn at hturn ⊢
    cases hturn with
    | stopped => exact ⟨b, out, rfl, .stay h⟩
    | @next b1 out1 k1 h1 hdrop1 hk1 hop1 hfollows1 =>
      have hlength1 := congrArg List.length hdrop1
      rw [List.length_cons, List.length_drop] at hlength1
      have hturn1 : Turned c base limit b1 out1 (branchlessTurn abi w base b1) :=
        branchlessTurn_spec h1 (by omega) (by omega)
      simp only [Option.bind_eq_bind, Option.bind_some, Bool.false_eq_true, if_false]
      generalize branchlessTurn abi w base b1 = turn1 at hturn1 ⊢
      cases hturn1 with
      | stopped => exact ⟨b1, out1, rfl, .next hdrop1 hfollows1 (.stay h1)⟩
      | @next b2 out2 k2 h2 hdrop2 hk2 hop2 hfollows2 =>
        have hlength2 := congrArg List.length hdrop2
        rw [List.length_cons, List.length_drop] at hlength2
        simp only [Option.bind_some, Bool.false_eq_true, if_false]
        split_ifs with hmore
        · obtain ⟨b3, out3, hloop, hran⟩ := ih h2 hmore.2 hmore.1 (by omega)
          exact ⟨b3, out3, hloop, .next hdrop1 hfollows1 (.next hdrop2 hfollows2 hran)⟩
        · exact ⟨b2, out2, rfl, .next hdrop1 hfollows1 (.next hdrop2 hfollows2 (.stay h2))⟩

theorem decompressBranchless_spec {op : ℤ} (abi : Abi) (ip : List UInt8) (c : Contract w n)
    (hbase : w.getBase s = some (base, limit))
    (hnonneg : 0 ≤ base + op) (hholds : c.Holds s (address base op) out) :
    ∃ s' ip' op' out', decompressBranchless abi w s ip op base limit = some (s', ip', op') ∧
      c.Holds s' (address base op') out' ∧ ip' <:+ ip ∧ Follows ip out ip' out' := by
  have hsame : ∃ s' ip' op' out', some (s, ip, op) = some (s', ip', op') ∧
      c.Holds s' (address base op') out' ∧ ip' <:+ ip ∧ Follows ip out ip' out' :=
    ⟨s, ip, op, out, rfl, hholds, List.suffix_rfl, fun _ _ => Iff.rfl⟩
  cases ip with
  | nil => exact hsame
  | cons tag bytes =>
    rw [decompressBranchless]
    split_ifs with henough
    · have hstart : (⟨s, tag, bytes, op⟩ : Branchless σ).At c base limit out := ⟨hbase, hnonneg, hholds⟩
      have hip : 2 * (kSlopBytes + 1) < bytes.length + 1 := henough.1
      obtain ⟨b, out', hloop, hran⟩ := branchlessLoop_spec hstart henough.2
        (show 2 * kSlopBytes + 1 < bytes.length by omega) (Nat.lt_succ_self _)
      rw [List.length_cons, hloop]
      exact ⟨b.writer, b.tag :: b.ip, b.op, out', rfl, hran.at_end.holds, hran.suffix, hran.follows⟩
    · exact hsame

end Turn

end EnvironmentCheck.SnappyCodec
