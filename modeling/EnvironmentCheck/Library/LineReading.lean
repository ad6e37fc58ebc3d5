import Mathlib.Data.List.TakeWhile

namespace EnvironmentCheck

namespace LineReading

variable {α : Type*} [DecidableEq α] (nl : α)

/-- One `fgets`: at most this many elements, up to and with the next `nl`, and what stays unread. -/
def fgets : ℕ → List α → List α × List α
  | 0, s => ([], s)
  | _ + 1, [] => ([], [])
  | n + 1, c :: s => if c = nl then ([c], s) else (c :: (fgets n s).1, (fgets n s).2)

def piecesFrom (room : ℕ) : ℕ → List α → List (List α)
  | 0, _ => []
  | _ + 1, [] => []
  | fuel + 1, c :: s =>
    (fgets nl room (c :: s)).1 :: piecesFrom room fuel (fgets nl room (c :: s)).2

/-- What a loop over `fgets` sees of a text, one piece after another. -/
def pieces (room : ℕ) (s : List α) : List (List α) :=
  piecesFrom nl room s.length s

variable {room : ℕ} {s : List α}

theorem fgets_append (room : ℕ) (s : List α) : (fgets nl room s).1 ++ (fgets nl room s).2 = s := by
  induction room generalizing s with
  | zero => rfl
  | succ n ih =>
    cases s with
    | nil => rfl
    | cons c s =>
      rw [fgets]
      split
      · rfl
      · exact congrArg (c :: ·) (ih s)

theorem fgets_length_le (room : ℕ) (s : List α) : (fgets nl room s).1.length ≤ room := by
  induction room generalizing s with
  | zero => rfl
  | succ n ih =>
    cases s with
    | nil => exact Nat.zero_le _
    | cons c s =>
      rw [fgets]
      split
      · exact Nat.succ_le_succ (Nat.zero_le n)
      · exact Nat.succ_le_succ (ih s)

theorem fgets_ne_nil (hroom : 0 < room) (hs : s ≠ []) : (fgets nl room s).1 ≠ [] := by
  obtain ⟨n, rfl⟩ := Nat.exists_eq_succ_of_ne_zero hroom.ne'
  obtain ⟨c, s, rfl⟩ := List.exists_cons_of_ne_nil hs
  rw [fgets]
  split <;> exact List.cons_ne_nil _ _

/-- A piece ends its line, or it has no end of a line and is full or the last. -/
theorem fgets_cases (room : ℕ) (s : List α) :
    (∃ q, (fgets nl room s).1 = q ++ [nl] ∧ nl ∉ q) ∨
      nl ∉ (fgets nl room s).1 ∧
        ((fgets nl room s).1.length = room ∨ (fgets nl room s).2 = []) := by
  induction room generalizing s with
  | zero => exact Or.inr ⟨List.not_mem_nil, Or.inl rfl⟩
  | succ n ih =>
    cases s with
    | nil => exact Or.inr ⟨List.not_mem_nil, Or.inr rfl⟩
    | cons c s =>
      rw [fgets]
      split
      · next hc => exact Or.inl ⟨[], by rw [hc]; rfl, List.not_mem_nil⟩
      · next hc =>
        obtain ⟨q, hq, hmem⟩ | ⟨hmem, hend⟩ := ih s
        · exact Or.inl ⟨c :: q, congrArg (c :: ·) hq, by simp [Ne.symm hc, hmem]⟩
        · refine Or.inr ⟨by simp [Ne.symm hc, hmem], hend.imp_left ?_⟩
          intro hlen
          rw [List.length_cons, hlen]

theorem fgets_rest_lt (hroom : 0 < room) (hs : s ≠ []) :
    (fgets nl room s).2.length < s.length := by
  have hlen := congrArg List.length (fgets_append nl room s)
  have hpos := List.length_pos_iff.mpr (fgets_ne_nil nl hroom hs)
  rw [List.length_append] at hlen
  omega

theorem piecesFrom_of_le (hroom : 0 < room) (fuel : ℕ) (s : List α) (hfuel : s.length ≤ fuel) :
    piecesFrom nl room fuel s = pieces nl room s := by
  induction fuel using Nat.strong_induction_on generalizing s with
  | _ fuel ih =>
    cases s with
    | nil => cases fuel <;> rfl
    | cons c s =>
      cases fuel with
      | zero => simp at hfuel
      | succ fuel =>
        have hlt := fgets_rest_lt nl hroom (List.cons_ne_nil c s)
        rw [List.length_cons] at hfuel hlt
        have hrest := ih s.length (by omega) (fgets nl room (c :: s)).2 (by omega)
        rw [piecesFrom, ih fuel (by omega) _ (by omega), ← hrest]
        rfl

theorem pieces_nil (room : ℕ) : pieces nl room [] = [] :=
  rfl

theorem pieces_of_ne_nil (hroom : 0 < room) (hs : s ≠ []) :
    pieces nl room s = (fgets nl room s).1 :: pieces nl room (fgets nl room s).2 := by
  obtain ⟨c, t, rfl⟩ := List.exists_cons_of_ne_nil hs
  have hlt := fgets_rest_lt nl hroom hs
  rw [List.length_cons] at hlt
  rw [pieces, List.length_cons, piecesFrom, piecesFrom_of_le nl hroom _ _ (by omega)]

theorem fgets_induction (hroom : 0 < room) {motive : List α → Prop} (nil : motive [])
    (step : ∀ s, s ≠ [] → motive (fgets nl room s).2 → motive s) (s : List α) : motive s := by
  induction hn : s.length using Nat.strong_induction_on generalizing s with
  | _ n ih =>
    by_cases hs : s = []
    · rw [hs]
      exact nil
    · exact step s hs (ih _ (hn ▸ fgets_rest_lt nl hroom hs) _ rfl)

theorem flatten_pieces (hroom : 0 < room) (s : List α) : (pieces nl room s).flatten = s := by
  induction s using fgets_induction nl hroom with
  | nil => rfl
  | step s hs ih => rw [pieces_of_ne_nil nl hroom hs, List.flatten_cons, ih, fgets_append]

variable {nl}

theorem mem_of_mem_pieces (hroom : 0 < room) {p : List α} (hp : p ∈ pieces nl room s) {x : α}
    (hx : x ∈ p) : x ∈ s := by
  rw [← flatten_pieces nl hroom s]
  exact List.mem_flatten_of_mem hp hx

/-! ### Lines -/

theorem fgets_line {l : List α} (hl : nl ∉ l) (hlen : l.length < room) (rest : List α) :
    fgets nl room (l ++ nl :: rest) = (l ++ [nl], rest) := by
  induction l generalizing room with
  | nil =>
    obtain ⟨n, rfl⟩ := Nat.exists_eq_succ_of_ne_zero hlen.ne'
    rw [List.nil_append, fgets, if_pos rfl]
    rfl
  | cons c l ih =>
    rw [List.length_cons] at hlen
    obtain ⟨n, rfl⟩ := Nat.exists_eq_succ_of_ne_zero (Nat.zero_lt_of_lt hlen).ne'
    obtain ⟨hc, hl⟩ := List.ne_and_not_mem_of_not_mem_cons hl
    rw [List.cons_append, fgets, if_neg hc.symm, ih hl (by omega)]
    rfl

theorem fgets_within {l : List α} (hl : nl ∉ l) (hlen : room ≤ l.length) (rest : List α) :
    fgets nl room (l ++ rest) = (l.take room, l.drop room ++ rest) := by
  induction l generalizing room with
  | nil =>
    rw [Nat.eq_zero_of_le_zero hlen]
    rfl
  | cons c l ih =>
    cases room with
    | zero => rfl
    | succ n =>
      obtain ⟨hc, hl⟩ := List.ne_and_not_mem_of_not_mem_cons hl
      rw [List.cons_append, fgets, if_neg hc.symm, ih hl (by simpa using hlen)]
      rfl

theorem prefix_fgets {p l : List α} (hl : nl ∉ l) (hp : p <+: l) (hlen : p.length ≤ room)
    (rest : List α) : p <+: (fgets nl room (l ++ nl :: rest)).1 := by
  obtain hlt | hle := Nat.lt_or_ge l.length room
  · rw [fgets_line hl hlt]
    exact hp.trans (List.prefix_append l [nl])
  · rw [fgets_within hl hle]
    exact List.prefix_take_iff.mpr ⟨hp, hlen⟩

theorem fgets_of_not_mem (hs : nl ∉ s) (room : ℕ) :
    fgets nl room s = (s.take room, s.drop room) := by
  induction s generalizing room with
  | nil => cases room <;> rfl
  | cons c s ih =>
    cases room with
    | zero => rfl
    | succ n =>
      obtain ⟨hc, hs⟩ := List.ne_and_not_mem_of_not_mem_cons hs
      rw [fgets, if_neg hc.symm, ih hs]
      rfl

theorem pieces_line (hroom : 0 < room) {l : List α} (hl : nl ∉ l) (rest : List α) :
    pieces nl room (l ++ nl :: rest) = pieces nl room (l ++ [nl]) ++ pieces nl room rest := by
  induction hn : l.length using Nat.strong_induction_on generalizing l with
  | _ n ih =>
    have hne (t : List α) : l ++ nl :: t ≠ [] := by simp
    rw [pieces_of_ne_nil nl hroom (hne rest), pieces_of_ne_nil nl hroom (hne [])]
    by_cases hlen : l.length < room
    · rw [fgets_line hl hlen, fgets_line hl hlen]
      rfl
    · have hle : room ≤ l.length := Nat.le_of_not_lt hlen
      have hdrop : (l.drop room).length < n := by
        rw [List.length_drop]
        omega
      rw [fgets_within hl hle, fgets_within hl hle,
        ih _ hdrop (fun h => hl (List.mem_of_mem_drop h)) rfl]
      rfl

/-! ### Where a text is found within one piece -/

def StartsLine (nl : α) (before : List α) : Prop :=
  before = [] ∨ ∃ b, before = b ++ [nl]

/-- The word stands in the text where no cut falls into it. -/
def Uncut (nl : α) (room : ℕ) (word s : List α) : Prop :=
  ∃ before pre after, s = before ++ pre ++ word ++ after ∧ StartsLine nl before ∧ nl ∉ pre ∧
    pre.length % room + word.length ≤ room

omit [DecidableEq α] in
theorem startsLine_append {before : List α} (h : StartsLine nl before) {p : List α}
    (hp : before = [] → StartsLine nl p) : StartsLine nl (p ++ before) := by
  obtain rfl | ⟨b, rfl⟩ := h
  · rw [List.append_nil]
    exact hp rfl
  · exact Or.inr ⟨p ++ b, (List.append_assoc p b [nl]).symm⟩

omit [DecidableEq α] in
/-- A text up to the first `nl` of another. -/
theorem prefix_of_append_eq {l r q t : List α} (h : l ++ r = q ++ nl :: t) (hl : nl ∉ l) :
    l <+: q := by
  obtain ⟨a, hq, _⟩ | ⟨c, hl', hr⟩ := List.append_eq_append_iff.mp h
  · exact ⟨a, hq.symm⟩
  · cases c with
    | nil => exact ⟨[], by rw [List.append_nil, hl', List.append_nil]⟩
    | cons d c =>
      obtain ⟨rfl, _⟩ := List.cons.inj hr
      exact absurd (hl' ▸ by simp) hl

theorem uncut_of_infix_fgets {word : List α} (hword : word ≠ [])
    (h : word <:+: (fgets nl room s).1) : Uncut nl room word s := by
  obtain ⟨x, y, hxy⟩ := h
  have hs := fgets_append nl room s
  have hle := fgets_length_le nl room s
  have hpos := List.length_pos_iff.mpr hword
  have hlen := congrArg List.length hxy
  rw [List.length_append, List.length_append] at hlen
  have hxp : x <+: (fgets nl room s).1 := ⟨word ++ y, by rw [← List.append_assoc, hxy]⟩
  have hx : nl ∉ x := by
    obtain ⟨q, hq, hmem⟩ | ⟨hmem, _⟩ := fgets_cases nl room s
    · have hqlen := congrArg List.length hq
      rw [List.length_append, List.length_singleton] at hqlen
      have hxq : x <+: q :=
        List.prefix_of_prefix_length_le hxp ⟨[nl], hq.symm⟩ (by omega)
      exact fun hx => hmem (hxq.subset hx)
    · exact fun hx => hmem (hxp.subset hx)
  refine ⟨[], x, y ++ (fgets nl room s).2, ?_, Or.inl rfl, hx, ?_⟩
  · refine hs.symm.trans ?_
    rw [← hxy]
    simp only [List.nil_append, List.append_assoc]
  · rw [Nat.mod_eq_of_lt (by omega)]
    omega

theorem uncut_of_uncut_rest {word : List α} (hword : word ≠ [])
    (h : Uncut nl room word (fgets nl room s).2) : Uncut nl room word s := by
  obtain ⟨before, pre, after, hrest, hstart, hpre, hmod⟩ := h
  have hs := fgets_append nl room s
  rw [hrest] at hs
  obtain ⟨q, hq, _⟩ | ⟨hmem, hfull | hend⟩ := fgets_cases nl room s
  · refine ⟨(fgets nl room s).1 ++ before, pre, after, ?_, ?_, hpre, hmod⟩
    · exact hs.symm.trans (by simp only [List.append_assoc])
    · exact startsLine_append hstart fun _ => Or.inr ⟨q, hq⟩
  · obtain rfl | hne := eq_or_ne before []
    · refine ⟨[], (fgets nl room s).1 ++ pre, after, ?_, Or.inl rfl, ?_, ?_⟩
      · exact hs.symm.trans (by simp only [List.nil_append, List.append_assoc])
      · rw [List.mem_append]
        exact not_or.mpr ⟨hmem, hpre⟩
      · rwa [List.length_append, hfull, Nat.add_mod_left]
    · refine ⟨(fgets nl room s).1 ++ before, pre, after, ?_, ?_, hpre, hmod⟩
      · exact hs.symm.trans (by simp only [List.append_assoc])
      · exact startsLine_append hstart fun h => absurd h hne
  · rw [hend] at hrest
    simp [hword] at hrest

omit [DecidableEq α] in
/-- The first line of the text is cut off, and the word stands before its end or after it. -/
theorem infix_or_uncut_of_line {word p q r pre after before : List α} (hnl : nl ∉ word)
    (hq : p = q ++ [nl]) (hqn : nl ∉ q) (hs : p ++ r = before ++ pre ++ word ++ after)
    (hstart : StartsLine nl before) (hpre : nl ∉ pre)
    (hmod : pre.length % room + word.length ≤ room) :
    word <:+: p ∨ Uncut nl room word r := by
  rw [hq, List.append_assoc, List.singleton_append] at hs
  obtain rfl | ⟨b, rfl⟩ := hstart
  · refine Or.inl ?_
    have hmem : nl ∉ pre ++ word := by
      rw [List.mem_append]
      exact not_or.mpr ⟨hpre, hnl⟩
    have hfront := prefix_of_append_eq hs.symm hmem
    rw [hq]
    exact (List.suffix_append pre word).isInfix.trans
      (hfront.isInfix.trans (List.prefix_append q [nl]).isInfix)
  · refine Or.inr ?_
    simp only [List.append_assoc, List.singleton_append] at hs
    obtain ⟨z, rfl⟩ := prefix_of_append_eq hs hqn
    rw [List.append_assoc, List.append_cancel_left_eq] at hs
    cases z with
    | nil =>
      refine ⟨[], pre, after, ?_, Or.inl rfl, hpre, hmod⟩
      simpa using (List.cons.inj hs).2
    | cons c z =>
      refine ⟨z ++ [nl], pre, after, ?_, Or.inr ⟨z, rfl⟩, hpre, hmod⟩
      simpa using (List.cons.inj hs).2

omit [DecidableEq α] in
theorem infix_or_uncut_of_full {word p r pre after before : List α}
    (hp : nl ∉ p) (hfull : p.length = room) (hs : p ++ r = before ++ pre ++ word ++ after)
    (hstart : StartsLine nl before) (hpre : nl ∉ pre)
    (hmod : pre.length % room + word.length ≤ room) :
    word <:+: p ∨ Uncut nl room word r := by
  obtain rfl | ⟨b, rfl⟩ := hstart
  · obtain hlt | hle := Nat.lt_or_ge pre.length room
    · refine Or.inl ?_
      have hfront : pre ++ word <+: p := by
        apply List.prefix_of_prefix_length_le ⟨after, hs.symm⟩ ⟨r, rfl⟩
        rw [List.length_append, hfull]
        rwa [Nat.mod_eq_of_lt hlt] at hmod
      exact (List.suffix_append pre word).isInfix.trans hfront.isInfix
    · refine Or.inr ?_
      simp only [List.nil_append, List.append_assoc] at hs
      obtain ⟨z, rfl⟩ : p <+: pre :=
        List.prefix_of_prefix_length_le ⟨r, hs⟩ ⟨word ++ after, rfl⟩ (hfull ▸ hle)
      rw [List.append_assoc, List.append_cancel_left_eq] at hs
      refine ⟨[], z, after, by simpa using hs, Or.inl rfl, ?_, ?_⟩
      · exact fun h => hpre (List.mem_append_right p h)
      · rwa [List.length_append, hfull, Nat.add_mod_left] at hmod
  · refine Or.inr ?_
    simp only [List.append_assoc, List.singleton_append] at hs
    obtain ⟨z, rfl⟩ := prefix_of_append_eq hs hp
    rw [List.append_assoc, List.append_cancel_left_eq] at hs
    refine ⟨z ++ [nl], pre, after, by simpa using hs, Or.inr ⟨z, rfl⟩, hpre, hmod⟩

theorem infix_or_uncut_of_uncut {word : List α} (hnl : nl ∉ word)
    (h : Uncut nl room word s) :
    word <:+: (fgets nl room s).1 ∨ Uncut nl room word (fgets nl room s).2 := by
  obtain ⟨before, pre, after, hs, hstart, hpre, hmod⟩ := h
  have happend := (fgets_append nl room s).trans hs
  obtain ⟨q, hq, hqn⟩ | ⟨hmem, hfull | hend⟩ := fgets_cases nl room s
  · exact infix_or_uncut_of_line hnl hq hqn happend hstart hpre hmod
  · exact infix_or_uncut_of_full hmem hfull happend hstart hpre hmod
  · refine Or.inl ⟨before ++ pre, after, ?_⟩
    rw [hend, List.append_nil] at happend
    exact happend.symm

/-- A loop over `fgets` finds a word of one line where the word is not cut. -/
theorem exists_mem_pieces_infix_iff (hroom : 0 < room) {word : List α} (hword : word ≠ [])
    (hnl : nl ∉ word) (s : List α) :
    (∃ p ∈ pieces nl room s, word <:+: p) ↔ Uncut nl room word s := by
  induction s using fgets_induction nl hroom with
  | nil =>
    refine iff_of_false (by simp [pieces_nil]) ?_
    rintro ⟨before, pre, after, hs, _⟩
    simp [hword] at hs
  | step s hs ih =>
    rw [pieces_of_ne_nil nl hroom hs]
    simp only [List.mem_cons, exists_eq_or_imp, ih]
    constructor
    · rintro (h | h)
      · exact uncut_of_infix_fgets hword h
      · exact uncut_of_uncut_rest hword h
    · exact infix_or_uncut_of_uncut hnl

/-! ### Lines that two marks may end -/

def dropMark (nl : α) : List α → List α
  | [] => []
  | c :: s => if c = nl then s else c :: s

/-- One line, which `nl`, `cr` or `cr` with `nl` after it ends, and what stays unread. -/
def readLine (nl cr : α) : List α → List α × List α
  | [] => ([], [])
  | c :: s =>
    if c = nl then ([], s)
    else if c = cr then ([], dropMark nl s)
    else (c :: (readLine nl cr s).1, (readLine nl cr s).2)

def readLinesFrom (nl cr : α) : ℕ → List α → List (List α)
  | 0, _ => []
  | _ + 1, [] => []
  | fuel + 1, c :: s =>
    (readLine nl cr (c :: s)).1 :: readLinesFrom nl cr fuel (readLine nl cr (c :: s)).2

def readLines (nl cr : α) (s : List α) : List (List α) :=
  readLinesFrom nl cr s.length s

variable {cr : α}

theorem readLine_rest_lt (hs : s ≠ []) : (readLine nl cr s).2.length < s.length := by
  induction s with
  | nil => exact absurd rfl hs
  | cons c s ih =>
    rw [readLine]
    split
    · exact Nat.lt_succ_self _
    · split
      · cases s with
        | nil => exact Nat.lt_succ_self _
        | cons d s =>
          rw [dropMark]
          split
          · simp only [List.length_cons]
            omega
          · exact Nat.lt_succ_self _
      · by_cases hnil : s = []
        · rw [hnil]
          exact Nat.lt_succ_self _
        · exact (ih hnil).trans (Nat.lt_succ_self _)

theorem readLinesFrom_of_le (fuel : ℕ) (s : List α) (hfuel : s.length ≤ fuel) :
    readLinesFrom nl cr fuel s = readLines nl cr s := by
  induction fuel using Nat.strong_induction_on generalizing s with
  | _ fuel ih =>
    cases s with
    | nil => cases fuel <;> rfl
    | cons c s =>
      cases fuel with
      | zero => simp at hfuel
      | succ fuel =>
        have hlt := @readLine_rest_lt _ _ nl _ cr (List.cons_ne_nil c s)
        rw [List.length_cons] at hfuel hlt
        have hrest := ih s.length (by omega) (readLine nl cr (c :: s)).2 (by omega)
        rw [readLinesFrom, ih fuel (by omega) _ (by omega), ← hrest]
        rfl

theorem readLines_of_ne_nil (hs : s ≠ []) : readLines nl cr s =
    (readLine nl cr s).1 :: readLines nl cr (readLine nl cr s).2 := by
  obtain ⟨c, t, rfl⟩ := List.exists_cons_of_ne_nil hs
  have hlt := @readLine_rest_lt _ _ nl _ cr hs
  rw [List.length_cons] at hlt
  rw [readLines, List.length_cons, readLinesFrom, readLinesFrom_of_le _ _ (by omega)]

/-- A line that `nl` ends at the latest is read alike whatever follows. -/
theorem readLine_append (x y : List α) : ∃ l x',
    readLine nl cr (x ++ nl :: y) = (l, x' ++ y) ∧ readLine nl cr (x ++ [nl]) = (l, x') ∧
      (x' = [] ∨ ∃ z, x' = z ++ [nl] ∧ z.length < x.length) := by
  induction x with
  | nil =>
    refine ⟨[], [], ?_, ?_, Or.inl rfl⟩
    · rw [List.nil_append, readLine, if_pos rfl]
      rfl
    · rw [List.nil_append, readLine, if_pos rfl]
  | cons c x ih =>
    by_cases hnl : c = nl
    · refine ⟨[], x ++ [nl], ?_, ?_, Or.inr ⟨x, rfl, Nat.lt_succ_self _⟩⟩
      · rw [List.cons_append, readLine, if_pos hnl, List.append_assoc]
        rfl
      · rw [List.cons_append, readLine, if_pos hnl]
    · by_cases hcr : c = cr
      · have hread (t : List α) : readLine nl cr (c :: t) = ([], dropMark nl t) := by
          rw [readLine, if_neg hnl, if_pos hcr]
        simp only [List.cons_append, hread]
        cases x with
        | nil => exact ⟨[], [], by simp [dropMark], by simp [dropMark], Or.inl rfl⟩
        | cons d x =>
          by_cases hd : d = nl
          · refine ⟨[], x ++ [nl], by simp [dropMark, hd], by simp [dropMark, hd], ?_⟩
            exact Or.inr ⟨x, rfl, by simp only [List.length_cons]; omega⟩
          · refine ⟨[], d :: x ++ [nl], by simp [dropMark, hd], by simp [dropMark, hd], ?_⟩
            exact Or.inr ⟨d :: x, rfl, Nat.lt_succ_self _⟩
      · obtain ⟨l, x', hlong, hshort, hrest⟩ := ih
        have hread (t : List α) : readLine nl cr (c :: t) =
            (c :: (readLine nl cr t).1, (readLine nl cr t).2) := by
          rw [readLine, if_neg hnl, if_neg hcr]
        refine ⟨c :: l, x', ?_, ?_, hrest.imp_right ?_⟩
        · rw [List.cons_append, hread, hlong]
        · rw [List.cons_append, hread, hshort]
        · rintro ⟨z, hz, hlt⟩
          exact ⟨z, hz, hlt.trans (Nat.lt_succ_self _)⟩

theorem readLines_append (x y : List α) :
    readLines nl cr (x ++ nl :: y) = readLines nl cr (x ++ [nl]) ++ readLines nl cr y := by
  induction hn : x.length using Nat.strong_induction_on generalizing x with
  | _ n ih =>
    obtain ⟨l, x', hlong, hshort, hrest⟩ := @readLine_append _ _ nl cr x y
    have hne (t : List α) : x ++ nl :: t ≠ [] := by simp
    rw [readLines_of_ne_nil (hne y), readLines_of_ne_nil (hne []), hlong, hshort]
    obtain rfl | ⟨z, rfl, hlt⟩ := hrest
    · rfl
    · have hz := ih z.length (hn ▸ hlt) z rfl
      dsimp only
      rw [List.append_assoc, List.singleton_append, hz]
      rfl

theorem readLine_of_not_mem {l : List α} (hnl : nl ∉ l) (hcr : cr ∉ l) (rest : List α) :
    readLine nl cr (l ++ nl :: rest) = (l, rest) := by
  induction l with
  | nil => rw [List.nil_append, readLine, if_pos rfl]
  | cons c l ih =>
    obtain ⟨hc, hnl⟩ := List.ne_and_not_mem_of_not_mem_cons hnl
    obtain ⟨hc', hcr⟩ := List.ne_and_not_mem_of_not_mem_cons hcr
    rw [List.cons_append, readLine, if_neg hc.symm, if_neg hc'.symm, ih hnl hcr]

end LineReading

end EnvironmentCheck
