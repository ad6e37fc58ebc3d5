import EnvironmentCheck.Library.Utf8Replacing

namespace EnvironmentCheck

namespace CommandOutput

open Utf16 Utf8Replacing

def bufferSize : ℕ := 512

/-- The loop over `read`: each call takes its bytes, until the stream ends. -/
def readAll : List (List UInt8) → List Char
  | [] => []
  | read :: rest =>
    (if 0 < read.length then decode read else []) ++
      if read.length < bufferSize then [] else readAll rest

/-- `CommandUtil.getStrFromBufferInputSteam`; there may be no stream. -/
def getStrFromBufferInputSteam (reads : Option (List (List UInt8))) : List Char :=
  match reads with
  | none => []
  | some reads => readAll reads

/-- A text in UTF-8 and the calls of `read` that deliver its bytes. -/
structure Schedule where
  text : List Char
  reads : List (List UInt8)
  delivers : reads.flatten = utf8 text
  nonempty : ∀ read ∈ reads, read ≠ []
  fits : ∀ read ∈ reads, read.length ≤ bufferSize

def Schedule.Decoded (schedule : Schedule) : Prop :=
  getStrFromBufferInputSteam (some schedule.reads) = schedule.text

def processed : List (List UInt8) → List (List UInt8)
  | [] => []
  | read :: rest => if read.length < bufferSize then [read] else read :: processed rest

def unread : List (List UInt8) → List (List UInt8)
  | [] => []
  | read :: rest => if read.length < bufferSize then rest else unread rest

/-- Every read but the last fills the buffer, and no character is cut. -/
structure Schedule.Clean (schedule : Schedule) : Prop where
  all : unread schedule.reads = []
  uncut : ∀ read ∈ schedule.reads, ∃ cs, read = utf8 cs

/-- From the first character that is cut, the text has nothing but the mark that stands for a part
of a character; and there are as many of these characters unread as there are marks too many. -/
structure Schedule.Masked (schedule : Schedule) : Prop where
  marks : ∃ before read after cs n, schedule.reads = before ++ read :: after ∧
    (∀ full ∈ before, full.length = bufferSize ∧ ∃ ds, full = utf8 ds) ∧
    schedule.text = cs ++ List.replicate n replacement ∧ utf8 cs <+: before.flatten ++ read
  balanced : ((processed schedule.reads).map orphans).sum =
    ((unread schedule.reads).map leads).sum

theorem readAll_cons (read : List UInt8) (rest : List (List UInt8)) :
    readAll (read :: rest) =
      decode read ++ if read.length < bufferSize then [] else readAll rest := by
  rw [readAll]
  split
  · rfl
  · next h =>
    rw [List.length_pos_iff, not_not] at h
    rw [h]
    rfl

theorem garbled_readAll {reads : List (List UInt8)} {q : List UInt8} {t : List Char}
    (hq : ∀ b ∈ q, IsContinuation b) (h : reads.flatten = q ++ utf8 t) :
    Garbled t (readAll reads) := by
  induction reads generalizing q t with
  | nil => exact .unread t
  | cons read rest ih =>
    rw [List.flatten_cons] at h
    obtain ⟨q', t', hq', hrest, hpiece⟩ := garbled_piece hq h
    rw [readAll_cons]
    apply hpiece
    split
    · exact .unread t'
    · exact ih hq' hrest

/-- A reading that begins within a character begins with a mark too many. -/
theorem garbled_of_orphan {reads : List (List UInt8)} {q : List UInt8} {t : List Char}
    (hne : ∀ read ∈ reads, read ≠ []) (hq : ∀ b ∈ q, IsContinuation b) (hnil : q ≠ [])
    (h : reads.flatten = q ++ utf8 t) :
    ∃ out, readAll reads = replacement :: out ∧ Garbled t out := by
  obtain ⟨b, q, rfl⟩ := List.exists_cons_of_ne_nil hnil
  cases reads with
  | nil => cases h
  | cons read rest =>
    obtain ⟨b', read, rfl⟩ := List.exists_cons_of_ne_nil (hne read List.mem_cons_self)
    rw [List.flatten_cons, List.cons_append, List.cons_append] at h
    obtain ⟨rfl, htail⟩ := List.cons.inj h
    obtain ⟨hb, hq⟩ := List.forall_mem_cons.mp hq
    obtain ⟨q', t', hq', hrest, hpiece⟩ := garbled_piece hq htail
    rw [readAll_cons, decode_continuation hb]
    refine ⟨_, rfl, hpiece _ ?_⟩
    split
    · exact .unread t'
    · exact garbled_readAll hq' hrest

theorem length_readAll {reads : List (List UInt8)} {q : List UInt8} {t : List Char}
    (hq : ∀ b ∈ q, IsContinuation b) (h : reads.flatten = q ++ utf8 t) :
    (readAll reads).length =
      ((processed reads).map orphans).sum + ((processed reads).map leads).sum := by
  induction reads generalizing q t with
  | nil => rfl
  | cons read rest ih =>
    rw [List.flatten_cons] at h
    obtain ⟨q', t', hq', hrest, _⟩ := garbled_piece hq h
    rw [readAll_cons, List.length_append, length_decode_piece hq h, processed]
    split
    · simp
    · rw [ih hq' hrest, List.map_cons, List.map_cons, List.sum_cons, List.sum_cons]
      omega

theorem leads_flatten (reads : List (List UInt8)) :
    leads reads.flatten = (reads.map leads).sum := by
  induction reads with
  | nil => rfl
  | cons read rest ih => rw [List.flatten_cons, leads_append, ih, List.map_cons, List.sum_cons]

theorem processed_append_unread (reads : List (List UInt8)) :
    processed reads ++ unread reads = reads := by
  induction reads with
  | nil => rfl
  | cons read rest ih =>
    rw [processed, unread]
    split
    · rfl
    · exact congrArg (read :: ·) ih

theorem length_readAll_iff (schedule : Schedule) :
    (readAll schedule.reads).length = schedule.text.length ↔
      ((processed schedule.reads).map orphans).sum =
        ((unread schedule.reads).map leads).sum := by
  have hread := @length_readAll schedule.reads [] schedule.text (by simp) schedule.delivers
  have htext := leads_utf8 schedule.text
  rw [← schedule.delivers, leads_flatten] at htext
  have hsplit := congrArg (fun reads => (reads.map leads).sum)
    (processed_append_unread schedule.reads)
  simp only [List.map_append, List.sum_append] at hsplit
  omega

theorem eq_replicate {t : List Char} (h : ∀ x ∈ t, x = replacement) :
    t = List.replicate t.length replacement :=
  List.eq_replicate_iff.mpr ⟨rfl, h⟩

/-! ### What a right reading says of the reads -/

def Uncut (reads : List (List UInt8)) : Prop :=
  unread reads = [] ∧ ∀ read ∈ reads, ∃ cs, read = utf8 cs

def Marked (reads : List (List UInt8)) (t : List Char) : Prop :=
  ∃ before read after cs n, reads = before ++ read :: after ∧
    (∀ full ∈ before, full.length = bufferSize ∧ ∃ ds, full = utf8 ds) ∧
    t = cs ++ List.replicate n replacement ∧ utf8 cs <+: before.flatten ++ read

theorem uncut_or_marked {reads : List (List UInt8)} {t : List Char}
    (hne : ∀ read ∈ reads, read ≠ []) (hfits : ∀ read ∈ reads, read.length ≤ bufferSize)
    (h : reads.flatten = utf8 t) (hread : readAll reads = t) : Uncut reads ∨ Marked reads t := by
  induction reads generalizing t with
  | nil => exact Or.inl ⟨rfl, by simp⟩
  | cons read rest ih =>
    obtain ⟨_, hne'⟩ := List.forall_mem_cons.mp hne
    obtain ⟨hsize, hfits'⟩ := List.forall_mem_cons.mp hfits
    rw [List.flatten_cons] at h
    obtain ⟨t₁, t₂, p, rfl, rfl, ⟨rfl, hrest⟩ | ⟨c, t₃, q, rfl, hc, hp, hq, hrest⟩⟩ := cut_utf8 h
    · rw [readAll_cons, List.append_nil, decode_utf8, List.append_cancel_left_eq] at hread
      split at hread
      · next hshort =>
        rw [← hread] at hrest
        have hnil : rest = [] := by
          cases rest with
          | nil => rfl
          | cons r rs =>
            exact absurd (List.append_eq_nil_iff.mp hrest).1 (hne' r List.mem_cons_self)
        subst hnil
        refine Or.inl ⟨?_, ?_⟩
        · rw [unread, List.append_nil, if_pos hshort]
        · simp
      · next hfull =>
        have hlen : (utf8 t₁ ++ []).length = bufferSize := by
          rw [List.append_nil] at hsize ⊢
          omega
        obtain ⟨hall, huncut⟩ | ⟨before, r, after, cs, n, rfl, hbefore, rfl, hcs⟩ :=
          ih hne' hfits' hrest hread
        · refine Or.inl ⟨?_, List.forall_mem_cons.mpr ⟨⟨t₁, List.append_nil _⟩, huncut⟩⟩
          rw [unread, hlen, if_neg (lt_irrefl _)]
          exact hall
        · refine Or.inr ⟨(utf8 t₁ ++ []) :: before, r, after, t₁ ++ cs, n, rfl, ?_, ?_, ?_⟩
          · exact List.forall_mem_cons.mpr ⟨⟨hlen, t₁, List.append_nil _⟩, hbefore⟩
          · rw [List.append_assoc]
          · rw [utf8_append, List.append_nil, List.flatten_cons, List.append_assoc]
            exact (List.prefix_append_right_inj _).mpr hcs
    · have hpart : decode p = [replacement] :=
        decode_part (by rw [hc]; exact List.prefix_append p q) hp (by simpa [hc] using hq)
      rw [readAll_cons, decode_utf8_append, hpart, List.append_assoc,
        List.append_cancel_left_eq, List.singleton_append] at hread
      obtain ⟨rfl, htail⟩ := List.cons.inj hread
      have hmarks : ∀ x ∈ t₃, x = replacement := by
        split at htail
        · rw [← htail]
          simp
        · obtain ⟨out, hout, hgarbled⟩ :=
            garbled_of_orphan hne' (continuation_of_suffix hc hp) hq hrest
          exact hgarbled.eq_replacement (htail.symm.trans hout)
      refine Or.inr ⟨[], utf8 t₁ ++ p, rest, t₁, t₃.length + 1, rfl, by simp, ?_, ?_⟩
      · rw [List.replicate_succ, ← eq_replicate hmarks]
      · exact List.prefix_append (utf8 t₁) p

/-! ### Readings that are right -/

theorem utf8_append_eq {cs t : List Char} {bs : List UInt8} (h : utf8 cs ++ bs = utf8 t) :
    ∃ t', t = cs ++ t' ∧ bs = utf8 t' := by
  have ht := decode_utf8_append cs bs
  rw [h, decode_utf8] at ht
  refine ⟨decode bs, ht, ?_⟩
  rw [ht, utf8_append] at h
  exact List.append_cancel_left h

theorem readAll_of_uncut {reads : List (List UInt8)} {t : List Char}
    (h : reads.flatten = utf8 t) (huncut : Uncut reads) : readAll reads = t := by
  induction reads generalizing t with
  | nil =>
    have hnil : utf8 [] = utf8 t := h
    exact utf8_inj hnil
  | cons read rest ih =>
    obtain ⟨hall, hvalid⟩ := huncut
    obtain ⟨⟨cs, rfl⟩, hrest⟩ := List.forall_mem_cons.mp hvalid
    obtain ⟨t', rfl, hflatten⟩ := utf8_append_eq h
    rw [readAll_cons, decode_utf8]
    rw [unread] at hall
    split at hall
    · next hshort =>
      rw [if_pos hshort]
      rw [hall] at hflatten
      have hnil : utf8 [] = utf8 t' := hflatten
      rw [utf8_inj hnil]
    · next hfull =>
      rw [if_neg hfull, ih hflatten ⟨hall, hrest⟩]

theorem readAll_before {before : List (List UInt8)} {read : List UInt8}
    {after : List (List UInt8)} {cs : List Char} {n : ℕ}
    (hbefore : ∀ full ∈ before, full.length = bufferSize ∧ ∃ ds, full = utf8 ds)
    (h : (before ++ read :: after).flatten = utf8 (cs ++ List.replicate n replacement))
    (hcs : utf8 cs <+: before.flatten ++ read) : ∃ out,
      readAll (before ++ read :: after) = cs ++ out ∧
        Garbled (List.replicate n replacement) out := by
  induction before generalizing cs n with
  | nil =>
    obtain ⟨bs, rfl⟩ := hcs
    rw [utf8_append, List.nil_append, List.flatten_cons] at h
    change (utf8 cs ++ bs) ++ after.flatten = _ at h
    rw [List.append_assoc, List.append_cancel_left_eq] at h
    obtain ⟨q, t, hq, hafter, hpiece⟩ := garbled_piece (q := []) (by simp) h
    refine ⟨decode bs ++ if (utf8 cs ++ bs).length < bufferSize then [] else readAll after, ?_, ?_⟩
    · change readAll ((utf8 cs ++ bs) :: after) = _
      rw [readAll_cons, decode_utf8_append, List.append_assoc]
    · apply hpiece
      split
      · exact .unread t
      · exact garbled_readAll hq hafter
  | cons full before ih =>
    obtain ⟨⟨hsize, ds, rfl⟩, hbefore'⟩ := List.forall_mem_cons.mp hbefore
    obtain ⟨t, ht, hrest⟩ := utf8_append_eq h
    have hfull : ¬ (utf8 ds).length < bufferSize := by omega
    rw [List.cons_append, readAll_cons, decode_utf8, if_neg hfull]
    obtain ⟨a, rfl, ha⟩ | ⟨a, rfl, rfl⟩ := List.append_eq_append_iff.mp ht
    · obtain ⟨hlen, ha', ht'⟩ := List.append_eq_replicate_iff.mp ha.symm
      rw [ht', ← List.nil_append (List.replicate t.length replacement)] at hrest
      obtain ⟨out, hout, hgarbled⟩ := ih hbefore' hrest List.nil_prefix
      refine ⟨a ++ out, ?_, ?_⟩
      · rw [hout, List.nil_append, List.append_assoc]
      · rw [ha, ht']
        exact hgarbled.keepAll a
    · rw [utf8_append, List.flatten_cons, List.append_assoc, List.prefix_append_right_inj] at hcs
      obtain ⟨out, hout, hgarbled⟩ := ih hbefore' hrest hcs
      exact ⟨out, by rw [hout, List.append_assoc], hgarbled⟩

theorem readAll_of_marked {reads : List (List UInt8)} {t : List Char}
    (h : reads.flatten = utf8 t) (hmarked : Marked reads t) :
    ∃ cs n out, t = cs ++ List.replicate n replacement ∧ readAll reads = cs ++ out ∧
      ∀ x ∈ out, x = replacement := by
  obtain ⟨before, read, after, cs, n, rfl, hbefore, rfl, hcs⟩ := hmarked
  obtain ⟨out, hout, hgarbled⟩ := readAll_before hbefore h hcs
  exact ⟨cs, n, out, rfl, hout,
    hgarbled.of_replacement fun x hx => List.eq_of_mem_replicate hx⟩

theorem decoded_iff (schedule : Schedule) :
    schedule.Decoded ↔ schedule.Clean ∨ schedule.Masked := by
  constructor
  · intro hread
    obtain ⟨hall, huncut⟩ | hmarked :=
      uncut_or_marked schedule.nonempty schedule.fits schedule.delivers hread
    · exact Or.inl ⟨hall, huncut⟩
    · exact Or.inr ⟨hmarked, (length_readAll_iff schedule).mp (congrArg List.length hread)⟩
  · rintro (⟨hall, huncut⟩ | ⟨hmarked, hbalanced⟩)
    · exact readAll_of_uncut schedule.delivers ⟨hall, huncut⟩
    · obtain ⟨cs, n, out, htext, hread, hout⟩ := readAll_of_marked schedule.delivers hmarked
      have hlen := (length_readAll_iff schedule).mpr hbalanced
      rw [hread, htext, List.length_append, List.length_append, List.length_replicate] at hlen
      change readAll schedule.reads = schedule.text
      rw [hread, htext, eq_replicate hout, Nat.add_left_cancel hlen]

theorem ab_delivers : [[97], [98]].flatten = utf8 ['a', 'b'] := by
  decide

theorem ab_nonempty : ∀ read ∈ [[97], [98]], read ≠ ([] : List UInt8) := by
  decide

theorem ab_fits : ∀ read ∈ [[97], [98]], (read : List UInt8).length ≤ bufferSize := by
  decide

/-- A pipe that delivers a byte at a time. -/
theorem pipe_not_decoded :
    ¬ Schedule.Decoded ⟨['a', 'b'], [[97], [98]], ab_delivers, ab_nonempty, ab_fits⟩ := by
  intro h
  have hread : readAll [[97], [98]] = ['a'] := by decide
  have htext : readAll [[97], [98]] = ['a', 'b'] := h
  rw [hread] at htext
  cases htext

end CommandOutput

end EnvironmentCheck
