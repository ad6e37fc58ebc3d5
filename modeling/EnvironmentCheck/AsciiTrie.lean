import Mathlib.Data.List.Infix

namespace EnvironmentCheck.AsciiTrie

inductive TrieNodePtr where
  | null
  | node (children : Fin 128 → TrieNodePtr)

def TrieNodePtr.children : TrieNodePtr → Fin 128 → TrieNodePtr
  | .null, _ => .null
  | .node children, i => children i

def TrieNodePtr.isNull : TrieNodePtr → Bool
  | .null => true
  | .node _ => false

/-- The place of a character in `children`, which has none from `kMaxAsciiValue` on. -/
def index (ch : UInt8) : Option (Fin 128) :=
  if h : ch.toNat < 128 then some ⟨ch.toNat, h⟩ else none

/-- A node is made where there is none. The string ends with the list or at its first NUL. -/
def add : TrieNodePtr → List UInt8 → Option TrieNodePtr
  | trie, [] => some trie
  | trie, ch :: entry =>
    (index ch).bind fun i =>
      if ch ≠ 0 then
        (add (trie.children i) entry).map fun child => .node (Function.update trie.children i child)
      else some trie

def makeTrie (entries : List (List UInt8)) : Option TrieNodePtr := entries.foldlM add .null

def fill (entries : List (List UInt8)) : Option TrieNodePtr := makeTrie entries

/-- The loop of `Query`; `moved` is `trie_position != trie`. -/
def queryFrom : TrieNodePtr → TrieNodePtr → Bool → List UInt8 → Option Bool
  | _, child, moved, [] => some (child.isNull && moved)
  | triePosition, child, moved, ch :: query =>
    if ch = 0 then some (child.isNull && moved)
    else
      (index ch).bind fun i =>
        let child := triePosition.children i
        if child.isNull then some moved else queryFrom child child true query

def query (node : TrieNodePtr) (argument : List UInt8) : Option Bool :=
  if node.isNull then some true else queryFrom node .null false argument

/-- Characters of 7 bits, without NUL. -/
def Ascii (s : List UInt8) : Prop := ∀ ch ∈ s, ch ≠ 0 ∧ ch.toNat < 128

instance (s : List UInt8) : Decidable (Ascii s) := inferInstanceAs (Decidable (∀ _ ∈ _, _ ∧ _))

/-- The node that a path leads to. -/
def TrieNodePtr.at : TrieNodePtr → List UInt8 → TrieNodePtr
  | trie, [] => trie
  | trie, ch :: path =>
    match index ch with
    | some i => (trie.children i).at path
    | none => .null

/-- `p` is a prefix of `s`, but not `s`. -/
def ProperPrefix (p s : List UInt8) : Prop := p <+: s ∧ p ≠ s

instance (p s : List UInt8) : Decidable (ProperPrefix p s) := inferInstanceAs (Decidable (_ ∧ _))

section Paths

variable {trie trie' : TrieNodePtr} {ch ch' : UInt8} {entry path p s : List UInt8}

theorem properPrefix_nil : ¬ ProperPrefix p [] := fun h => h.2 (List.prefix_nil.mp h.1)

theorem nil_properPrefix : ProperPrefix [] (ch :: s) :=
  ⟨List.nil_prefix, (List.cons_ne_nil ch s).symm⟩

theorem cons_properPrefix : ProperPrefix (ch :: p) (ch' :: s) ↔ ch = ch' ∧ ProperPrefix p s := by
  rw [ProperPrefix, List.cons_prefix_cons]
  constructor
  · rintro ⟨⟨rfl, hp⟩, hne⟩
    exact ⟨rfl, hp, fun h => hne (congrArg _ h)⟩
  · rintro ⟨rfl, hp, hne⟩
    exact ⟨⟨rfl, hp⟩, fun h => hne (List.cons.inj h).2⟩

theorem index_eq (h : ch.toNat < 128) : index ch = some ⟨ch.toNat, h⟩ := dif_pos h

theorem children_node (children : Fin 128 → TrieNodePtr) (i : Fin 128) :
    (TrieNodePtr.node children).children i = children i := rfl

theorem at_cons (h : ch.toNat < 128) :
    trie.at (ch :: path) = (trie.children ⟨ch.toNat, h⟩).at path := by
  rw [TrieNodePtr.at, index_eq h]

theorem null_at (path : List UInt8) : TrieNodePtr.null.at path = .null := by
  induction path with
  | nil => rfl
  | cons ch path ih =>
    rw [TrieNodePtr.at]
    split
    · exact ih
    · rfl

theorem add_at (trie : TrieNodePtr) (h : Ascii entry) : ∃ trie', add trie entry = some trie' ∧
    ∀ path, (trie'.at path).isNull = false ↔
      (trie.at path).isNull = false ∨ ProperPrefix path entry := by
  induction entry generalizing trie with
  | nil => exact ⟨trie, rfl, fun path => (or_iff_left properPrefix_nil).symm⟩
  | cons ch entry ih =>
    obtain ⟨hch, hentry⟩ := List.forall_mem_cons.mp h
    have hi := index_eq hch.2
    obtain ⟨child, hchild, hpaths⟩ := ih (trie.children ⟨ch.toNat, hch.2⟩) hentry
    refine ⟨_, by rw [add, hi, Option.bind_some, if_pos hch.1, hchild]; rfl, fun path => ?_⟩
    cases path with
    | nil => exact iff_of_true rfl (.inr nil_properPrefix)
    | cons ch' path =>
      rw [cons_properPrefix]
      by_cases hch' : ch'.toNat < 128
      · rw [at_cons hch', at_cons hch', children_node]
        by_cases heq : ch' = ch
        · subst heq
          rw [Function.update_self, hpaths, and_iff_right rfl]
        · have hne : (⟨ch'.toNat, hch'⟩ : Fin 128) ≠ ⟨ch.toNat, hch.2⟩ :=
            fun hval => heq (UInt8.toNat_inj.mp (Fin.mk.inj hval))
          rw [Function.update_of_ne hne]
          exact (or_iff_left fun hp => heq hp.1).symm
      · have hnone : index ch' = none := dif_neg hch'
        rw [TrieNodePtr.at, TrieNodePtr.at, hnone]
        apply iff_of_false Bool.noConfusion
        rintro (hnull | ⟨rfl, -⟩)
        · cases hnull
        · exact hch' hch.2

theorem foldlM_add {entries : List (List UInt8)} (trie : TrieNodePtr) (h : ∀ entry ∈ entries, Ascii entry) :
    ∃ trie', entries.foldlM add trie = some trie' ∧
      ∀ path, (trie'.at path).isNull = false ↔
        (trie.at path).isNull = false ∨ ∃ entry ∈ entries, ProperPrefix path entry := by
  induction entries generalizing trie with
  | nil => exact ⟨trie, rfl, fun path => by simp⟩
  | cons entry entries ih =>
    obtain ⟨hentry, hentries⟩ := List.forall_mem_cons.mp h
    obtain ⟨t1, h1, hpaths1⟩ := add_at trie hentry
    obtain ⟨t2, h2, hpaths2⟩ := ih t1 hentries
    refine ⟨t2, by rw [List.foldlM_cons, h1]; exact h2, fun path => ?_⟩
    rw [hpaths2, hpaths1, List.exists_mem_cons_iff, or_assoc]

theorem fill_at {entries : List (List UInt8)} (h : ∀ entry ∈ entries, Ascii entry) :
    ∃ node, fill entries = some node ∧
      ∀ path, (node.at path).isNull = false ↔ ∃ entry ∈ entries, ProperPrefix path entry := by
  obtain ⟨node, hnode, hpaths⟩ := foldlM_add .null h
  refine ⟨node, hnode, fun path => ?_⟩
  rw [hpaths, null_at]
  exact or_iff_right Bool.noConfusion

theorem queryFrom_moved {position child : TrieNodePtr} (hq : Ascii path)
    (hposition : position.isNull = false) (hchild : child.isNull = false) :
    queryFrom position child true path = some (position.at path).isNull := by
  induction path generalizing position child with
  | nil =>
    rw [queryFrom, hchild, TrieNodePtr.at, hposition]
    rfl
  | cons ch path ih =>
    obtain ⟨hch, hpath⟩ := List.forall_mem_cons.mp hq
    rw [queryFrom, if_neg hch.1, index_eq hch.2, at_cons hch.2]
    cases hc : position.children ⟨ch.toNat, hch.2⟩ with
    | null =>
      rw [null_at, Option.bind_some, hc]
      rfl
    | node children =>
      rw [Option.bind_some, hc]
      exact ih hpath rfl rfl

theorem query_at {node : TrieNodePtr} (hq : Ascii path) (hnode : node.isNull = false) :
    query node path = some ((node.at path).isNull && !(node.at (path.take 1)).isNull) := by
  rw [query, if_neg (by rw [hnode]; exact Bool.noConfusion)]
  cases path with
  | nil =>
    rw [queryFrom, TrieNodePtr.at, hnode]
    rfl
  | cons ch path =>
    obtain ⟨hch, hpath⟩ := List.forall_mem_cons.mp hq
    rw [queryFrom, if_neg hch.1, index_eq hch.2, List.take_succ_cons, List.take_zero,
      at_cons hch.2, at_cons hch.2, Option.bind_some]
    cases hc : node.children ⟨ch.toNat, hch.2⟩ with
    | null =>
      rw [TrieNodePtr.at, null_at]
      rfl
    | node children =>
      rw [TrieNodePtr.at]
      exact (queryFrom_moved hpath rfl rfl).trans (congrArg some (Bool.and_true _).symm)

end Paths

section Answers

variable {entries entries' : List (List UInt8)} {q : List UInt8}

/-- What `Query` answers: an entry of two characters or more starts like `q`, but none goes on
after `q`. -/
def answer (entries : List (List UInt8)) (q : List UInt8) : Bool :=
  entries.isEmpty ||
    (!entries.any (ProperPrefix q ·) && entries.any (ProperPrefix (q.take 1) ·))

theorem answer_perm (h : entries.Perm entries') : answer entries q = answer entries' q := by
  rw [answer, h.isEmpty_eq, h.any_eq, h.any_eq, answer]

theorem query_fill (h : ∀ entry ∈ entries, entry ≠ [] ∧ Ascii entry) (hq : Ascii q) :
    ∃ node, fill entries = some node ∧ query node q = some (answer entries q) := by
  cases entries with
  | nil => exact ⟨.null, rfl, rfl⟩
  | cons entry entries =>
    obtain ⟨node, hfill, hpaths⟩ := fill_at fun e he => (h e he).2
    have hany : ∀ path, (node.at path).isNull =
        !(entry :: entries).any (ProperPrefix path ·) := by
      intro path
      have hb : (node.at path).isNull = false ↔
          (entry :: entries).any (ProperPrefix path ·) = true := by
        rw [hpaths, List.any_eq_true]
        simp only [decide_eq_true_eq]
      cases hnull : (node.at path).isNull with
      | false => rw [hb.mp hnull, Bool.not_true]
      | true =>
        have hnone : (entry :: entries).any (ProperPrefix path ·) ≠ true := by
          intro hsome
          rw [hb.mpr hsome] at hnull
          cases hnull
        rw [Bool.of_not_eq_true hnone, Bool.not_false]
    have hnode : node.isNull = false := by
      apply (hpaths []).mpr
      obtain ⟨hne, -⟩ := h entry (by simp)
      exact ⟨entry, by simp, List.nil_prefix, hne.symm⟩
    refine ⟨node, hfill, ?_⟩
    rw [query_at hq hnode, hany, hany, Bool.not_not]
    rfl

theorem agrees_iff {a p z : Prop} :
    (¬ z ∧ a ↔ p) ↔ (p → a ∧ ¬ z) ∧ (¬ p → z ∨ ¬ a) := by
  tauto

theorem query_iff (h : ∀ entry ∈ entries, entry ≠ [] ∧ Ascii entry) (hq : Ascii q) :
    (∃ node b, fill entries = some node ∧ query node q = some b ∧
      ((b = true ↔ entries = [] ∨ ∃ entry ∈ entries, entry <+: q) ↔
        ((∃ entry ∈ entries, entry <+: q) →
          (∃ entry ∈ entries, ProperPrefix (q.take 1) entry) ∧
            ¬ ∃ entry ∈ entries, ProperPrefix q entry) ∧
        ((¬ ∃ entry ∈ entries, entry <+: q) →
          (∃ entry ∈ entries, ProperPrefix q entry) ∨
            ¬ ∃ entry ∈ entries, ProperPrefix (q.take 1) entry))) ∧
    ∀ entries', entries.Perm entries' →
      (fill entries').bind (query · q) = (fill entries).bind (query · q) := by
  obtain ⟨node, hfill, hquery⟩ := query_fill h hq
  refine ⟨⟨node, _, hfill, hquery, ?_⟩, fun entries' hperm => ?_⟩
  · cases entries with
    | nil => simp [answer]
    | cons entry entries =>
      have hanswer : answer (entry :: entries) q = true ↔
          (¬ ∃ e ∈ entry :: entries, ProperPrefix q e) ∧
            ∃ e ∈ entry :: entries, ProperPrefix (q.take 1) e := by
        rw [answer, List.isEmpty_cons, Bool.false_or, Bool.and_eq_true, Bool.not_eq_true',
          ← Bool.not_eq_true, List.any_eq_true, List.any_eq_true]
        simp only [decide_eq_true_eq]
      have hne : ¬ entry :: entries = [] := List.cons_ne_nil entry entries
      rw [hanswer, or_iff_right hne]
      exact agrees_iff
  · obtain ⟨node', hfill', hquery'⟩ :=
      query_fill (fun entry he => h entry (hperm.mem_iff.mpr he)) hq
    rw [hfill, hfill', Option.bind_some, Option.bind_some, hquery, hquery', answer_perm hperm]

theorem query_iff_longer : ∃ node b, fill [[97, 98], [99]] = some node ∧
    query node [97, 98, 99] = some b ∧
    (b = true ↔ ∃ entry ∈ [[97, 98], [99]], entry <+: ([97, 98, 99] : List UInt8)) := by
  have hascii : ∀ entry ∈ ([[97, 98], [99]] : List (List UInt8)), entry ≠ [] ∧ Ascii entry := by
    decide +kernel
  have hq : Ascii [97, 98, 99] := by decide +kernel
  obtain ⟨⟨node, b, hfill, hquery, hiff⟩, -⟩ := query_iff hascii hq
  refine ⟨node, b, hfill, hquery, ?_⟩
  rw [hiff.mpr (by decide)]
  exact or_iff_right (by decide)

theorem query_wrong :
    ((fill [[97, 98, 99]]).bind (query · [97, 98, 100]) = some true ∧
      ¬ ∃ entry ∈ [[97, 98, 99]], entry <+: ([97, 98, 100] : List UInt8)) ∧
    ((fill [[97]]).bind (query · [97]) = some false ∧
      ∃ entry ∈ [[97]], entry <+: ([97] : List UInt8)) := by
  decide

end Answers

end EnvironmentCheck.AsciiTrie
