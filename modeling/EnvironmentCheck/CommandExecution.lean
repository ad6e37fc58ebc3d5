import EnvironmentCheck.Library.Transition
import Mathlib.Data.Nat.SuccPred

namespace EnvironmentCheck

open Transition

inductive OutputStream
  | stdout
  | stderr
  deriving DecidableEq

/-- What a child does before it exits. A read takes one byte, or finds the end of its input. -/
inductive ChildAction
  | read
  | write (stream : OutputStream) (byte : UInt8)

inductive ParentOp
  | write (bytes : List UInt8)
  | closeInput
  | waitFor
  | readAll (stream : OutputStream)

structure Launch where
  program : String
  ops : List ParentOp

/-- `CommandUtil.exec` of a command with these bytes. -/
def exec (command : List UInt8) : Launch :=
  ⟨"sh", [.write command, .write [10], .closeInput, .waitFor, .readAll .stdout]⟩

def commandOps : List (Option (List UInt8)) → List ParentOp
  | [] => []
  | none :: commands => commandOps commands
  | some command :: commands => .write command :: .write [10] :: commandOps commands

/-- `ShellUtils.execCmd`; it starts no process where there are no commands. -/
def execCmd (commands : Option (List (Option (List UInt8)))) (isRoot isNeedResultMsg : Bool) :
    Option Launch :=
  match commands with
  | none => none
  | some [] => none
  | some commands =>
    some ⟨if isRoot then "su" else "sh",
      commandOps commands ++ [.write [101, 120, 105, 116, 10], .waitFor] ++
        if isNeedResultMsg then [.readAll .stdout, .readAll .stderr] else []⟩

structure CommandExecution where
  ops : List ParentOp
  actions : List ChildAction
  exited : Bool
  input : List UInt8
  inputOpen : Bool
  output : OutputStream → List UInt8
  message : OutputStream → List UInt8

inductive Side
  | parent
  | child

namespace CommandExecution

def start (ops : List ParentOp) (actions : List ChildAction) : CommandExecution :=
  ⟨ops, actions, false, [], true, fun _ => [], fun _ => []⟩

-- In the next two `none` is a call that blocks, or that there is nothing left to do. A write to a
-- process that has exited throws, which ends the parent's work.

def parentStep (capacity : ℕ) (s : CommandExecution) : Option CommandExecution :=
  match s.ops with
  | [] => none
  | .write [] :: ops => some { s with ops := ops }
  | .write (byte :: bytes) :: ops =>
    if s.exited then some { s with ops := [] }
    else if s.input.length < capacity then
      some { s with ops := .write bytes :: ops, input := s.input ++ [byte] }
    else none
  | .closeInput :: ops => some { s with ops := ops, inputOpen := false }
  | .waitFor :: ops => if s.exited then some { s with ops := ops } else none
  | .readAll stream :: ops =>
    match s.output stream with
    | byte :: bytes =>
      some { s with
        output := Function.update s.output stream bytes
        message := Function.update s.message stream (s.message stream ++ [byte]) }
    | [] => if s.exited then some { s with ops := ops } else none

def childStep (capacity : ℕ) (s : CommandExecution) : Option CommandExecution :=
  if s.exited then none
  else
    match s.actions with
    | [] => some { s with exited := true }
    | .read :: actions =>
      match s.input with
      | _ :: input => some { s with actions := actions, input := input }
      | [] => if s.inputOpen then none else some { s with actions := actions }
    | .write stream byte :: actions =>
      if (s.output stream).length < capacity then
        some { s with
          actions := actions
          output := Function.update s.output stream (s.output stream ++ [byte]) }
      else none

def step (capacity : ℕ) (s : CommandExecution) : Side → Option CommandExecution
  | .parent => s.parentStep capacity
  | .child => s.childStep capacity

/-- The parent waits for a child that waits for room. -/
structure StuckOn (capacity : ℕ) (s : CommandExecution) (stream : OutputStream) : Prop where
  waiting : ∃ ops, s.ops = .waitFor :: ops
  running : s.exited = false
  writing : ∃ byte actions, s.actions = .write stream byte :: actions
  full : capacity ≤ (s.output stream).length

theorem StuckOn.blocked {capacity : ℕ} {s : CommandExecution} {stream : OutputStream}
    (h : s.StuckOn capacity stream) (side : Side) : s.step capacity side = none := by
  obtain ⟨ops, hops⟩ := h.waiting
  obtain ⟨byte, actions, hactions⟩ := h.writing
  have hfull := Nat.not_lt.mpr h.full
  cases side with
  | parent => simp [step, parentStep, hops, h.running]
  | child => simp [step, childStep, hactions, h.running, hfull]

end CommandExecution

def ChildAction.reads : ChildAction → Bool
  | .read => true
  | .write _ _ => false

def ChildAction.writes (stream : OutputStream) : ChildAction → Bool
  | .read => false
  | .write stream' _ => stream' = stream

/-- The bytes that are written before the parent waits. -/
def todo : List ParentOp → ℕ
  | .write bytes :: ops => bytes.length + todo ops
  | _ => 0

def closes : List ParentOp → Bool
  | .write _ :: ops => closes ops
  | .closeInput :: _ => true
  | _ => false

/-- The shape of both programs up to their `waitFor`. -/
def Feeds : List ParentOp → Prop
  | .write _ :: ops => Feeds ops
  | .closeInput :: .waitFor :: _ => True
  | .waitFor :: _ => True
  | _ => False

/-- With the pipe of this stream full, the child writes to it; until there it gets along with the
`sent` bytes of input, after which it may find the end, and with the room for its other output. -/
def Overflows (capacity sent : ℕ) (closed : Bool) (actions : List ChildAction)
    (stream : OutputStream) : Prop :=
  ∃ before byte after, actions = before ++ .write stream byte :: after ∧
    before.countP (ChildAction.writes stream) = capacity ∧
    (∀ other, before.countP (ChildAction.writes other) ≤ capacity) ∧
    sent ≤ capacity + before.countP ChildAction.reads ∧
    (closed = true ∨ before.countP ChildAction.reads ≤ sent)

namespace CommandExecution

variable {capacity : ℕ} {ops₀ : List ParentOp} {actions₀ done : List ChildAction}
  {s t : CommandExecution} {side : Side} {stream : OutputStream}

/-- What is in the pipes of a child that has done these actions, while the parent has not got past
its `waitFor`. -/
structure Counts (capacity : ℕ) (ops₀ : List ParentOp) (done : List ChildAction)
    (s : CommandExecution) : Prop where
  feeds : Feeds s.ops
  running : s.exited = false
  output : ∀ stream, (s.output stream).length = done.countP (ChildAction.writes stream)
  room : ∀ stream, done.countP (ChildAction.writes stream) ≤ capacity
  input : s.input.length ≤ capacity
  sent : s.inputOpen = true → closes s.ops = closes ops₀ ∧
    s.input.length + todo s.ops + done.countP ChildAction.reads = todo ops₀
  ended : s.inputOpen = false → closes ops₀ = true ∧ todo s.ops = 0 ∧
    todo ops₀ ≤ s.input.length + done.countP ChildAction.reads

theorem counts_start (h : Feeds ops₀) (actions : List ChildAction) :
    Counts capacity ops₀ [] (start ops₀ actions) where
  feeds := h
  running := rfl
  output _ := rfl
  room _ := Nat.zero_le _
  input := Nat.zero_le _
  sent _ := ⟨rfl, by simp [start]⟩
  ended hopen := by cases hopen

theorem feeds_closeInput {ops : List ParentOp} (h : Feeds (.closeInput :: ops)) :
    Feeds ops ∧ todo ops = 0 := by
  match ops, h with
  | .waitFor :: _, _ => exact ⟨trivial, rfl⟩

/-- What the parent does before its `waitFor`, while the child runs. -/
inductive ParentMoves (capacity : ℕ) (s : CommandExecution) : CommandExecution → Prop
  | written {ops : List ParentOp} (hops : s.ops = .write [] :: ops) (hfeeds : Feeds ops) :
    ParentMoves capacity s { s with ops := ops }
  | writes {byte : UInt8} {bytes : List UInt8} {ops : List ParentOp}
    (hops : s.ops = .write (byte :: bytes) :: ops) (hfeeds : Feeds ops)
    (hlt : s.input.length < capacity) :
    ParentMoves capacity s { s with ops := .write bytes :: ops, input := s.input ++ [byte] }
  | closesInput {ops : List ParentOp} (hops : s.ops = .closeInput :: ops) (hfeeds : Feeds ops)
    (hnone : todo ops = 0) : ParentMoves capacity s { s with ops := ops, inputOpen := false }

theorem parentMoves (hfeeds : Feeds s.ops) (hrunning : s.exited = false)
    (hp : s.parentStep capacity = some t) : ParentMoves capacity s t := by
  have hnot : ¬ s.exited = true := by simp [hrunning]
  unfold parentStep at hp
  split at hp
  · cases hp
  · next ops hops =>
    cases hp
    rw [hops] at hfeeds
    exact .written hops hfeeds
  · next byte bytes ops hops =>
    rw [if_neg hnot] at hp
    split_ifs at hp with hlt
    cases hp
    rw [hops] at hfeeds
    exact .writes hops hfeeds hlt
  · next ops hops =>
    cases hp
    rw [hops] at hfeeds
    obtain ⟨hrest, hnone⟩ := feeds_closeInput hfeeds
    exact .closesInput hops hrest hnone
  · rw [if_neg hnot] at hp
    cases hp
  · next stream ops hops =>
    rw [hops] at hfeeds
    cases hfeeds

theorem counts_parent (h : Counts capacity ops₀ done s) (hp : s.parentStep capacity = some t) :
    Counts capacity ops₀ done t ∧ t.actions = s.actions := by
  have hmoves := parentMoves h.feeds h.running hp
  obtain ⟨-, hrunning, houtput, hroom, hinput, hsent, hended⟩ := h
  cases hmoves with
  | written hops hfeeds =>
    rw [hops] at hsent hended
    simp only [todo, closes, List.length_nil, zero_add] at hsent hended
    exact ⟨⟨hfeeds, hrunning, houtput, hroom, hinput, hsent, hended⟩, rfl⟩
  | writes hops hfeeds hlt =>
    rw [hops] at hsent hended
    simp only [todo, closes, List.length_cons] at hsent hended
    refine ⟨⟨hfeeds, hrunning, houtput, hroom, ?_, fun hopen => ?_, fun hclosed => ?_⟩, rfl⟩
    · simpa using hlt
    · obtain ⟨hcloses, hsum⟩ := hsent hopen
      refine ⟨hcloses, ?_⟩
      simp only [todo, List.length_append, List.length_singleton]
      omega
    · obtain ⟨-, hnone, -⟩ := hended hclosed
      omega
  | closesInput hops hfeeds hnone =>
    rw [hops] at hsent hended
    refine ⟨⟨hfeeds, hrunning, houtput, hroom, hinput, nofun, fun _ => ?_⟩, rfl⟩
    cases hopen : s.inputOpen with
    | true =>
      obtain ⟨hcloses, hsum⟩ := hsent hopen
      simp only [todo] at hsum
      exact ⟨hcloses.symm, hnone, by simp only; omega⟩
    | false =>
      obtain ⟨hcloses, -, hsum⟩ := hended hopen
      exact ⟨hcloses, hnone, hsum⟩

theorem counts_read (done : List ChildAction) :
    (done ++ [ChildAction.read]).countP ChildAction.reads = done.countP ChildAction.reads + 1 ∧
      ∀ stream, (done ++ [ChildAction.read]).countP (ChildAction.writes stream) =
        done.countP (ChildAction.writes stream) := by
  simp [ChildAction.reads, ChildAction.writes]

theorem counts_write (done : List ChildAction) (stream : OutputStream) (byte : UInt8) :
    (done ++ [ChildAction.write stream byte]).countP ChildAction.reads = done.countP ChildAction.reads ∧
      ∀ other, (done ++ [ChildAction.write stream byte]).countP (ChildAction.writes other) =
        done.countP (ChildAction.writes other) + if stream = other then 1 else 0 := by
  simp [ChildAction.reads, ChildAction.writes, List.countP_cons]

theorem counts_reads {actions : List ChildAction} {input : List UInt8}
    (h : Counts capacity ops₀ done s) (hread : s.input.length = input.length + 1 ∨
      s.inputOpen = false ∧ input = s.input) :
    Counts capacity ops₀ (done ++ [.read]) { s with actions := actions, input := input } := by
  obtain ⟨hfeeds, hrunning, houtput, hroom, hinput, hsent, hended⟩ := h
  obtain ⟨hreads, hwrites⟩ := counts_read done
  refine ⟨hfeeds, hrunning, ?_, ?_, ?_, fun hopen => ?_, fun hclosed => ?_⟩
  · simpa only [hwrites] using houtput
  · simpa only [hwrites] using hroom
  · obtain hlen | ⟨-, rfl⟩ := hread
    · simp only
      omega
    · exact hinput
  · obtain ⟨hcloses, hsum⟩ := hsent hopen
    obtain hlen | ⟨hclosed, -⟩ := hread
    · exact ⟨hcloses, by simp only [hreads]; omega⟩
    · exact absurd (hopen.symm.trans hclosed) Bool.noConfusion
  · obtain ⟨hcloses, hnone, hsum⟩ := hended hclosed
    refine ⟨hcloses, hnone, ?_⟩
    simp only [hreads]
    obtain hlen | ⟨-, rfl⟩ := hread
    · omega
    · omega

theorem counts_writes {actions : List ChildAction} {byte : UInt8} (h : Counts capacity ops₀ done s)
    (hlt : (s.output stream).length < capacity) :
    Counts capacity ops₀ (done ++ [.write stream byte]) { s with
      actions := actions
      output := Function.update s.output stream (s.output stream ++ [byte]) } := by
  obtain ⟨hfeeds, hrunning, houtput, hroom, hinput, hsent, hended⟩ := h
  obtain ⟨hreads, hwrites⟩ := counts_write done stream byte
  refine ⟨hfeeds, hrunning, fun other => ?_, fun other => ?_, hinput, ?_, ?_⟩
  · rw [hwrites]
    by_cases heq : stream = other
    · subst heq
      simp [houtput]
    · simp [houtput, heq, Ne.symm heq]
  · rw [hwrites]
    split_ifs with heq
    · rw [← heq, ← houtput stream]
      exact hlt
    · exact hroom other
  · simpa only [hreads] using hsent
  · simpa only [hreads] using hended

theorem counts_child (h : Counts capacity ops₀ done s) (hc : s.childStep capacity = some t) :
    (s.actions = [] ∧ t.exited = true) ∨ ∃ action, s.actions = action :: t.actions ∧
      t.ops = s.ops ∧ Counts capacity ops₀ (done ++ [action]) t := by
  rw [childStep, if_neg (by simp [h.running])] at hc
  split at hc
  · next hactions =>
    cases hc
    exact .inl ⟨hactions, rfl⟩
  · next actions hactions =>
    split at hc
    · next byte input hin =>
      cases hc
      have hlen : s.input.length = input.length + 1 := by rw [hin, List.length_cons]
      exact .inr ⟨.read, hactions, rfl, counts_reads h (.inl hlen)⟩
    · split_ifs at hc with hopen
      cases hc
      exact .inr ⟨.read, hactions, rfl, counts_reads h (.inr ⟨Bool.eq_false_of_not_eq_true hopen, rfl⟩)⟩
  · next stream byte actions hactions =>
    split_ifs at hc with hlt
    cases hc
    exact .inr ⟨.write stream byte, hactions, rfl, counts_writes h hlt⟩

theorem exited_parent (h : s.exited = true) (hp : s.parentStep capacity = some t) : t.exited = true := by
  unfold parentStep at hp
  split at hp
  · cases hp
  · cases hp
    exact h
  · rw [if_pos h] at hp
    cases hp
    exact h
  · cases hp
    exact h
  · rw [if_pos h] at hp
    cases hp
    exact h
  · split at hp
    · cases hp
      exact h
    · rw [if_pos h] at hp
      cases hp
      exact h

theorem reachable_counts (hf : Feeds ops₀)
    (h : Reachable (step capacity) (fun _ _ => True) (start ops₀ actions₀) s) :
    s.exited = true ∨ ∃ done, actions₀ = done ++ s.actions ∧ Counts capacity ops₀ done s := by
  refine Reachable.invariant (p := fun s => s.exited = true ∨ ∃ done, actions₀ = done ++ s.actions ∧
    Counts capacity ops₀ done s) (.inr ⟨[], rfl, counts_start hf actions₀⟩) ?_ h
  rintro s side t - hs - hstep
  cases side with
  | parent =>
    obtain hexited | ⟨done, hdone, hcounts⟩ := hs
    · exact .inl (exited_parent hexited hstep)
    · obtain ⟨hnext, hsame⟩ := counts_parent hcounts hstep
      exact .inr ⟨done, by rw [hsame, hdone], hnext⟩
  | child =>
    obtain hexited | ⟨done, hdone, hcounts⟩ := hs
    · change s.childStep capacity = some t at hstep
      rw [childStep, if_pos hexited] at hstep
      cases hstep
    · obtain ⟨-, hexited⟩ | ⟨action, haction, -, hnext⟩ := counts_child hcounts hstep
      · exact .inl hexited
      · refine .inr ⟨done ++ [action], ?_, hnext⟩
        rw [hdone, haction, List.append_assoc, List.singleton_append]

theorem overflows_of_stuck (hf : Feeds ops₀)
    (h : Reachable (step capacity) (fun _ _ => True) (start ops₀ actions₀) s)
    (hstuck : s.StuckOn capacity stream) : Overflows capacity (todo ops₀) (closes ops₀) actions₀ stream := by
  obtain ⟨ops, hops⟩ := hstuck.waiting
  obtain ⟨byte, after, hactions⟩ := hstuck.writing
  obtain hexited | ⟨done, hdone, hcounts⟩ := reachable_counts hf h
  · rw [hstuck.running] at hexited
    cases hexited
  · have hfull := hstuck.full
    rw [hcounts.output] at hfull
    have hinput := hcounts.input
    refine ⟨done, byte, after, by rw [hdone, hactions], le_antisymm (hcounts.room stream) hfull,
      hcounts.room, ?_⟩
    cases hopen : s.inputOpen with
    | true =>
      obtain ⟨-, hsum⟩ := hcounts.sent hopen
      have hnone : todo s.ops = 0 := by rw [hops]; rfl
      exact ⟨by omega, .inr (by omega)⟩
    | false =>
      obtain ⟨hcloses, -, hsum⟩ := hcounts.ended hopen
      exact ⟨by omega, .inl hcloses⟩

theorem parent_blocked (h : Counts capacity ops₀ done s) (hp : s.parentStep capacity = none) :
    (∃ ops, s.ops = .waitFor :: ops) ∨ (capacity ≤ s.input.length ∧ 0 < todo s.ops) := by
  have hfeeds := h.feeds
  have hrunning : ¬ s.exited = true := by simp [h.running]
  match hops : s.ops with
  | [] =>
    rw [hops] at hfeeds
    cases hfeeds
  | .write [] :: ops => simp [parentStep, hops] at hp
  | .write (byte :: bytes) :: ops =>
    simp only [parentStep, hops, if_neg hrunning] at hp
    split_ifs at hp with hlt
    refine .inr ⟨not_lt.mp hlt, ?_⟩
    simp only [todo, List.length_cons]
    omega
  | .closeInput :: ops => simp [parentStep, hops] at hp
  | .waitFor :: ops => exact .inl ⟨ops, rfl⟩
  | .readAll stream :: ops =>
    rw [hops] at hfeeds
    cases hfeeds

def size (s : CommandExecution) : ℕ := s.ops.length + todo s.ops + s.actions.length

theorem size_parent (h : Counts capacity ops₀ done s) (hp : s.parentStep capacity = some t) :
    t.size < s.size := by
  unfold size
  cases parentMoves h.feeds h.running hp with
  | written hops _ =>
    rw [hops]
    simp [todo]
  | writes hops _ _ =>
    rw [hops]
    simp only [todo, List.length_cons]
    omega
  | closesInput hops _ hnone =>
    rw [hops]
    simp [todo, hnone]

/-- On the way to the end of `before`, with `rest` of it left. -/
structure Heading (capacity : ℕ) (ops₀ : List ParentOp) (before tail : List ChildAction)
    (s : CommandExecution) (rest : List ChildAction) : Prop where
  counts : ∃ done, before = done ++ rest ∧ Counts capacity ops₀ done s
  actions : s.actions = rest ++ tail

variable {before tail rest : List ChildAction}

theorem child_moves (hcapacity : 0 < capacity) (hcounts : Counts capacity ops₀ done s)
    {action : ChildAction} (hactions : s.actions = action :: (rest ++ tail))
    (hroom : ∀ other, (done ++ action :: rest).countP (ChildAction.writes other) ≤ capacity)
    (hreads : closes ops₀ = true ∨ (done ++ action :: rest).countP ChildAction.reads ≤ todo ops₀)
    (hparent : s.parentStep capacity = none) : (s.childStep capacity).isSome := by
  have hrunning : ¬ s.exited = true := by simp [hcounts.running]
  rw [childStep, if_neg hrunning, hactions]
  cases action with
  | write stream byte =>
    have hlt : (s.output stream).length < capacity := by
      have hle := hroom stream
      rw [hcounts.output]
      simp [ChildAction.writes] at hle
      omega
    simp [hlt]
  | read =>
    cases hinput : s.input with
    | cons byte input => simp
    | nil =>
      have hclosed : ¬ s.inputOpen = true := by
        intro hopen
        obtain ⟨hcloses, hsum⟩ := hcounts.sent hopen
        obtain ⟨ops, hops⟩ | ⟨hfull, -⟩ := parent_blocked hcounts hparent
        · simp only [hops, hinput, closes, todo, List.length_nil] at hcloses hsum
          obtain hyes | hle := hreads
          · rw [hyes] at hcloses
            cases hcloses
          · simp [List.countP_cons, ChildAction.reads] at hle
            omega
        · rw [hinput, List.length_nil] at hfull
          omega
      simp [hclosed]

/-- One of the two moves on, and not past `before`. -/
theorem heading_step (hcapacity : 0 < capacity)
    (hroom : ∀ other, before.countP (ChildAction.writes other) ≤ capacity)
    (hinput : todo ops₀ ≤ capacity + before.countP ChildAction.reads)
    (hreads : closes ops₀ = true ∨ before.countP ChildAction.reads ≤ todo ops₀)
    (h : Heading capacity ops₀ before tail s rest)
    (hmore : ¬ (rest = [] ∧ ∃ ops, s.ops = .waitFor :: ops)) :
    ∃ side t rest', s.step capacity side = some t ∧ Heading capacity ops₀ before tail t rest' ∧
      t.size < s.size := by
  obtain ⟨done, rfl, hcounts⟩ := h.counts
  cases hparent : s.parentStep capacity with
  | some t =>
    obtain ⟨hnext, hsame⟩ := counts_parent hcounts hparent
    exact ⟨.parent, t, rest, hparent, ⟨⟨done, rfl, hnext⟩, hsame.trans h.actions⟩,
      size_parent hcounts hparent⟩
  | none =>
    cases rest with
    | nil =>
      exfalso
      obtain hwaits | ⟨hfull, hleft⟩ := parent_blocked hcounts hparent
      · exact hmore ⟨rfl, hwaits⟩
      · rw [List.append_nil] at hinput
        cases hopen : s.inputOpen with
        | true =>
          obtain ⟨-, hsum⟩ := hcounts.sent hopen
          omega
        | false =>
          obtain ⟨-, hnone, -⟩ := hcounts.ended hopen
          omega
    | cons action rest =>
      have hactions := h.actions
      rw [List.cons_append] at hactions
      obtain ⟨t, ht⟩ := Option.isSome_iff_exists.mp
        (child_moves hcapacity hcounts hactions hroom hreads hparent)
      obtain ⟨hnil, -⟩ | ⟨action', haction, hops, hnext⟩ := counts_child hcounts ht
      · rw [hactions] at hnil
        cases hnil
      · obtain ⟨rfl, hrest⟩ := List.cons.inj (hactions.symm.trans haction)
        refine ⟨.child, t, rest, ht, ⟨⟨done ++ [action], ?_, hnext⟩, hrest.symm⟩, ?_⟩
        · rw [List.append_assoc, List.singleton_append]
        · rw [size, size, hops, haction, List.length_cons]
          omega

theorem heading_run (hcapacity : 0 < capacity)
    (hroom : ∀ other, before.countP (ChildAction.writes other) ≤ capacity)
    (hinput : todo ops₀ ≤ capacity + before.countP ChildAction.reads)
    (hreads : closes ops₀ = true ∨ before.countP ChildAction.reads ≤ todo ops₀)
    (h : Heading capacity ops₀ before tail s rest) :
    ∃ t, Reachable (step capacity) (fun _ _ => True) s t ∧
      Heading capacity ops₀ before tail t [] ∧ ∃ ops, t.ops = .waitFor :: ops := by
  induction hsize : s.size using Nat.strong_induction_on generalizing s rest with
  | _ n ih =>
    by_cases hmore : rest = [] ∧ ∃ ops, s.ops = .waitFor :: ops
    · obtain ⟨rfl, hwaits⟩ := hmore
      exact ⟨s, .refl, h, hwaits⟩
    · obtain ⟨side, t, rest', hstep, hheading, hlt⟩ :=
        heading_step hcapacity hroom hinput hreads h hmore
      obtain ⟨u, ⟨es, hm, hrun⟩, hend⟩ := ih t.size (hsize ▸ hlt) hheading rfl
      refine ⟨u, ⟨side :: es, meets_true _ _, ?_⟩, hend⟩
      rw [run_cons_some hstep, hrun]

def NeverStuckOn (capacity : ℕ) (ops : List ParentOp) (actions : List ChildAction)
    (stream : OutputStream) : Prop :=
  ∀ s, Reachable (step capacity) (fun _ _ => True) (start ops actions) s → ¬ s.StuckOn capacity stream

theorem neverStuckOn_iff (hcapacity : 0 < capacity) (hf : Feeds ops₀) (actions : List ChildAction)
    (stream : OutputStream) :
    NeverStuckOn capacity ops₀ actions stream ↔
      ¬ Overflows capacity (todo ops₀) (closes ops₀) actions stream := by
  constructor
  · rintro hnever ⟨before, byte, after, rfl, hfull, hroom, hinput, hreads⟩
    have hheading : Heading capacity ops₀ before (.write stream byte :: after)
        (start ops₀ (before ++ .write stream byte :: after)) before :=
      ⟨⟨[], rfl, counts_start hf _⟩, rfl⟩
    obtain ⟨t, ht, hend, hwaits⟩ := heading_run hcapacity hroom hinput hreads hheading
    obtain ⟨done, hdone, hcounts⟩ := hend.counts
    rw [List.append_nil] at hdone
    subst hdone
    have hlength : capacity ≤ (t.output stream).length := by rw [hcounts.output, hfull]
    exact hnever t ht ⟨hwaits, hcounts.running, ⟨byte, after, hend.actions⟩, hlength⟩
  · intro h s hs hstuck
    exact h (overflows_of_stuck hf hs hstuck)

def sentBytes : List (Option (List UInt8)) → ℕ
  | [] => 0
  | none :: commands => sentBytes commands
  | some command :: commands => command.length + 1 + sentBytes commands

theorem execCmd_ops (commands : List (Option (List UInt8))) (ops : List ParentOp) :
    Feeds (commandOps commands ++ .write [101, 120, 105, 116, 10] :: .waitFor :: ops) ∧
      todo (commandOps commands ++ .write [101, 120, 105, 116, 10] :: .waitFor :: ops) =
        sentBytes commands + 5 ∧
      closes (commandOps commands ++ .write [101, 120, 105, 116, 10] :: .waitFor :: ops) = false := by
  induction commands with
  | nil => exact ⟨trivial, rfl, rfl⟩
  | cons command commands ih =>
    obtain ⟨hfeeds, htodo, hcloses⟩ := ih
    cases command with
    | none => exact ⟨hfeeds, htodo, hcloses⟩
    | some command =>
      refine ⟨hfeeds, ?_, hcloses⟩
      simp only [commandOps, List.cons_append, todo, htodo, sentBytes, List.length_singleton]
      omega

theorem commands_neverStuck_iff (capacity : ℕ) (hcapacity : 0 < capacity)
    (actions : List ChildAction) (stream : OutputStream) :
    (∀ command, NeverStuckOn capacity (exec command).ops actions stream ↔
        ¬ Overflows capacity (command.length + 1) true actions stream) ∧
      ∀ commands isRoot isNeedResultMsg launch,
        execCmd (some commands) isRoot isNeedResultMsg = some launch →
        (NeverStuckOn capacity launch.ops actions stream ↔
          ¬ Overflows capacity (sentBytes commands + 5) false actions stream) := by
  constructor
  · intro command
    have hfeeds : Feeds (exec command).ops := trivial
    have htodo : todo (exec command).ops = command.length + 1 := rfl
    rw [neverStuckOn_iff hcapacity hfeeds, htodo]
    rfl
  · intro commands isRoot isNeedResultMsg launch hlaunch
    cases commands with
    | nil => cases hlaunch
    | cons command commands =>
      obtain rfl := (Option.some.inj hlaunch).symm
      obtain ⟨hfeeds, htodo, hcloses⟩ := execCmd_ops (command :: commands)
        (if isNeedResultMsg then [.readAll .stdout, .readAll .stderr] else [])
      have hiff := neverStuckOn_iff hcapacity hfeeds actions stream
      rw [htodo, hcloses] at hiff
      simpa using hiff

theorem commands_neverStuck_iff_ls :
    (NeverStuckOn 8 (exec [108, 115]).ops (.replicate 9 (.write .stdout 97)) .stdout ↔
        ¬ Overflows 8 3 true (.replicate 9 (.write .stdout 97)) .stdout) ∧
      ∀ launch, execCmd (some [some [108, 115]]) false true = some launch →
        (NeverStuckOn 8 launch.ops (.replicate 9 (.write .stderr 97)) .stderr ↔
          ¬ Overflows 8 8 false (.replicate 9 (.write .stderr 97)) .stderr) := by
  obtain ⟨hexec, -⟩ := commands_neverStuck_iff 8 (by decide) (.replicate 9 (.write .stdout 97)) .stdout
  obtain ⟨-, hcmd⟩ := commands_neverStuck_iff 8 (by decide) (.replicate 9 (.write .stderr 97)) .stderr
  exact ⟨hexec [108, 115], hcmd [some [108, 115]] false true⟩

/-- With room for eight bytes in a pipe, a child that prints nine. -/
theorem ls_stuck :
    (∃ s, run (step 8) (start (exec [108, 115]).ops (.replicate 9 (.write .stdout 97)))
        (.replicate 6 .parent ++ .replicate 8 .child) = some s ∧ s.StuckOn 8 .stdout) ∧
      ∃ launch s, execCmd (some [some [108, 115]]) false true = some launch ∧
        run (step 8) (start launch.ops (.replicate 9 (.write .stdout 97)))
          (.replicate 11 .parent ++ .replicate 8 .child) = some s ∧ s.StuckOn 8 .stdout := by
  constructor
  · exact ⟨_, rfl, ⟨_, rfl⟩, rfl, ⟨_, _, rfl⟩, by decide⟩
  · exact ⟨_, _, rfl, rfl, ⟨_, rfl⟩, rfl, ⟨_, _, rfl⟩, by decide⟩

end CommandExecution

end EnvironmentCheck
