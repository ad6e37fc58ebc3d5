import Mathlib.Data.Int.Notation
import Mathlib.Data.List.Basic
import Mathlib.Tactic.Common

namespace EnvironmentCheck

namespace Download

structure IOException where

abbrev Action (σ : Type) := EStateM IOException σ

section Calls

variable {σ : Type}

def stateAfter (x : Action σ Unit) (s : σ) : σ :=
  match x s with
  | .ok _ t => t
  | .error _ t => t

def Returns (x : Action σ Unit) (s : σ) : Prop :=
  x s = .ok () (stateAfter x s)

def succeed (ok : Bool) : Action σ Unit :=
  if ok then pure () else throw {}

/-- Kotlin's `use`: the block and then `close`, whose own failure a failed block hides. -/
def use (block close : Action σ Unit) : Action σ Unit := do
  tryCatch block fun e => do
    tryCatch close fun _ => pure ()
    throw e
  close

end Calls

/-! ### What is not part of the repository -/

/-- The calls of okio, on what it holds together with the network and the file system. -/
structure Okio (W : Type) where
  source : Action W Unit
  sink : Action W Unit
  writeAll : Action W Unit
  closeSink : Action W Unit
  closeSource : Action W Unit
  -- what the body still gives
  unread : W → List UInt8
  -- what the sink holds back
  buffered : W → List UInt8
  -- what the sink has put into the file, once it is open
  written : W → Option (List UInt8)

variable {W : Type}

/-- What the documentation says of calls that return, and which calls leave the file alone. After a
`writeAll` or a `close` that throws, the file may hold anything. -/
structure Okio.Documented (okio : Okio W) : Prop where
  source_unread : ∀ w, Returns okio.source w →
    okio.unread (stateAfter okio.source w) = okio.unread w
  source_written : ∀ w, okio.written (stateAfter okio.source w) = okio.written w
  sink_opens : ∀ w, Returns okio.sink w →
    okio.written (stateAfter okio.sink w) = some [] ∧
      okio.buffered (stateAfter okio.sink w) = [] ∧
      okio.unread (stateAfter okio.sink w) = okio.unread w
  sink_throws : ∀ w, ¬ Returns okio.sink w →
    okio.written (stateAfter okio.sink w) = okio.written w
  -- "removes all bytes from the source and appends them to this sink"
  writeAll_appends : ∀ w f, okio.written w = some f → Returns okio.writeAll w →
    ∃ g, okio.written (stateAfter okio.writeAll w) = some g ∧
      g ++ okio.buffered (stateAfter okio.writeAll w) = f ++ okio.buffered w ++ okio.unread w
  -- "pushes any buffered bytes to their final destination"
  closeSink_pushes : ∀ w f, okio.written w = some f → Returns okio.closeSink w →
    okio.written (stateAfter okio.closeSink w) = some (f ++ okio.buffered w)
  closeSource_written : ∀ w, okio.written (stateAfter okio.closeSource w) = okio.written w

inductive Completion
  | failure
  | response (hasBody : Bool)

/-- The HTTP client, which decides what follows when `onResponse` throws. -/
structure Client where
  afterException : List Completion

/-- A callback is not signalled twice. -/
def Client.SignalsOnce (client : Client) : Prop :=
  client.afterException = []

/-! ### The download -/

inductive Callback
  | onDownloadSuccess
  | onDownloading (progress : ℤ)
  | onDownloadFailed
  deriving DecidableEq

def Callback.terminal : Callback → Bool
  | .onDownloading _ => false
  | _ => true

structure State (W : Type) where
  world : W
  callbacks : List Callback

/-- What the network and the file system do; no sink is open before. -/
structure Environment (okio : Okio W) where
  world : W
  unopened : okio.written world = none
  -- whether `createNewFile` returns, after an older file is deleted; its result is not looked at
  creates : Bool
  completion : Completion

def call (callback : Callback) : Action (State W) Unit :=
  modify fun s => { s with callbacks := s.callbacks ++ [callback] }

def onWorld (x : Action W Unit) : Action (State W) Unit := fun s =>
  match x s.world with
  | .ok _ w => .ok () { s with world := w }
  | .error e w => .error e { s with world := w }

def copy (okio : Okio W) : Action W Unit := do
  okio.source
  use (do
    okio.sink
    use okio.writeAll okio.closeSink) okio.closeSource

def onFailure : Action (State W) Unit :=
  call .onDownloadFailed

def onResponse (okio : Okio W) (creates hasBody : Bool) : Action (State W) Unit := do
  succeed creates
  tryCatch
    (if hasBody then onWorld (copy okio) else call .onDownloadFailed)
    fun _ => call .onDownloadFailed

def complete (okio : Okio W) (creates : Bool) : Completion → Action (State W) Unit
  | .failure => onFailure
  | .response hasBody => onResponse okio creates hasBody

/-- `DownloadUtils.download` and what follows it. -/
def download (okio : Okio W) (client : Client) (env : Environment okio) : State W :=
  match complete okio env.creates env.completion ⟨env.world, []⟩ with
  | .ok _ s => s
  | .error _ s =>
    client.afterException.foldl (fun s c => stateAfter (complete okio env.creates c) s) s

/-! ### What is claimed -/

def Written {okio : Okio W} (env : Environment okio) (s : State W) : Prop :=
  env.completion = .response true ∧ okio.written s.world = some (okio.unread env.world)

/-- Exactly one terminal callback, and a success exactly where the whole body was written. -/
def ReportsOnce (okio : Okio W) (client : Client) (env : Environment okio) : Prop :=
  ((download okio client env).callbacks.filter Callback.terminal).length = 1 ∧
    (.onDownloadSuccess ∈ (download okio client env).callbacks ↔
      Written env (download okio client env))

def Okio.openSink (okio : Okio W) : Action W Unit := do
  okio.source
  okio.sink

/-- The source or the sink does not open, or copying or the closing of the sink throws where that
leaves the file without the whole body. -/
def Okio.FallsShort (okio : Okio W) (w : W) : Prop :=
  ¬ Returns okio.openSink w ∨
    ¬ Returns (use okio.writeAll okio.closeSink) (stateAfter okio.openSink w) ∧
      okio.written (stateAfter (use okio.writeAll okio.closeSink) (stateAfter okio.openSink w)) ≠
        some (okio.unread w)

/-- The request fails, or the file is created and the body is missing or falls short. -/
def Environment.Fails {okio : Okio W} (env : Environment okio) : Prop :=
  match env.completion with
  | .failure => True
  | .response false => env.creates = true
  | .response true => env.creates = true ∧ okio.FallsShort env.world

/-! ### Calls one after another -/

section Calls

variable {σ : Type}

theorem returns_or_throws (x : Action σ Unit) (s : σ) :
    Returns x s ∨ ∃ e, x s = .error e (stateAfter x s) := by
  unfold Returns stateAfter
  cases x s with
  | ok a t => exact Or.inl rfl
  | error e t => exact Or.inr ⟨e, rfl⟩

theorem not_returns {x : Action σ Unit} {s t : σ} {e : IOException} (h : x s = .error e t) :
    ¬ Returns x s := by
  rw [Returns, h]
  simp

theorem bind_of_returns {x : Action σ Unit} {s : σ} (h : Returns x s) (f : Unit → Action σ Unit) :
    (x >>= f) s = f () (stateAfter x s) := by
  change EStateM.bind x f s = _
  rw [EStateM.bind, h]

theorem bind_of_throws {x : Action σ Unit} {s t : σ} {e : IOException} (h : x s = .error e t)
    (f : Unit → Action σ Unit) : (x >>= f) s = .error e t := by
  change EStateM.bind x f s = _
  rw [EStateM.bind, h]

theorem stateAfter_bind {x : Action σ Unit} {s : σ} (h : Returns x s) (f : Unit → Action σ Unit) :
    stateAfter (x >>= f) s = stateAfter (f ()) (stateAfter x s) := by
  simp only [stateAfter, bind_of_returns h]

theorem stateAfter_bind_of_throws {x : Action σ Unit} {s : σ} (h : ¬ Returns x s)
    (f : Unit → Action σ Unit) : stateAfter (x >>= f) s = stateAfter x s := by
  obtain hreturns | ⟨e, hthrows⟩ := returns_or_throws x s
  · exact absurd hreturns h
  · rw [stateAfter, bind_of_throws hthrows]

theorem returns_bind_iff (x : Action σ Unit) (f : Unit → Action σ Unit) (s : σ) :
    Returns (x >>= f) s ↔ Returns x s ∧ Returns (f ()) (stateAfter x s) := by
  obtain h | ⟨e, h⟩ := returns_or_throws x s
  · rw [Returns, stateAfter_bind h, bind_of_returns h]
    exact (and_iff_right h).symm
  · refine iff_of_false (not_returns (bind_of_throws h f)) ?_
    rintro ⟨hx, _⟩
    exact not_returns h hx

theorem use_of_returns {block : Action σ Unit} {s : σ} (h : Returns block s) (close : Action σ Unit) :
    use block close s = close (stateAfter block s) := by
  change EStateM.bind (EStateM.tryCatch block _) (fun _ => close) s = _
  rw [EStateM.bind, EStateM.tryCatch, h]

theorem use_of_throws {block : Action σ Unit} {s t : σ} {e : IOException} (h : block s = .error e t)
    (close : Action σ Unit) : use block close s = .error e (stateAfter close t) := by
  change EStateM.bind (EStateM.tryCatch block (fun e =>
    EStateM.bind (EStateM.tryCatch close fun _ => pure ()) fun _ => throw e)) (fun _ => close) s = _
  have hrest : EStateM.Backtrackable.restore t (EStateM.Backtrackable.save s) = t := rfl
  simp only [EStateM.bind, EStateM.tryCatch, h, stateAfter, hrest]
  cases close t with
  | ok a u => rfl
  | error e u => rfl

theorem stateAfter_use (block close : Action σ Unit) (s : σ) :
    stateAfter (use block close) s = stateAfter close (stateAfter block s) := by
  obtain h | ⟨e, h⟩ := returns_or_throws block s
  · rw [stateAfter, use_of_returns h]
    rfl
  · rw [stateAfter, use_of_throws h]

theorem returns_use_iff (block close : Action σ Unit) (s : σ) :
    Returns (use block close) s ↔ Returns block s ∧ Returns close (stateAfter block s) := by
  obtain h | ⟨e, h⟩ := returns_or_throws block s
  · rw [Returns, stateAfter_use, use_of_returns h]
    exact (and_iff_right h).symm
  · refine iff_of_false (not_returns (use_of_throws h close)) ?_
    rintro ⟨hblock, _⟩
    exact not_returns h hblock

end Calls

/-! ### The copy -/

section Copy

variable {okio : Okio W} {w : W}

theorem openSink_opens (h : okio.Documented) (hopen : Returns okio.openSink w) :
    okio.written (stateAfter okio.openSink w) = some [] ∧
      okio.buffered (stateAfter okio.openSink w) = [] ∧
      okio.unread (stateAfter okio.openSink w) = okio.unread w := by
  obtain ⟨hsource, hsink⟩ := (returns_bind_iff _ _ w).mp hopen
  obtain ⟨hwritten, hbuffered, hunread⟩ := h.sink_opens _ hsink
  rw [Okio.openSink, stateAfter_bind hsource]
  exact ⟨hwritten, hbuffered, hunread.trans (h.source_unread w hsource)⟩

theorem sink_throws_of_unopened (hopen : ¬ Returns okio.openSink w)
    (hsource : Returns okio.source w) : ¬ Returns okio.sink (stateAfter okio.source w) := by
  intro hsink
  exact hopen ((returns_bind_iff _ _ w).mpr ⟨hsource, hsink⟩)

theorem written_openSink (h : okio.Documented) (hopen : ¬ Returns okio.openSink w) :
    okio.written (stateAfter okio.openSink w) = okio.written w := by
  by_cases hsource : Returns okio.source w
  · have hsink := sink_throws_of_unopened hopen hsource
    rw [Okio.openSink, stateAfter_bind hsource, h.sink_throws _ hsink, h.source_written]
  · rw [Okio.openSink, stateAfter_bind_of_throws hsource, h.source_written]

/-- Copying that returns, with the closing of the sink, leaves the whole body in the file. -/
theorem written_of_returns (h : okio.Documented) (hopen : Returns okio.openSink w)
    (hcopy : Returns (use okio.writeAll okio.closeSink) (stateAfter okio.openSink w)) :
    okio.written (stateAfter (use okio.writeAll okio.closeSink) (stateAfter okio.openSink w)) =
      some (okio.unread w) := by
  obtain ⟨hwritten, hbuffered, hunread⟩ := openSink_opens h hopen
  obtain ⟨hwriteAll, hclose⟩ := (returns_use_iff _ _ _).mp hcopy
  obtain ⟨g, hg, happend⟩ := h.writeAll_appends _ [] hwritten hwriteAll
  rw [stateAfter_use, h.closeSink_pushes _ g hg hclose, happend, hbuffered, hunread]
  rfl

theorem returns_copy_iff : Returns (copy okio) w ↔ Returns okio.openSink w ∧
    Returns (use okio.writeAll okio.closeSink) (stateAfter okio.openSink w) ∧
      Returns okio.closeSource
        (stateAfter (use okio.writeAll okio.closeSink) (stateAfter okio.openSink w)) := by
  rw [copy, returns_bind_iff, returns_use_iff, returns_bind_iff, Okio.openSink, returns_bind_iff]
  constructor
  · rintro ⟨hsource, ⟨hsink, hcopy⟩, hclose⟩
    rw [stateAfter_bind hsink] at hclose
    rw [stateAfter_bind hsource]
    exact ⟨⟨hsource, hsink⟩, hcopy, hclose⟩
  · rintro ⟨⟨hsource, hsink⟩, hcopy, hclose⟩
    rw [stateAfter_bind hsource] at hcopy hclose
    refine ⟨hsource, ⟨hsink, hcopy⟩, ?_⟩
    rw [stateAfter_bind hsink]
    exact hclose

theorem written_copy (h : okio.Documented) (hopen : Returns okio.openSink w) :
    okio.written (stateAfter (copy okio) w) = okio.written
      (stateAfter (use okio.writeAll okio.closeSink) (stateAfter okio.openSink w)) := by
  obtain ⟨hsource, hsink⟩ := (returns_bind_iff _ _ w).mp hopen
  rw [copy, stateAfter_bind hsource, stateAfter_use, h.closeSource_written, stateAfter_bind hsink,
    Okio.openSink, stateAfter_bind hsource]

theorem written_copy_unopened (h : okio.Documented) (hopen : ¬ Returns okio.openSink w) :
    okio.written (stateAfter (copy okio) w) = okio.written w := by
  rw [← written_openSink h hopen]
  by_cases hsource : Returns okio.source w
  · have hsink := sink_throws_of_unopened hopen hsource
    rw [copy, stateAfter_bind hsource, stateAfter_use, h.closeSource_written,
      stateAfter_bind_of_throws hsink, Okio.openSink, stateAfter_bind hsource]
  · rw [copy, stateAfter_bind_of_throws hsource, Okio.openSink, stateAfter_bind_of_throws hsource]

/-- A copy that throws without the whole body in the file. -/
theorem fallsShort_iff (h : okio.Documented) (hw : okio.written w = none) : okio.FallsShort w ↔
    ¬ Returns (copy okio) w ∧
      okio.written (stateAfter (copy okio) w) ≠ some (okio.unread w) := by
  rw [Okio.FallsShort, returns_copy_iff]
  by_cases hopen : Returns okio.openSink w
  · rw [written_copy h hopen, or_iff_right (not_not_intro hopen), and_iff_right hopen]
    constructor
    · rintro ⟨hcopy, hshort⟩
      exact ⟨fun hreturns => hcopy hreturns.1, hshort⟩
    · rintro ⟨_, hshort⟩
      exact ⟨fun hcopy => hshort (written_of_returns h hopen hcopy), hshort⟩
  · rw [written_copy_unopened h hopen, hw]
    simp [hopen]

end Copy

/-! ### The callbacks -/

section Callbacks

variable {okio : Okio W} {client : Client} {env : Environment okio}

theorem onResponse_of_throws (s : State W) (hasBody : Bool) :
    onResponse okio false hasBody s = .error {} s := by
  have hthrows : (succeed false : Action (State W) Unit) s = .error {} s := rfl
  rw [onResponse, bind_of_throws hthrows]

theorem onResponse_of_creates (s : State W) (hasBody : Bool) : onResponse okio true hasBody s =
    tryCatch (if hasBody then onWorld (copy okio) else call .onDownloadFailed)
      (fun _ => call .onDownloadFailed) s := by
  have hreturns : Returns (succeed true : Action (State W) Unit) s := rfl
  rw [onResponse, bind_of_returns hreturns]
  rfl

theorem onResponse_of_returns {s : State W} (h : Returns (copy okio) s.world) :
    onResponse okio true true s = .ok () { s with world := stateAfter (copy okio) s.world } := by
  have hworld : onWorld (copy okio) s =
      .ok () { s with world := stateAfter (copy okio) s.world } := by
    rw [onWorld, h]
  rw [onResponse_of_creates, if_pos rfl]
  change EStateM.tryCatch (onWorld (copy okio)) _ s = _
  rw [EStateM.tryCatch, hworld]

theorem onResponse_of_copy_throws {s : State W} (h : ¬ Returns (copy okio) s.world) :
    onResponse okio true true s = call .onDownloadFailed
      { s with world := stateAfter (copy okio) s.world } := by
  obtain hreturns | ⟨e, hthrows⟩ := returns_or_throws (copy okio) s.world
  · exact absurd hreturns h
  · have hworld : onWorld (copy okio) s =
        .error e { s with world := stateAfter (copy okio) s.world } := by
      rw [onWorld, hthrows]
    rw [onResponse_of_creates, if_pos rfl]
    change EStateM.tryCatch (onWorld (copy okio)) _ s = _
    rw [EStateM.tryCatch, hworld]
    rfl

theorem download_of_failure (hf : env.completion = .failure) :
    download okio client env = ⟨env.world, [.onDownloadFailed]⟩ := by
  rw [download, hf]
  rfl

theorem download_of_throws {hasBody : Bool} (hclient : client.SignalsOnce)
    (hc : env.creates = false) (hr : env.completion = .response hasBody) :
    download okio client env = ⟨env.world, []⟩ := by
  rw [download, hr, hc, complete, onResponse_of_throws, hclient]
  rfl

theorem download_of_none (hc : env.creates = true) (hr : env.completion = .response false) :
    download okio client env = ⟨env.world, [.onDownloadFailed]⟩ := by
  rw [download, hr, hc, complete, onResponse_of_creates]
  rfl

theorem download_of_returns (hc : env.creates = true) (hr : env.completion = .response true)
    (hcopy : Returns (copy okio) env.world) :
    download okio client env = ⟨stateAfter (copy okio) env.world, []⟩ := by
  rw [download, hr, hc, complete, onResponse_of_returns hcopy]

theorem download_of_copy_throws (hc : env.creates = true) (hr : env.completion = .response true)
    (hcopy : ¬ Returns (copy okio) env.world) : download okio client env =
      ⟨stateAfter (copy okio) env.world, [.onDownloadFailed]⟩ := by
  rw [download, hr, hc, complete, onResponse_of_copy_throws hcopy]
  rfl

theorem reportsOnce_of_failed (h : (download okio client env).callbacks = [.onDownloadFailed]) :
    ReportsOnce okio client env ↔ ¬ Written env (download okio client env) := by
  have hone : ([Callback.onDownloadFailed].filter Callback.terminal).length = 1 := rfl
  have hno : Callback.onDownloadSuccess ∉ [Callback.onDownloadFailed] := by decide
  rw [ReportsOnce, h, hone, and_iff_right rfl, iff_false_left hno]

theorem not_reportsOnce_of_silent (h : (download okio client env).callbacks = []) :
    ¬ ReportsOnce okio client env := by
  rintro ⟨hone, _⟩
  rw [h] at hone
  cases hone

end Callbacks

/-! ### A body of less than one segment -/

/-- The bytes and what happens to them: such a body stays in the buffer until the sink is closed. -/
structure Medium where
  body : List UInt8
  -- after these bytes the body ends, or the next read throws
  ends : Bool
  opens : Bool
  -- how many bytes the file takes before the write throws
  full : Option ℕ
  buffer : List UInt8
  file : Option (List UInt8)

def smallOkio : Okio Medium where
  source := pure ()
  sink m := if m.opens then .ok () { m with file := some [], buffer := [] } else .error {} m
  writeAll m :=
    if m.ends then .ok () { m with buffer := m.buffer ++ m.body, body := [] }
    else .error {} { m with buffer := m.buffer ++ m.body, body := [] }
  closeSink m :=
    match m.full with
    | none => .ok () { m with file := m.file.map (· ++ m.buffer), buffer := [] }
    | some k =>
      if m.buffer = [] then .ok () m
      else .error {} { m with file := m.file.map (· ++ m.buffer.take k) }
  closeSource := pure ()
  unread := Medium.body
  buffered := Medium.buffer
  written := Medium.file

theorem smallOkio_documented : smallOkio.Documented where
  source_unread _ _ := rfl
  source_written _ := rfl
  sink_opens m h := by
    change (if m.opens then _ else _) = _ at h
    cases hopens : m.opens with
    | false => simp [hopens] at h
    | true => simp [stateAfter, smallOkio, hopens]
  sink_throws m h := by
    cases hopens : m.opens with
    | false => simp [stateAfter, smallOkio, hopens]
    | true =>
      apply absurd _ h
      simp [Returns, stateAfter, smallOkio, hopens]
  writeAll_appends m f hf h := by
    change (if m.ends then _ else _) = _ at h
    cases hends : m.ends with
    | false => simp [hends] at h
    | true =>
      refine ⟨f, ?_, ?_⟩
      · simpa [stateAfter, smallOkio, hends] using hf
      · simp [stateAfter, smallOkio, hends]
  closeSink_pushes m f hf h := by
    have hfile : m.file = some f := hf
    change (match m.full with | none => _ | some k => _) = _ at h
    cases hfull : m.full with
    | none => simp [stateAfter, smallOkio, hfull, hfile]
    | some k =>
      by_cases hbuffer : m.buffer = []
      · simp [stateAfter, smallOkio, hfull, hbuffer, hfile]
      · simp [hfull, hbuffer] at h
  closeSource_written _ := rfl

/-- OkHttp only logs what `onResponse` throws. -/
def okHttp : Client :=
  ⟨[]⟩

theorem unopened_medium (full : Option ℕ) :
    smallOkio.written ⟨[80, 75], true, true, full, [], none⟩ = none :=
  rfl

def arrives (full : Option ℕ) : Environment smallOkio where
  world := ⟨[80, 75], true, true, full, [], none⟩
  unopened := unopened_medium full
  creates := true
  completion := .response true

end Download

end EnvironmentCheck
