import EnvironmentCheck.Library.Transition

namespace EnvironmentCheck

/-- What a call of `post` or `run` adds. The one of `run` releases the semaphore of its caller. -/
structure Runnable where
  call : ℕ
  semaphore : Bool
  deriving DecidableEq, Repr

/-- Where `m_qtThread` stands. It is `woken` between the end of its wait and the monitor. -/
inductive LoopPoint where
  | test
  | entering
  | waiting
  | woken
  | running (runnables : List Runnable)
  | inside (runnable : Runnable) (runnables : List Runnable)
  | releasing (call : ℕ) (runnables : List Runnable)
  | ended
  deriving DecidableEq, Repr

inductive ExitPoint where
  | notCalled
  | called
  | set
  | joining
  | returned
  deriving DecidableEq, Repr

inductive ClientPoint where
  | posting
  | running
  | acquiring (permits : ℕ)
  | returned
  deriving DecidableEq, Repr

/-- Calls of `post` and `run` by the order in which they begin. Besides the state of the program: the
calls whose runnables have been added, started and executed, and those added before `exit()` was
called. -/
structure QtThread where
  pendingRunnables : List Runnable
  exit : Bool
  qtThread : LoopPoint
  exitCall : ExitPoint
  clients : List ClientPoint
  added : List ℕ
  started : List ℕ
  executed : List ℕ
  promised : List ℕ
  deriving DecidableEq, Repr

inductive QtThreadStep where
  | callPost
  | callRun
  | add (call : ℕ) (toJoin : Bool)
  | acquire (call : ℕ)
  | callExit
  | setExit
  | notifyExit
  | joined
  | loop
  | wake
  deriving DecidableEq, Repr

namespace LoopPoint

def notify : LoopPoint → LoopPoint
  | .waiting => .woken
  | p => p

/-- The runnables copied from the pending list and not yet started. -/
def batch : LoopPoint → List Runnable
  | .running runnables | .inside _ runnables | .releasing _ runnables => runnables
  | _ => []

def current : LoopPoint → Option ℕ
  | .inside runnable _ => some runnable.call
  | _ => none

/-- The runnables of the thread whose semaphores it has not released. -/
def unreleased : LoopPoint → List Runnable
  | .running runnables => runnables
  | .inside runnable runnables => runnable :: runnables
  | .releasing call runnables => ⟨call, true⟩ :: runnables
  | _ => []

end LoopPoint

namespace ClientPoint

def release : ClientPoint → ClientPoint
  | .acquiring permits => .acquiring (permits + 1)
  | c => c

def hasAdded : ClientPoint → Bool
  | .posting | .running => false
  | _ => true

end ClientPoint

namespace QtThread

def create : QtThread := ⟨[], false, .test, .notCalled, [], [], [], [], []⟩

/-- The block of `post` and `run`. `join` may wait on the same monitor, and the notification then go
to it. -/
def add (s : QtThread) (runnable : Runnable) (client : ClientPoint) (toJoin : Bool) : QtThread :=
  { s with
    pendingRunnables := s.pendingRunnables ++ [runnable]
    clients := s.clients.set runnable.call client
    added := s.added ++ [runnable.call]
    qtThread := if toJoin then s.qtThread else s.qtThread.notify }

/-- The rest of the loop's block, with the monitor. -/
def takeBatch (s : QtThread) : QtThread :=
  { s with qtThread := .running s.pendingRunnables, pendingRunnables := [] }

def resume (s : QtThread) : LoopPoint → Option QtThread
  | .test => some { s with qtThread := if s.exit then .ended else .entering }
  | .entering =>
    some (if s.pendingRunnables = [] then { s with qtThread := .waiting } else s.takeBatch)
  | .waiting => none
  | .woken => some s.takeBatch
  | .running [] => some { s with qtThread := .test }
  | .running (runnable :: runnables) =>
    some { s with
      qtThread := .inside runnable runnables
      started := s.started ++ [runnable.call] }
  | .inside runnable runnables =>
    some { s with
      qtThread :=
        if runnable.semaphore then .releasing runnable.call runnables else .running runnables
      executed := s.executed ++ [runnable.call] }
  | .releasing call runnables =>
    some { s with
      qtThread := .running runnables
      clients := s.clients.modify call ClientPoint.release }
  | .ended => none

def next (s : QtThread) : QtThreadStep → Option QtThread
  | .callPost => some { s with clients := s.clients ++ [.posting] }
  | .callRun => some { s with clients := s.clients ++ [.running] }
  | .add call toJoin =>
    if toJoin = true → s.exitCall = .joining then
      s.clients[call]?.bind fun
        | .posting => some (s.add ⟨call, false⟩ .returned toJoin)
        | .running => some (s.add ⟨call, true⟩ (.acquiring 0) toJoin)
        | _ => none
    else none
  | .acquire call =>
    s.clients[call]?.bind fun
      | .acquiring (_ + 1) => some { s with clients := s.clients.set call .returned }
      | _ => none
  | .callExit =>
    if s.exitCall = .notCalled then some { s with exitCall := .called, promised := s.added } else none
  | .setExit => if s.exitCall = .called then some { s with exitCall := .set, exit := true } else none
  | .notifyExit =>
    if s.exitCall = .set then
      some { s with exitCall := .joining, qtThread := s.qtThread.notify }
    else none
  | .joined =>
    if s.exitCall = .joining ∧ s.qtThread = .ended then some { s with exitCall := .returned } else none
  | .loop => s.resume s.qtThread
  | .wake => if s.qtThread = .waiting then some { s with qtThread := .woken } else none

end QtThread

end EnvironmentCheck
