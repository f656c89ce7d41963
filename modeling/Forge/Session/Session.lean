import Forge.Session.Conversation
import Mathlib.Algebra.Group.Nat.Defs

/-! # Session

  A single agent execution context (`session/session.h`). Times are ticks
  of the steady clock, which counts nanoseconds.
-/

namespace Forge

/-- Ticks of the steady clock in one `std::chrono::seconds`. -/
def ticksPerSecond : ℕ := 10 ^ 9

inductive SessionState where
  | created
  | waitingForLlm
  | executingTools
  | waitingForHuman
  | completed
  | failed
  | cancelled
  deriving DecidableEq

/-- The states `is_terminal` accepts. -/
def SessionState.terminal : SessionState → Bool
  | .completed | .failed | .cancelled => true
  | _ => false

structure SessionConfig where
  maxIterations : ℕ := 15
  maxHistory : ℕ := 100
  /-- `std::chrono::seconds`, which are signed; the server reads an
      `unsigned`, and no session is made with less than zero here. -/
  timeout : ℕ := 300
  deriving DecidableEq

structure Session where
  id : ℕ
  state : SessionState
  history : Conversation
  config : SessionConfig
  stepCount : ℕ
  deadline : ℕ
  createdAt : ℕ
  initialPrompt : String
  finalAnswer : String
  error : String
  cancelRequested : Bool
  deriving DecidableEq

namespace Session

/-- The constructor, at time `now`. -/
def new (id : ℕ) (cfg : SessionConfig) (now : ℕ) : Session where
  id := id
  state := .created
  history := .new cfg.maxHistory
  config := cfg
  stepCount := 0
  deadline := now + cfg.timeout * ticksPerSecond
  createdAt := now
  initialPrompt := ""
  finalAnswer := ""
  error := ""
  cancelRequested := false

def isTerminal (s : Session) : Bool := s.state.terminal

def isTimedOut (s : Session) (now : ℕ) : Bool := now > s.deadline

def exceededMaxIterations (s : Session) : Bool := s.stepCount ≥ s.config.maxIterations

/-- `step_count.fetch_add(1)` on 32 bits. -/
def countStep (s : Session) : Session := { s with stepCount := (s.stepCount + 1) % 2 ^ 32 }

/-- What a plan step or a sub-task is introduced with. -/
def subSystemMessage : Message where
  role := "system"
  content := "You are a helpful assistant with access to tools. Complete the following task."

/-- The session of one plan step or sub-task, at time `now`. -/
def newSub (parent : Session) (description : String) (now : ℕ) : Session :=
  let s := new 0 parent.config now
  let user : Message := { role := "user", content := description }
  { s with history := (s.history.push subSystemMessage).push user }

end Session

end Forge
