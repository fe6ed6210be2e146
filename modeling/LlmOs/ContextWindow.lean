import LlmOs.RustText

set_option autoImplicit false

/-! The agent's working memory, `agent/context.rs`. The deque is a list with its
front first. Token sums count bytes of live strings and the eviction counter
counts past events; both are natural numbers here. The serial log of evictions
is not part of the state. -/
namespace LlmOs.Context
open RustText

inductive Role where
  | system
  | user
  | assistant
  | tool
  deriving DecidableEq, Repr

structure Message where
  role : Role
  content : Str
  tokenCount : ℕ
  deriving DecidableEq, Repr

structure ContextWindow where
  messages : List Message
  maxTokens : ℕ
  currentTokens : ℕ
  totalEvicted : ℕ
  deriving DecidableEq, Repr

/-- Rough token estimation: four bytes a token, and never zero. -/
def estimateTokens (text : Str) : ℕ :=
  let count := len text / 4
  if count = 0 then 1 else count

namespace ContextWindow

def new (maxTokens : ℕ) : ContextWindow := ⟨[], maxTokens, 0, 0⟩

/-- Remove the first message whose role is not `system`. Subtraction saturates. -/
def evictOldest (w : ContextWindow) : Option (Message × ContextWindow) := do
  let idx ← w.messages.findIdx? (fun m => m.role != .system)
  let msg ← w.messages[idx]?
  return (msg, { w with
    messages := w.messages.eraseIdx idx
    currentTokens := w.currentTokens - msg.tokenCount })

/-- The eviction loop. Every round but the last removes a message, so the length
of the deque is enough fuel; `makeRoom_eq` shows that it never runs out. -/
def makeRoomWithin (tokenCount : ℕ) : ℕ → ContextWindow → ContextWindow
  | 0, w => w
  | fuel + 1, w =>
    if w.currentTokens + tokenCount > w.maxTokens then
      match w.evictOldest with
      | some (_, w') => makeRoomWithin tokenCount fuel { w' with totalEvicted := w'.totalEvicted + 1 }
      | none => w
    else w

def makeRoom (tokenCount : ℕ) (w : ContextWindow) : ContextWindow :=
  makeRoomWithin tokenCount w.messages.length w

def pushMessage (w : ContextWindow) (role : Role) (content : Str) : ContextWindow :=
  let tokenCount := estimateTokens content
  let w := w.makeRoom tokenCount
  { w with
    currentTokens := w.currentTokens + tokenCount
    messages := w.messages ++ [⟨role, content, tokenCount⟩] }

def messageCount (w : ContextWindow) : ℕ := w.messages.length

/-- The status text. The floating-point percentage is supplied by `percent`. -/
def status (percent : ℕ → ℕ → Str) (w : ContextWindow) : Str :=
  "Context Window Status:\nTokens: ".toList ++ usizeText w.currentTokens ++ "/".toList ++
    usizeText w.maxTokens ++ " (".toList ++ percent w.currentTokens w.maxTokens ++
    "% full)\nMessages: ".toList ++ usizeText w.messages.length ++ "\nEvicted: ".toList ++
    usizeText w.totalEvicted

end ContextWindow
end LlmOs.Context
