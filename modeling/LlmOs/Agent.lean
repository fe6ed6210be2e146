import LlmOs.ContextEviction
import LlmOs.ToolMemory

set_option autoImplicit false

/-!
# The agent runtime

`agent/mod.rs`: the agent, its boot and its command parser. A session is the
agent together with the calls that its code made to `push_message`, each with
the window that the call left. The log is an observation only: nothing that the
agent computes depends on it.
-/
namespace LlmOs.AgentRuntime
open RustText RustInt Context Tools

structure Agent where
  context : ContextWindow
  toolRegistry : ToolRegistry

/-- What the runtime takes from the build and from `core`: how the calculator's
operators were compiled, and the text of the percentage in the status line. -/
structure Platform where
  arith : Arith
  percent : ℕ → ℕ → Str

structure Pushed where
  role : Role
  content : Str
  window : ContextWindow

structure Session where
  agent : Agent
  pushed : List Pushed

def Agent.new : Agent := ⟨ContextWindow.new 4096, ToolRegistry.new⟩

def systemPrompt : Str :=
  "You are an AI agent running as the sole process on a bare-metal ".toList ++
  "x86_64 operating system. You have access to tools for calculation, ".toList ++
  "memory storage, and memory recall. Process user input and respond ".toList ++
  "helpfully.".toList

def helpText : Str :=
  "Available commands:\n".toList ++
  "/tool <name> <args>  — invoke a tool\n".toList ++
  "/context             — show context window status\n".toList ++
  "/help                — show this help\n".toList ++
  "(anything else)      — echoed back (LLM inference not yet connected)".toList

namespace Session

def push (s : Session) (role : Role) (content : Str) : Session :=
  let w := s.agent.context.pushMessage role content
  { agent := { s.agent with context := w }, pushed := s.pushed ++ [⟨role, content, w⟩] }

def withRegistry (s : Session) (r : ToolRegistry) : Session :=
  { s with agent := { s.agent with toolRegistry := r } }

def boot (s : Session) : Session :=
  let s := s.push .system systemPrompt
  let r := s.agent.toolRegistry.register .calculator
  let r := r.register .memoryStore
  let r := r.register .memoryRecall
  let r := r.register .echo
  s.withRegistry r

def handleToolCall (p : Platform) (s : Session) (input : Str) : Option Str × Session :=
  let parts := splitn ' ' 2 input
  let toolName := parts[0]?.getD []
  let toolArgs := parts[1]?.getD []
  match s.agent.toolRegistry.execute p.arith toolName toolArgs with
  | (.ok result, r) => (some result, (s.withRegistry r).push .tool result)
  | (.err e, r) => (some ("Tool error: ".toList ++ e), s.withRegistry r)
  | (.panic, r) => (none, s.withRegistry r)

/-- The response that `process_input` computes once the input is in the window. -/
def respond (p : Platform) (s : Session) (input : Str) : Option Str × Session :=
  if startsWith input "/tool ".toList then s.handleToolCall p (input.drop 6)
  else if startsWith input "/context".toList then (some (s.agent.context.status p.percent), s)
  else if startsWith input "/help".toList then (some helpText, s)
  else (some ("[echo] ".toList ++ input), s)

/-- One call of `process_input`; no response means that the calculator panicked. -/
def processInput (p : Platform) (s : Session) (input : Str) : Option Str × Session :=
  match (s.push .user input).respond p input with
  | (some response, s) => (some response, s.push .assistant response)
  | (none, s) => (none, s)

def processAll (p : Platform) : Session → List Str → Session
  | s, [] => s
  | s, input :: inputs =>
    match s.processInput p input with
    | (some _, s') => processAll p s' inputs
    | (none, s') => s'

end Session

def booted : Session := Session.boot ⟨Agent.new, []⟩

def Session.toolResult (p : Platform) (s : Session) (input : Str) : Option Str :=
  if startsWith input "/tool ".toList then
    let parts := splitn ' ' 2 (input.drop 6)
    (s.agent.toolRegistry.execute p.arith (parts[0]?.getD []) (parts[1]?.getD [])).1.result?
  else none

structure Turn where
  input : Str
  toolResult : Option Str
  response : Str

/-- A conversation that has returned from every call so far. -/
inductive Conversation (p : Platform) : List Turn → Session → Prop where
  | start : Conversation p [] booted
  | turn {turns : List Turn} {s s' : Session} {input response : Str}
      (h : Conversation p turns s) (returns : s.processInput p input = (some response, s')) :
      Conversation p (turns ++ [⟨input, s.toolResult p input, response⟩]) s'

/-- The input names a tool and hands it an argument, empty if there is none. -/
def CallsTool (input name args : Str) : Prop :=
  ' ' ∉ name ∧ (input = "/tool ".toList ++ (name ++ ' ' :: args) ∨
    (input = "/tool ".toList ++ name ∧ args = []))

theorem callsTool_of_startsWith {input : Str} (h : startsWith input "/tool ".toList = true) :
    ∃ name args, CallsTool input name args := by
  obtain ⟨rest, rfl⟩ := (startsWith_iff _ _).1 h
  rcases cut_or_whole ' ' rest with ⟨name, args, rfl, hn⟩ | hw
  · exact ⟨name, args, hn, Or.inl rfl⟩
  · exact ⟨rest, [], hw, Or.inr ⟨rfl, rfl⟩⟩

theorem CallsTool.startsWith {input name args : Str} (h : CallsTool input name args) :
    startsWith input "/tool ".toList = true := by
  rcases h.2 with rfl | ⟨rfl, _⟩ <;> exact startsWith_append _ _

theorem CallsTool.parts {input name args : Str} (h : CallsTool input name args) :
    (splitn ' ' 2 (input.drop 6))[0]?.getD [] = name ∧
      (splitn ' ' 2 (input.drop 6))[1]?.getD [] = args := by
  obtain ⟨hn, rfl | ⟨rfl, rfl⟩⟩ := h
  · have hd : ("/tool ".toList ++ (name ++ ' ' :: args)).drop 6 = name ++ ' ' :: args := by
      exact List.drop_left' rfl
    rw [hd, splitn_two_cut args hn]
    exact ⟨rfl, rfl⟩
  · have hd : ("/tool ".toList ++ name).drop 6 = name := List.drop_left' rfl
    rw [hd, splitn_two_whole hn]
    exact ⟨rfl, rfl⟩

theorem CallsTool.len_le {input name args : Str} (h : CallsTool input name args) :
    len name + len args + 6 ≤ len input := by
  have htool : len "/tool ".toList = 6 := by decide
  rcases h.2 with rfl | ⟨rfl, rfl⟩
  · simp only [len_append, len_cons, htool]
    omega
  · simp only [len_append, htool, len_nil]
    omega

/-- The responses that no tool has a part in; `w` is the window with the input in it. -/
def plainResponse (p : Platform) (w : ContextWindow) (input : Str) : Str :=
  if startsWith input "/context".toList then w.status p.percent
  else if startsWith input "/help".toList then helpText
  else "[echo] ".toList ++ input

/-- Everything that one call of `process_input` can do. -/
inductive Effect (p : Platform) (s : Session) (input : Str) : Option Str → Session → Prop where
  | plain (hplain : startsWith input "/tool ".toList = false) :
      Effect p s input (some (plainResponse p (s.push .user input).agent.context input))
        ((s.push .user input).push .assistant
          (plainResponse p (s.push .user input).agent.context input))
  | toolOk {name args result : Str} {r : ToolRegistry} (hcall : CallsTool input name args)
      (hexec : s.agent.toolRegistry.execute p.arith name args = (.ok result, r)) :
      Effect p s input (some result)
        ((((s.push .user input).withRegistry r).push .tool result).push .assistant result)
  | toolErr {name args e : Str} {r : ToolRegistry} (hcall : CallsTool input name args)
      (hexec : s.agent.toolRegistry.execute p.arith name args = (.err e, r)) :
      Effect p s input (some ("Tool error: ".toList ++ e))
        (((s.push .user input).withRegistry r).push .assistant ("Tool error: ".toList ++ e))
  | toolPanic {name args : Str} {r : ToolRegistry} (hcall : CallsTool input name args)
      (hexec : s.agent.toolRegistry.execute p.arith name args = (.panic, r)) :
      Effect p s input none ((s.push .user input).withRegistry r)

theorem respond_plain (p : Platform) (s : Session) {input : Str}
    (h : startsWith input "/tool ".toList = false) :
    s.respond p input = (some (plainResponse p s.agent.context input), s) := by
  unfold Session.respond plainResponse
  rw [h]
  simp only [Bool.false_eq_true, ↓reduceIte]
  split_ifs <;> rfl

theorem respond_tool (p : Platform) (s : Session) {input name args : Str}
    (h : CallsTool input name args) :
    s.respond p input =
      match s.agent.toolRegistry.execute p.arith name args with
      | (.ok result, r) => (some result, (s.withRegistry r).push .tool result)
      | (.err e, r) => (some ("Tool error: ".toList ++ e), s.withRegistry r)
      | (.panic, r) => (none, s.withRegistry r) := by
  unfold Session.respond Session.handleToolCall
  rw [if_pos h.startsWith]
  simp only [h.parts.1, h.parts.2]

theorem processInput_effect (p : Platform) (s : Session) (input : Str) :
    Effect p s input (s.processInput p input).1 (s.processInput p input).2 := by
  unfold Session.processInput
  cases htool : startsWith input "/tool ".toList with
  | false =>
    rw [respond_plain p _ htool]
    exact .plain htool
  | true =>
    obtain ⟨name, args, hcall⟩ := callsTool_of_startsWith htool
    rw [respond_tool p _ hcall]
    cases hexec : s.agent.toolRegistry.execute p.arith name args with
    | mk outcome r =>
      have hexec' : (s.push .user input).agent.toolRegistry.execute p.arith name args =
          (outcome, r) := hexec
      rw [hexec']
      cases outcome with
      | ok result => exact .toolOk hcall hexec
      | err e => exact .toolErr hcall hexec
      | panic => exact .toolPanic hcall hexec

theorem effect_of_processInput {p : Platform} {s s' : Session} {input : Str}
    {response : Option Str} (h : s.processInput p input = (response, s')) :
    Effect p s input response s' := by
  have heffect := processInput_effect p s input
  rw [h] at heffect
  exact heffect

end LlmOs.AgentRuntime
