import LlmOs.AgentMemory
import LlmOs.AgentTranscript
import LlmOs.CalculatorGrammar
import LlmOs.ToolText

set_option autoImplicit false

/-!
# What a tool call leaves in the window

The runtime documentation has every tool call push its result, or its error, as a
tool message. The code pushes the result only: the branch of `handle_tool_call`
for an error returns its text and records nothing. Which calls are recorded as
documented is decided by the inputs alone.
-/
namespace LlmOs.AgentRuntime
open RustText RustInt Context Tools

def Pushed.call (q : Pushed) : Push := (q.role, q.content)

/-- The result of the call that an input makes, or its error text. -/
def Session.toolText (p : Platform) (s : Session) (input : Str) : Str :=
  let parts := splitn ' ' 2 (input.drop 6)
  (s.agent.toolRegistry.execute p.arith (parts[0]?.getD []) (parts[1]?.getD [])).1.text

/-- The turn returns and performs the pushes that the documentation describes. -/
def Recorded (p : Platform) (s : Session) (input : Str) : Prop :=
  ∃ response s', s.processInput p input = (some response, s') ∧
    s'.pushed.map Pushed.call = s.pushed.map Pushed.call ++
      if startsWith input "/tool ".toList then
        [(.user, input), (.tool, s.toolText p input), (.assistant, response)]
      else [(.user, input), (.assistant, response)]

/-- The arguments that a tool answers; `earlier` are the inputs before the call. -/
def Answers (earlier : List Str) (args : Str) : BuiltinTool → Prop
  | .calculator => ∃ a op b, Expression args a op b
  | .memoryStore => ' ' ∈ args
  | .memoryRecall => lastStored (trim args) earlier ≠ none
  | .echo => True

/-- If the input is a tool call, it names a tool that answers it. -/
def CallAnswered (earlier : List Str) (input : Str) : Prop :=
  ∀ name args, CallsTool input name args →
    ∃ tool : BuiltinTool, name = tool.name ∧ Answers earlier args tool

def Turn.documentedPushes (t : Turn) : List Push :=
  if startsWith t.input "/tool ".toList then
    [(.user, t.input), (.tool, t.response), (.assistant, t.response)]
  else [(.user, t.input), (.assistant, t.response)]

theorem toolText_call (p : Platform) (s : Session) {input name args : Str}
    (h : CallsTool input name args) :
    s.toolText p input = (s.agent.toolRegistry.execute p.arith name args).1.text := by
  unfold Session.toolText
  simp only [h.parts.1, h.parts.2]

theorem push_calls (s : Session) (role : Role) (content : Str) :
    (s.push role content).pushed.map Pushed.call =
      s.pushed.map Pushed.call ++ [(role, content)] := by
  simp [Session.push, Pushed.call]

theorem withRegistry_pushed (s : Session) (r : ToolRegistry) :
    (s.withRegistry r).pushed = s.pushed := rfl

/-- The pushes of a turn, as the code performs them. -/
theorem Effect.calls {p : Platform} {s s' : Session} {input response : Str}
    (h : Effect p s input (some response) s') :
    s'.pushed.map Pushed.call = s.pushed.map Pushed.call ++
      Turn.pushes ⟨input, s.toolResult p input, response⟩ := by
  cases h with
  | plain hplain =>
    rw [toolResult_plain p s hplain, push_calls, push_calls, List.append_assoc]
    rfl
  | toolOk hcall hexec =>
    rw [toolResult_call p s hcall, hexec, push_calls, push_calls, withRegistry_pushed, push_calls,
      List.append_assoc, List.append_assoc]
    rfl
  | toolErr hcall hexec =>
    rw [toolResult_call p s hcall, hexec, push_calls, withRegistry_pushed, push_calls,
      List.append_assoc]
    rfl

section
variable {arith : Arith} {r : ToolRegistry} {earlier : List Str}

theorem execMemoryStore_ok_iff (r : ToolRegistry) (args : Str) :
    (∃ result, (r.execMemoryStore args).1 = .ok result) ↔ ' ' ∈ args := by
  rcases cut_or_whole ' ' args with ⟨key, value, rfl, hkey⟩ | hwhole
  · rw [ToolRegistry.execMemoryStore_cut r value hkey]
    simp
  · rw [ToolRegistry.execMemoryStore_whole r hwhole]
    simp [hwhole]

theorem execMemoryRecall_ok_iff
    (hmemory : ∀ k, r.memory[k]? = lastStored k earlier) (args : Str) :
    (∃ result, r.execMemoryRecall args = .ok result) ↔ lastStored (trim args) earlier ≠ none := by
  rw [← hmemory, ToolRegistry.execMemoryRecall]
  cases r.memory[trim args]? with
  | none => simp
  | some v => simp

theorem execCalculator_ok_iff {args : Str} (hreturns : execCalculator arith args ≠ .panic) :
    (∃ result, execCalculator arith args = .ok result) ↔ ∃ a op b, Expression args a op b := by
  constructor
  · rintro ⟨line, hline⟩
    exact expression_of_ok hline
  · rintro ⟨a, op, b, h⟩
    cases hout : execCalculator arith args with
    | ok line => exact ⟨line, rfl⟩
    | err message => exact absurd hout (h.not_err arith message)
    | panic => exact absurd hout hreturns

/-- A call that returns is answered exactly when the inputs say so. -/
theorem execute_ok_iff (htools : r.tools = ToolRegistry.builtin.tools)
    (hmemory : ∀ k, r.memory[k]? = lastStored k earlier) {name args : Str}
    (hreturns : (r.execute arith name args).1 ≠ .panic) :
    (∃ result, (r.execute arith name args).1 = .ok result) ↔
      ∃ tool : BuiltinTool, name = tool.name ∧ Answers earlier args tool := by
  have hcomplete := ToolRegistry.complete_of_tools htools
  unfold ToolRegistry.execute at hreturns ⊢
  cases htool : r.tools[name]? with
  | none =>
    simp only [reduceCtorEq, exists_false, false_iff]
    rintro ⟨tool, rfl, _⟩
    rw [hcomplete tool] at htool
    cases htool
  | some tool =>
    have hname : name = tool.name := builtin_tool (htools ▸ htool)
    have hunique : (∃ tool' : BuiltinTool, name = tool'.name ∧ Answers earlier args tool') ↔
        Answers earlier args tool := by
      constructor
      · rintro ⟨tool', rfl, hanswers⟩
        rw [hcomplete tool', Option.some.injEq] at htool
        exact htool ▸ hanswers
      · intro hanswers
        exact ⟨tool, hname, hanswers⟩
    rw [htool] at hreturns
    rw [hunique]
    cases tool with
    | calculator => exact execCalculator_ok_iff hreturns
    | memoryStore => exact execMemoryStore_ok_iff r args
    | memoryRecall => exact execMemoryRecall_ok_iff hmemory args
    | echo => exact ⟨fun _ => trivial, fun _ => ⟨_, rfl⟩⟩

end

section
variable {p : Platform} {s s' : Session} {input response : Str}

/-- A call that returns has a result, which is the response, or an error. -/
theorem Effect.of_call {name args : Str} (h : Effect p s input (some response) s')
    (hcall : CallsTool input name args) :
    (s.agent.toolRegistry.execute p.arith name args).1 = .ok response ∨
      ∃ e, (s.agent.toolRegistry.execute p.arith name args).1 = .err e := by
  cases h with
  | plain hplain =>
    rw [hcall.startsWith] at hplain
    cases hplain
  | toolOk hcall' hexec =>
    obtain ⟨rfl, rfl⟩ := hcall.unique hcall'
    exact Or.inl (by rw [hexec])
  | toolErr hcall' hexec =>
    obtain ⟨rfl, rfl⟩ := hcall.unique hcall'
    exact Or.inr ⟨_, by rw [hexec]⟩

theorem Effect.returns {name args : Str} (h : Effect p s input (some response) s')
    (hcall : CallsTool input name args) :
    (s.agent.toolRegistry.execute p.arith name args).1 ≠ .panic := by
  rcases h.of_call hcall with hok | ⟨e, herr⟩
  · rw [hok]
    simp
  · rw [herr]
    simp

theorem Effect.ok_response {name args result : Str} (h : Effect p s input (some response) s')
    (hcall : CallsTool input name args)
    (hresult : (s.agent.toolRegistry.execute p.arith name args).1 = .ok result) :
    (s.agent.toolRegistry.execute p.arith name args).1 = .ok response := by
  rcases h.of_call hcall with hok | ⟨e, herr⟩
  · exact hok
  · rw [herr] at hresult
    cases hresult

/-- The documented pushes are the performed ones if every call has a result. -/
theorem Effect.documented (h : Effect p s input (some response) s')
    (hok : ∀ name args, CallsTool input name args →
      ∃ result, (s.agent.toolRegistry.execute p.arith name args).1 = .ok result) :
    Turn.pushes ⟨input, s.toolResult p input, response⟩ =
      Turn.documentedPushes ⟨input, s.toolResult p input, response⟩ := by
  unfold Turn.documentedPushes
  cases h with
  | plain hplain =>
    rw [toolResult_plain p s hplain]
    simp only [hplain]
    rfl
  | toolOk hcall hexec =>
    rw [toolResult_call p s hcall, hexec]
    simp only [hcall.startsWith]
    rfl
  | toolErr hcall hexec =>
    obtain ⟨result, hresult⟩ := hok _ _ hcall
    rw [hexec] at hresult
    cases hresult

theorem recorded_iff_ok (hrun : s.processInput p input = (some response, s')) :
    Recorded p s input ↔ ∀ name args, CallsTool input name args →
      ∃ result, (s.agent.toolRegistry.execute p.arith name args).1 = .ok result := by
  have heffect := effect_of_processInput hrun
  have hcalls := heffect.calls
  constructor
  · rintro ⟨response', s'', hrun', hpushed⟩ name args hcall
    rw [hrun] at hrun'
    cases hrun'
    rw [hcalls, if_pos hcall.startsWith, toolResult_call p s hcall] at hpushed
    have hlist := List.append_cancel_left hpushed
    cases hout : (s.agent.toolRegistry.execute p.arith name args).1 with
    | ok result => exact ⟨result, rfl⟩
    | err message =>
      rw [hout] at hlist
      simp [Turn.pushes, Outcome.result?] at hlist
    | panic => exact absurd hout (heffect.returns hcall)
  · intro hok
    refine ⟨response, s', hrun, ?_⟩
    rw [hcalls, heffect.documented hok]
    unfold Turn.documentedPushes
    cases htool : startsWith input "/tool ".toList with
    | false => rfl
    | true =>
      obtain ⟨name, args, hcall⟩ := callsTool_of_startsWith htool
      obtain ⟨result, hresult⟩ := hok name args hcall
      rw [toolText_call p s hcall, heffect.ok_response hcall hresult]
      rfl

end

section
variable {p : Platform} {turns : List Turn} {s : Session}

theorem Conversation.ok_iff_answered (h : Conversation p turns s) {input response : Str}
    {s' : Session} (hrun : s.processInput p input = (some response, s')) :
    (∀ name args, CallsTool input name args →
      ∃ result, (s.agent.toolRegistry.execute p.arith name args).1 = .ok result) ↔
        CallAnswered (turns.map Turn.input) input := by
  have heffect := effect_of_processInput hrun
  have hiff : ∀ name args, CallsTool input name args →
      ((∃ result, (s.agent.toolRegistry.execute p.arith name args).1 = .ok result) ↔
        ∃ tool : BuiltinTool, name = tool.name ∧ Answers (turns.map Turn.input) args tool) :=
    fun _ _ hcall => execute_ok_iff h.tools h.memory (heffect.returns hcall)
  constructor
  · intro hok name args hcall
    exact (hiff name args hcall).1 (hok name args hcall)
  · intro hanswered name args hcall
    exact (hiff name args hcall).2 (hanswered name args hcall)

theorem booted_calls : booted.pushed.map Pushed.call = [(.system, systemPrompt)] := rfl

/-- In a run whose calls are all answered, the pushes are the documented ones. -/
theorem Conversation.calls_documented (h : Conversation p turns s)
    (hall : ∀ before t after, turns = before ++ t :: after →
      CallAnswered (before.map Turn.input) t.input) :
    s.pushed.map Pushed.call =
      (.system, systemPrompt) :: turns.flatMap Turn.documentedPushes := by
  induction h with
  | start => exact booted_calls
  | @turn turns s s' input response hconv returns ih =>
    have heffect := effect_of_processInput returns
    have hlast := (hconv.ok_iff_answered returns).2 (hall turns _ [] rfl)
    have hbefore := ih (fun before t after hturns =>
      hall before t (after ++ [⟨input, s.toolResult p input, response⟩]) (by rw [hturns]; simp))
    rw [heffect.calls, heffect.documented hlast, hbefore, List.flatMap_append]
    simp

/-- From every reachable agent a turn that returns is recorded as documented
exactly when its call is answered, and then so is every run of such turns. -/
theorem tool_turn_recorded_iff (h : Conversation p turns s) :
    (∀ input, (s.processInput p input).1 ≠ none →
      (Recorded p s input ↔ CallAnswered (turns.map Turn.input) input)) ∧
      ((∀ before t after, turns = before ++ t :: after →
          CallAnswered (before.map Turn.input) t.input) →
        s.pushed.map Pushed.call =
          (.system, systemPrompt) :: turns.flatMap Turn.documentedPushes) := by
  refine ⟨?_, h.calls_documented⟩
  intro input hreturns
  cases hrun : s.processInput p input with
  | mk out s' =>
    cases out with
    | none =>
      rw [hrun] at hreturns
      exact absurd rfl hreturns
    | some response => rw [recorded_iff_ok hrun, h.ok_iff_answered hrun]

end

theorem tool_turn_recorded_iff_echo :
    let p : Platform := ⟨.checked, fun _ _ => "1.3".toList⟩
    Conversation p [] booted ∧ (booted.processInput p "/tool echo hi".toList).1 ≠ none ∧
      CallAnswered [] "/tool echo hi".toList ∧ Recorded p booted "/tool echo hi".toList := by
  intro p
  have hcall : CallsTool "/tool echo hi".toList "echo".toList "hi".toList :=
    ⟨by decide, Or.inl (by decide)⟩
  have hanswered : CallAnswered [] "/tool echo hi".toList := by
    intro name args hother
    obtain ⟨rfl, rfl⟩ := hother.unique hcall
    exact ⟨.echo, rfl, trivial⟩
  have hreturns : (booted.processInput p "/tool echo hi".toList).1 ≠ none := by decide
  exact ⟨.start, hreturns, hanswered,
    ((tool_turn_recorded_iff .start).1 _ hreturns).2 hanswered⟩

/-- A division by zero is answered with an error that no tool message records. -/
theorem tool_error_not_recorded :
    let p : Platform := ⟨.checked, fun _ _ => "1.3".toList⟩
    let input := "/tool calc 1 / 0".toList
    let turn := booted.processInput p input
    Conversation p [] booted ∧ turn.1 = some "Tool error: Division by zero".toList ∧
      turn.2.pushed.map Pushed.call = [(.system, systemPrompt), (.user, input),
        (.assistant, "Tool error: Division by zero".toList)] ∧
      ¬ Recorded p booted input := by
  intro p input turn
  have hcalls : turn.2.pushed.map Pushed.call = [(.system, systemPrompt), (.user, input),
      (.assistant, "Tool error: Division by zero".toList)] := rfl
  refine ⟨.start, rfl, hcalls, ?_⟩
  rintro ⟨response, s', hrun, hpushed⟩
  have hs : turn.2 = s' := congrArg Prod.snd hrun
  rw [← hs, hcalls, booted_calls, if_pos (by decide)] at hpushed
  have hlength := congrArg List.length hpushed
  simp at hlength

end LlmOs.AgentRuntime
