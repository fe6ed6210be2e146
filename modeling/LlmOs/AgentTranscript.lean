import LlmOs.Agent

set_option autoImplicit false

/-! The window as a function of the conversation. Every turn pushes the input,
the result of a successful tool call and the response, so the window of a
session is the window of its transcript. -/
namespace LlmOs.AgentRuntime
open RustText RustInt Context Tools RetainedSuffix

def Turn.pushes (t : Turn) : List Push :=
  (.user, t.input) :: (t.toolResult.toList.map (fun result => (.tool, result)) ++
    [(.assistant, t.response)])

def transcript (turns : List Turn) : List Push := turns.flatMap Turn.pushes

theorem transcript_concat (turns : List Turn) (t : Turn) :
    transcript (turns ++ [t]) = transcript turns ++ t.pushes := by
  simp [transcript]

theorem toolResult_plain (p : Platform) (s : Session) {input : Str}
    (h : startsWith input "/tool ".toList = false) : s.toolResult p input = none := by
  unfold Session.toolResult
  rw [h]
  rfl

theorem toolResult_call (p : Platform) (s : Session) {input name args : Str}
    (h : CallsTool input name args) :
    s.toolResult p input = (s.agent.toolRegistry.execute p.arith name args).1.result? := by
  unfold Session.toolResult
  rw [if_pos h.startsWith]
  simp only [h.parts.1, h.parts.2]

theorem Effect.context {p : Platform} {s s' : Session} {input response : Str}
    (h : Effect p s input (some response) s') :
    s'.agent.context =
      s.agent.context.pushAll (Turn.pushes ⟨input, s.toolResult p input, response⟩) := by
  cases h with
  | plain hplain =>
    rw [toolResult_plain p s hplain]
    rfl
  | toolOk hcall hexec =>
    rw [toolResult_call p s hcall, hexec]
    rfl
  | toolErr hcall hexec =>
    rw [toolResult_call p s hcall, hexec]
    rfl

theorem booted_context :
    booted.agent.context = (ContextWindow.new 4096).pushAll [(.system, systemPrompt)] := by
  simp only [booted, Session.boot, Session.push, Session.withRegistry, Agent.new,
    ContextWindow.pushAll, List.foldl_cons, List.foldl_nil]

theorem Conversation.context {p : Platform} {turns : List Turn} {s : Session}
    (h : Conversation p turns s) :
    s.agent.context =
      (ContextWindow.new 4096).pushAll ((.system, systemPrompt) :: transcript turns) := by
  induction h with
  | start => exact booted_context
  | @turn turns s _ input _ _ returns ih =>
    have heffect := effect_of_processInput returns
    rw [heffect.context, ih, transcript_concat, ← List.cons_append, ContextWindow.pushAll_append]

theorem pushes_not_system (t : Turn) : ∀ q ∈ t.pushes, q.isSystem = false := by
  intro q hq
  simp only [Turn.pushes, List.mem_cons, List.mem_append, List.mem_map, List.not_mem_nil,
    or_false] at hq
  rcases hq with rfl | ⟨_, _, rfl⟩ | rfl <;> rfl

theorem transcript_not_system (turns : List Turn) :
    ∀ q ∈ transcript turns, q.isSystem = false := by
  intro q hq
  obtain ⟨t, _, hq⟩ := List.mem_flatMap.1 hq
  exact pushes_not_system t q hq

theorem transcript_getLast (turns : List Turn) (t : Turn) :
    (transcript (turns ++ [t])).getLast? = some (.assistant, t.response) := by
  rw [transcript_concat, Turn.pushes, ← List.cons_append, ← List.append_assoc]
  exact List.getLast?_concat

theorem Conversation.messages {p : Platform} {turns : List Turn} {s : Session}
    (h : Conversation p turns s) :
    s.agent.context.messages.map (fun m => (m.role, m.content)) =
      (.system, systemPrompt) :: (transcript turns).rtake
        (retainedCount 4096 ((.system, systemPrompt) :: transcript turns)) := by
  rw [h.context, (holds_pushAll 4096 _).messages, List.map_map,
    retain_cons_pinned Push.isSystem _ _ rfl,
    retain_loose Push.isSystem _ (transcript_not_system turns)]
  exact List.map_id _

theorem one_le_retainedCount (turns : List Turn) (t : Turn) :
    1 ≤ retainedCount 4096 ((.system, systemPrompt) :: transcript (turns ++ [t])) := by
  have hne : transcript (turns ++ [t]) ≠ [] := by
    intro h
    have hlast := transcript_getLast turns t
    simp [h] at hlast
  have hlast : lastAdmitted ((.system, systemPrompt) :: transcript (turns ++ [t])) = 1 := by
    rw [lastAdmitted, List.getLast?_cons_of_ne_nil hne, transcript_getLast]
    rfl
  exact hlast.symm.le.trans (le_max_right _ _)

/-- After every call the window is the system prompt followed by a non-empty,
unmodified suffix of the transcript that ends in the response just returned. -/
theorem window_shape {p : Platform} {turns : List Turn} {t : Turn} {s : Session}
    (h : Conversation p (turns ++ [t]) s) :
    ∃ suffix, suffix ≠ [] ∧ suffix <:+ transcript (turns ++ [t]) ∧
      s.agent.context.messages.map (fun m => (m.role, m.content)) =
        (.system, systemPrompt) :: suffix ∧
      (∀ q ∈ suffix, q.1 ≠ .system) ∧ suffix.getLast? = some (.assistant, t.response) := by
  generalize hn : retainedCount 4096 ((.system, systemPrompt) :: transcript (turns ++ [t])) = n
  have hmessages := h.messages
  have hcount := one_le_retainedCount turns t
  rw [hn] at hmessages hcount
  have hlast := transcript_getLast turns t
  have hsuffix : (transcript (turns ++ [t])).rtake n <:+ transcript (turns ++ [t]) :=
    List.drop_suffix _ _
  have hne : (transcript (turns ++ [t])).rtake n ≠ [] := by
    have hpos := List.length_pos_of_mem (List.mem_of_getLast? hlast)
    apply List.ne_nil_of_length_pos
    rw [length_rtake]
    omega
  refine ⟨_, hne, hsuffix, hmessages, ?_, ?_⟩
  · intro q hq
    have hq := transcript_not_system _ q (hsuffix.subset hq)
    simpa [Push.isSystem] using hq
  · rw [List.getLast?_eq_some_getLast hne, hsuffix.getLast hne, ← hlast,
      List.getLast?_eq_some_getLast]

theorem window_shape_calc :
    let p : Platform := ⟨.checked, fun _ _ => "1.3".toList⟩
    let reply := "10 + 20 = 30".toList
    ∃ s suffix, Conversation p [⟨"/tool calc 10 + 20".toList, some reply, reply⟩] s ∧
      suffix ≠ [] ∧ s.agent.context.messages.map (fun m => (m.role, m.content)) =
        (.system, systemPrompt) :: suffix ∧ suffix.getLast? = some (.assistant, reply) := by
  intro p reply
  have hturn : Conversation p
      ([] ++ [⟨"/tool calc 10 + 20".toList, some reply, reply⟩]) _ := .turn .start rfl
  obtain ⟨suffix, hne, _, hmessages, _, hlast⟩ := window_shape hturn
  exact ⟨_, suffix, hturn, hne, hmessages, hlast⟩

end LlmOs.AgentRuntime
