import LlmOs.AgentMemory

set_option autoImplicit false

/-! Reading a recall reply back. Values, keys and error texts share one string,
and the reply is read at its first space. That is sound because no reachable
memory has a key with a space in it, which the recall itself does not check. -/
namespace LlmOs.AgentRuntime
open RustText RustInt Context Tools

theorem Conversation.keysBare {p : Platform} {turns : List Turn} {s : Session}
    (h : Conversation p turns s) : ToolRegistry.KeysBare s.agent.toolRegistry := by
  induction h with
  | start => exact (ToolRegistry.builtin_reachable p.arith).keysBare
  | @turn _ s _ input _ _ returns ih =>
    have heffect := effect_of_processInput returns
    rcases heffect.registry with ⟨_, hr⟩ | ⟨name, args, _, hr⟩
    · rw [hr]
      exact ih
    · rw [hr]
      exact ih.execute p.arith name args

theorem splitOnce_reply {k : Str} (hk : ' ' ∉ k) (v : Str) :
    splitOnce ' ' (k ++ " = ".toList ++ v) = some (k, "= ".toList ++ v) :=
  (splitOnce_eq_some_iff ' ' _ k _).2 ⟨by simp, hk⟩

/-- A reply whose key reads `Tool` goes on with an equals sign, never with an error. -/
theorem reply_not_error {k : Str} (hk : ' ' ∉ k) (v : Str) :
    startsWith (k ++ " = ".toList ++ v) "Tool error: ".toList = false := by
  rw [Bool.eq_false_iff]
  intro hstart
  obtain ⟨rest, hrest⟩ := (startsWith_iff _ _).1 hstart
  have hcut := splitOnce_reply hk v
  have herror : splitOnce ' ' ("Tool error: ".toList ++ rest) =
      some ("Tool".toList, "error: ".toList ++ rest) :=
    (splitOnce_eq_some_iff ' ' _ _ _).2 ⟨by simp, by decide⟩
  rw [hrest, herror, Option.some.injEq, Prod.mk.injEq] at hcut
  have hhead := congrArg List.head? hcut.2
  simp at hhead

section
variable {p : Platform} {turns : List Turn} {s : Session}

theorem Conversation.recallResponse_error_iff (h : Conversation p turns s) (a : Str) :
    startsWith (recallResponse s.agent.toolRegistry.memory a) "Tool error: ".toList = true ↔
      s.agent.toolRegistry.memory[trim a]? = none := by
  unfold recallResponse
  cases hv : s.agent.toolRegistry.memory[trim a]? with
  | none =>
    have hhead : "Tool error: Key '".toList = "Tool error: ".toList ++ "Key '".toList := by decide
    rw [hhead, List.append_assoc, List.append_assoc]
    simp only [startsWith_append]
  | some v => simp only [reply_not_error (h.keysBare _ v hv) v, Bool.false_eq_true, reduceCtorEq]

theorem Conversation.splitOnce_recallResponse (h : Conversation p turns s) {a v : Str}
    (hv : s.agent.toolRegistry.memory[trim a]? = some v) :
    splitOnce ' ' (recallResponse s.agent.toolRegistry.memory a) =
      some (trim a, "= ".toList ++ v) := by
  rw [recallResponse, hv]
  exact splitOnce_reply (h.keysBare _ v hv) v

/-- A recall reply tells an error from a value, gives back key and value at its
first space, and so determines both, whatever the two agents have been through. -/
theorem recall_reply_unambiguous (h : Conversation p turns s) (a : Str) :
    ∃ reply, (s.processInput p ("/tool recall ".toList ++ a)).1 = some reply ∧
      (startsWith reply "Tool error: ".toList = true ↔
        s.agent.toolRegistry.memory[trim a]? = none) ∧
      (∀ v, s.agent.toolRegistry.memory[trim a]? = some v →
        splitOnce ' ' reply = some (trim a, "= ".toList ++ v)) ∧
      ∀ (p' : Platform) (turns' : List Turn) (s' : Session) (a' v v' : Str),
        Conversation p' turns' s' → s.agent.toolRegistry.memory[trim a]? = some v →
          s'.agent.toolRegistry.memory[trim a']? = some v' →
            (s'.processInput p' ("/tool recall ".toList ++ a')).1 = some reply →
              trim a = trim a' ∧ v = v' := by
  refine ⟨_, h.processInput_recall a, h.recallResponse_error_iff a,
    fun v hv => h.splitOnce_recallResponse hv, ?_⟩
  intro p' turns' s' a' v v' h' hv hv' hreply
  rw [h'.processInput_recall a', Option.some.injEq] at hreply
  have hcut := h.splitOnce_recallResponse hv
  rw [← hreply, h'.splitOnce_recallResponse hv', Option.some.injEq, Prod.mk.injEq] at hcut
  exact ⟨hcut.1.symm, (List.append_cancel_left hcut.2).symm⟩

end

/-- The key `Tool` with an error-like value is still told from an error. -/
theorem recall_reply_unambiguous_tool :
    let p : Platform := ⟨.checked, fun _ _ => "1.3".toList⟩
    let stored := "Stored: Tool = error: = x".toList
    ∃ s, Conversation p [⟨"/tool store Tool error: = x".toList, some stored, stored⟩] s ∧
      (s.processInput p "/tool recall Tool".toList).1 = some "Tool = error: = x".toList ∧
      s.agent.toolRegistry.memory["Tool".toList]? = some "error: = x".toList ∧
      splitOnce ' ' "Tool = error: = x".toList = some ("Tool".toList, "= error: = x".toList) := by
  intro p stored
  have hturn : Conversation p
      ([] ++ [⟨"/tool store Tool error: = x".toList, some stored, stored⟩]) _ := .turn .start rfl
  have hvalue : lastStored "Tool".toList ["/tool store Tool error: = x".toList] =
      some "error: = x".toList := by decide
  have hmemory := hturn.memory "Tool".toList
  obtain ⟨reply, hreply, _, hcut, _⟩ := recall_reply_unambiguous hturn "Tool".toList
  have hread := hcut "error: = x".toList (hmemory.trans hvalue)
  have htext := ((splitOnce_eq_some_iff ' ' reply _ _).1 hread).1
  subst htext
  exact ⟨_, hturn, hreply, hmemory.trans hvalue, hread⟩

end LlmOs.AgentRuntime
