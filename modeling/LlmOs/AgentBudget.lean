import LlmOs.AgentMemory
import LlmOs.AgentTranscript
import LlmOs.ToolText

set_option autoImplicit false

/-!
# The token budget of the running agent

`push_message` admits a message of any size, so the limit of the window rests on
how long a message can get. With inputs of at most 16000 bytes every text that
the agent pushes has at most 16183 bytes, which is 4045 tokens: what the system
prompt leaves of the 4096.
-/
namespace LlmOs.AgentRuntime
open RustText RustInt Context Tools RetainedSuffix

def inputLimit : ℕ := 16000
def textLimit : ℕ := 16183

theorem tokens_le_of_len {text : Str} (h : len text ≤ textLimit) : estimateTokens text ≤ 4045 := by
  unfold textLimit at h
  unfold estimateTokens
  dsimp only
  split_ifs <;> omega

theorem len_status (percent : ℕ → ℕ → Str) (w : ContextWindow)
    (hp : ∀ c m, len (percent c m) ≤ 100) : len (w.status percent) ≤ 300 := by
  have h1 : len "Context Window Status:\nTokens: ".toList = 31 := by decide
  have h2 : len "/".toList = 1 := by decide
  have h3 : len " (".toList = 2 := by decide
  have h4 : len "% full)\nMessages: ".toList = 18 := by decide
  have h5 : len "\nEvicted: ".toList = 10 := by decide
  have hpct := hp w.currentTokens w.maxTokens
  have n1 := len_usizeText w.currentTokens
  have n2 := len_usizeText w.maxTokens
  have n3 := len_usizeText w.messages.length
  have n4 := len_usizeText w.totalEvicted
  unfold ContextWindow.status
  iterate 9 rw [len_append]
  rw [h1, h2, h3, h4, h5]
  omega

theorem len_helpText : len helpText = 221 := by
  have h1 : len "Available commands:\n".toList = 20 := by decide
  have h2 : len "/tool <name> <args>  — invoke a tool\n".toList = 39 := by decide
  have h3 : len "/context             — show context window status\n".toList = 52 := by decide
  have h4 : len "/help                — show this help\n".toList = 40 := by decide
  have h5 : len "(anything else)      — echoed back (LLM inference not yet connected)".toList = 70 := by
    decide
  unfold helpText
  iterate 4 rw [len_append]
  rw [h1, h2, h3, h4, h5]

theorem len_systemPrompt : len systemPrompt = 207 := by
  have h1 : len "You are an AI agent running as the sole process on a bare-metal ".toList = 64 := by
    decide
  have h2 : len "x86_64 operating system. You have access to tools for calculation, ".toList = 67 := by
    decide
  have h3 : len "memory storage, and memory recall. Process user input and respond ".toList = 66 := by
    decide
  have h4 : len "helpfully.".toList = 10 := by decide
  unfold systemPrompt
  iterate 3 rw [len_append]
  rw [h1, h2, h3, h4]

theorem len_plainResponse {p : Platform} (hp : ∀ c m, len (p.percent c m) ≤ 100)
    (w : ContextWindow) {input : Str} (hi : len input ≤ inputLimit) :
    len (plainResponse p w input) ≤ textLimit := by
  have hhelp := len_helpText
  have hstatus := len_status p.percent w hp
  unfold inputLimit at hi
  unfold plainResponse textLimit
  split_ifs
  · omega
  · omega
  · rw [len_append, len_echo]
    omega

theorem systemTokens_booted {rest : List Push} (h : ∀ q ∈ rest, q.isSystem = false) :
    systemTokens ((.system, systemPrompt) :: rest) = 51 := by
  have hrest : rest.filter Push.isSystem = [] :=
    List.filter_eq_nil_iff.2 (fun q hq => by simp [h q hq])
  have htokens : Push.tokens (.system, systemPrompt) = 51 := by
    simp [Push.tokens, estimateTokens, len_systemPrompt]
  rw [systemTokens, List.filter_cons_of_pos rfl, hrest, total_cons, htokens, total_nil]

/-- What every push and every turn preserves. The window is the window of some
history whose only system message is the prompt. -/
structure Within (s : Session) : Prop where
  context : ∃ rest, (∀ q ∈ rest, q.isSystem = false) ∧
    s.agent.context = (ContextWindow.new 4096).pushAll ((.system, systemPrompt) :: rest)
  tools : s.agent.toolRegistry.tools = ToolRegistry.builtin.tools
  entries : EntriesWithin inputLimit s.agent.toolRegistry
  pushed : ∀ e ∈ s.pushed,
    e.window.currentTokens ≤ e.window.maxTokens ∧ e.window.maxTokens = 4096

theorem Within.push {s : Session} (h : Within s) {role : Role} {content : Str}
    (hrole : role ≠ .system) (hlen : len content ≤ textLimit) : Within (s.push role content) := by
  obtain ⟨rest, hrest, hctx⟩ := h.context
  have hq : Push.isSystem (role, content) = false := by
    simpa [Push.isSystem] using hrole
  have hnext : (s.push role content).agent.context = (ContextWindow.new 4096).pushAll
      ((.system, systemPrompt) :: (rest ++ [(role, content)])) := by
    change s.agent.context.pushMessage role content = _
    rw [hctx, ← List.cons_append, ContextWindow.pushAll_concat]
  have hlimit : (s.push role content).agent.context.currentTokens ≤ 4096 := by
    rw [hnext, ← List.cons_append]
    apply pushAll_within_limit _ _ hq
    rw [systemTokens_booted hrest]
    have htokens := tokens_le_of_len hlen
    change 51 + estimateTokens content ≤ 4096
    omega
  have hmax : (s.push role content).agent.context.maxTokens = 4096 := by
    rw [hnext, pushAll_maxTokens]
    rfl
  refine ⟨⟨rest ++ [(role, content)], ?_, hnext⟩, h.tools, h.entries, ?_⟩
  · intro q hmem
    rcases List.mem_append.1 hmem with hold | hnew
    · exact hrest q hold
    · rw [List.mem_singleton.1 hnew]
      exact hq
  · intro e he
    rcases List.mem_append.1 he with hold | hnew
    · exact h.pushed e hold
    · rw [List.mem_singleton.1 hnew]
      exact ⟨hlimit.trans hmax.symm.le, hmax⟩

theorem Within.withRegistry {s : Session} (h : Within s) {r : ToolRegistry}
    (ht : r.tools = ToolRegistry.builtin.tools) (hr : EntriesWithin inputLimit r) :
    Within (s.withRegistry r) :=
  ⟨h.context, ht, hr, h.pushed⟩

theorem len_storePrefix (k : Str) : len (storePrefix k) = len k + 13 := by
  unfold storePrefix
  rw [len_append, len_append, show len "/tool store ".toList = 12 by decide,
    show len " ".toList = 1 by decide]
  omega

theorem Effect.entries {p : Platform} {s s' : Session} {input : Str} {response : Option Str}
    (h : Effect p s input response s') (hs : Within s) (hi : len input ≤ inputLimit) :
    EntriesWithin inputLimit s'.agent.toolRegistry := by
  intro k v hv
  rw [h.memory hs.tools k] at hv
  cases hstored : storedValue k input with
  | none =>
    rw [hstored] at hv
    exact hs.entries k v hv
  | some v' =>
    rw [hstored] at hv
    simp only [Option.some_or, Option.some.injEq] at hv
    subst v'
    obtain ⟨_, hinput⟩ := (storedValue_eq_some_iff k input v).1 hstored
    have hlen : len input = len k + 13 + len v := by
      rw [hinput, len_append, len_storePrefix]
    unfold inputLimit at hi ⊢
    omega

theorem len_toolText {p : Platform} {s : Session} (hs : Within s) {input name args : Str}
    (hcall : CallsTool input name args) (hi : len input ≤ inputLimit) :
    len (s.agent.toolRegistry.execute p.arith name args).1.text + 12 ≤ textLimit := by
  have hexec := len_execute p.arith hs.tools hs.entries name args
  have hlen := hcall.len_le
  unfold inputLimit at hexec hi
  unfold textLimit
  omega

theorem Effect.within {p : Platform} (hp : ∀ c m, len (p.percent c m) ≤ 100) {s s' : Session}
    {input : Str} {response : Option Str} (h : Effect p s input response s') (hs : Within s)
    (hi : len input ≤ inputLimit) : Within s' := by
  have hentries := h.entries hs hi
  have htools := h.tools.trans hs.tools
  have huser : Within (s.push .user input) :=
    hs.push (by decide) (hi.trans (by decide))
  have herror : len "Tool error: ".toList = 12 := by decide
  cases h with
  | plain hplain => exact huser.push (by decide) (len_plainResponse hp _ hi)
  | @toolOk name args result r hcall hexec =>
    have htext := len_toolText (p := p) hs hcall hi
    rw [hexec] at htext
    have hresult : len result ≤ textLimit := by
      change len result + 12 ≤ textLimit at htext
      omega
    exact ((huser.withRegistry htools hentries).push (by decide) hresult).push (by decide) hresult
  | @toolErr name args e r hcall hexec =>
    have htext := len_toolText (p := p) hs hcall hi
    rw [hexec] at htext
    have hresult : len ("Tool error: ".toList ++ e) ≤ textLimit := by
      change len e + 12 ≤ textLimit at htext
      rw [len_append, herror]
      omega
    exact (huser.withRegistry htools hentries).push (by decide) hresult
  | toolPanic hcall hexec => exact huser.withRegistry htools hentries

theorem within_booted : Within booted := by
  refine ⟨⟨[], by simp, booted_context⟩, rfl, ?_, ?_⟩
  · intro k v hv
    change (∅ : BTreeMap Str)[k]? = some v at hv
    rw [Std.TreeMap.getElem?_emptyc] at hv
    cases hv
  · intro e he
    obtain rfl : e = ⟨.system, systemPrompt, booted.agent.context⟩ := List.mem_singleton.1 he
    have hsystem : systemTokens [(.system, systemPrompt)] = 51 := systemTokens_booted (by simp)
    have hnone : nonSystem [(.system, systemPrompt)] = [] := rfl
    have htokens := (holds_pushAll 4096 [(.system, systemPrompt)]).tokens
    rw [hsystem, hnone, List.rtake_nil, total_nil] at htokens
    dsimp only
    rw [booted_context, htokens, pushAll_maxTokens]
    exact ⟨by decide, rfl⟩

theorem processAll_within {p : Platform} (hp : ∀ c m, len (p.percent c m) ≤ 100)
    {inputs : List Str} (hin : ∀ i ∈ inputs, len i ≤ inputLimit) {s : Session} (hs : Within s) :
    Within (s.processAll p inputs) := by
  induction inputs generalizing s with
  | nil => exact hs
  | cons input inputs ih =>
    have heffect := processInput_effect p s input
    have hnext := heffect.within hp hs (hin input (by simp))
    unfold Session.processAll
    cases hresult : s.processInput p input with
    | mk response s' =>
      rw [hresult] at hnext
      cases response with
      | none => exact hnext
      | some response => exact ih (fun i hi => hin i (by simp [hi])) hnext

/-- After every single push of every run the window is within its 4096 tokens. -/
theorem token_budget_safe (p : Platform) (hp : ∀ c m, len (p.percent c m) ≤ 100)
    (inputs : List Str) (hin : ∀ i ∈ inputs, len i ≤ 16000) :
    ∀ e ∈ (booted.processAll p inputs).pushed,
      e.window.currentTokens ≤ e.window.maxTokens ∧ e.window.maxTokens = 4096 :=
  (processAll_within hp hin within_booted).pushed

theorem token_budget_safe_calc :
    let p : Platform := ⟨.wrapping, fun _ _ => "1.3".toList⟩
    let inputs := ["/tool calc 10 + 20".toList, "hi".toList]
    (booted.processAll p inputs).pushed.map Pushed.role =
        [.system, .user, .tool, .assistant, .user, .assistant] ∧
      ∀ e ∈ (booted.processAll p inputs).pushed,
        e.window.currentTokens ≤ e.window.maxTokens ∧ e.window.maxTokens = 4096 := by
  intro p inputs
  refine ⟨rfl, token_budget_safe p ?_ inputs ?_⟩
  · intro _ _
    change len "1.3".toList ≤ 100
    decide
  · decide

end LlmOs.AgentRuntime
