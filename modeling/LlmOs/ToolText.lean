import LlmOs.ToolMemory

set_option autoImplicit false

/-! How long the text of a tool call can get. Results and messages quote the
call itself, except that a recall quotes an entry stored by an earlier one. -/
namespace LlmOs.Tools
open RustText RustInt

theorem len_calculate_err {arith : Arith} {a b : I64} {op message : Str}
    (h : calculate arith a op b = .err message) : len message ≤ len op + 36 := by
  have hdiv : len "Division by zero".toList = 16 := by decide
  have hhead : len "Unknown operator: ".toList = 18 := by decide
  have htail : len " (use +, -, *, /)".toList = 17 := by decide
  have hoption : ∀ o : Option I64, Outcome.ofOption o ≠ .err message := by
    intro o
    cases o <;> simp [Outcome.ofOption]
  unfold calculate at h
  split_ifs at h
  · exact absurd h (hoption _)
  · exact absurd h (hoption _)
  · exact absurd h (hoption _)
  · simp only [Outcome.err.injEq] at h
    rw [← h, hdiv]
    omega
  · exact absurd h (hoption _)
  · simp only [Outcome.err.injEq] at h
    rw [← h, len_append, len_append, hhead, htail]
    omega

theorem len_equals : len " = ".toList = 3 := by
  decide

theorem len_resultLine (a b r : I64) (op : Str) : len (resultLine a op b r.val) ≤ len op + 65 := by
  have hone : len " ".toList = 1 := by decide
  have ha := len_intText_le a.inRange
  have hb := len_intText_le b.inRange
  have hr := len_intText_le r.inRange
  simp only [resultLine, len_append, hone, len_equals]
  omega

def Outcome.text : Outcome Str → Str
  | .ok result => result
  | .err message => message
  | .panic => []

theorem len_execCalculator (arith : Arith) (expr : Str) :
    len (execCalculator arith expr).text ≤ len expr + 65 := by
  have husage : len "Usage: /tool calc <num> <op> <num> (e.g., /tool calc 42 + 7)".toList = 60 := by
    decide
  have hinvalid : len "Invalid number: ".toList = 16 := by decide
  unfold execCalculator
  split
  · rename_i left op right htok
    have htoken : ∀ t ∈ [left, op, right], len t ≤ len expr := by
      intro t ht
      rw [← htok] at ht
      exact len_le_of_mem_splitWhitespace ht
    have hleft := htoken left (by simp)
    have hop := htoken op (by simp)
    have hright := htoken right (by simp)
    cases parseI64 left with
    | none =>
      simp only [Outcome.text, len_append, hinvalid]
      omega
    | some a =>
      cases parseI64 right with
      | none =>
        simp only [Outcome.text, len_append, hinvalid]
        omega
      | some b =>
        cases hc : calculate arith a op b with
        | ok r =>
          have hline := len_resultLine a b r op
          simp only [hc, Outcome.map, Outcome.text]
          omega
        | err message =>
          have herr := len_calculate_err hc
          simp only [hc, Outcome.map, Outcome.text]
          omega
        | panic =>
          simp only [hc, Outcome.map, Outcome.text, len_nil]
          omega
  · simp only [Outcome.text, husage]
    omega

def EntriesWithin (limit : ℕ) (r : ToolRegistry) : Prop :=
  ∀ k v : Str, r.memory[k]? = some v → len k + len v + 3 ≤ limit

theorem len_execMemoryStore (r : ToolRegistry) (args : Str) :
    len (r.execMemoryStore args).1.text ≤ len args + 65 := by
  have husage : len "Usage: /tool store <key> <value>".toList = 32 := by decide
  have hstored : len "Stored: ".toList = 8 := by decide
  rcases cut_or_whole ' ' args with ⟨k, v, rfl, hk⟩ | hw
  · rw [ToolRegistry.execMemoryStore_cut r v hk]
    simp only [Outcome.text, len_append, len_cons, hstored, len_equals]
    omega
  · rw [ToolRegistry.execMemoryStore_whole r hw]
    simp only [Outcome.text, husage]
    omega

theorem len_execMemoryRecall {limit : ℕ} {r : ToolRegistry} (hr : EntriesWithin limit r) (args : Str) :
    len (r.execMemoryRecall args).text ≤ max limit (len args + 65) := by
  have hkey : len "Key '".toList = 5 := by decide
  have hfound : len "' not found in memory".toList = 21 := by decide
  have htrim := len_sublist (trim_sublist args)
  simp only [ToolRegistry.execMemoryRecall]
  cases hv : r.memory[trim args]? with
  | some v =>
    have hwithin := hr _ v hv
    simp only [Outcome.text, len_append, len_equals]
    omega
  | none =>
    simp only [Outcome.text, len_append, hkey, hfound]
    omega

theorem len_echo : len "[echo] ".toList = 7 := by
  decide

theorem len_execute (arith : Arith) {limit : ℕ} {r : ToolRegistry}
    (ht : r.tools = ToolRegistry.builtin.tools) (hr : EntriesWithin limit r) (name args : Str) :
    len (r.execute arith name args).1.text ≤ max limit (len name + len args + 65) := by
  have hunknown : len "Unknown tool '".toList = 14 := by decide
  have havailable : len "'. Available: ".toList = 14 := by decide
  have hnames : len (debugNames r.toolNames) = 35 := by
    rw [ToolRegistry.toolNames, ht]
    decide
  unfold ToolRegistry.execute
  cases r.tools[name]? with
  | none =>
    simp only [Outcome.text, len_append, hunknown, havailable, hnames]
    omega
  | some tool =>
    cases tool with
    | calculator =>
      have h := len_execCalculator arith args
      simp only
      omega
    | memoryStore =>
      have h := len_execMemoryStore r args
      simp only
      omega
    | memoryRecall =>
      have h := len_execMemoryRecall hr args
      simp only
      omega
    | echo =>
      simp only [Outcome.text, len_append, len_echo]
      omega

end LlmOs.Tools
