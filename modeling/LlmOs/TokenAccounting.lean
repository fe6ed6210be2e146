import LlmOs.ContextEviction

set_option autoImplicit false

/-!
# The token counter inside the eviction loop

`current_tokens` is updated in two places, and one of them is a saturating
subtraction. The states of a run are the windows between two calls, the windows
in which the loop of a call tests its guard, and the windows between an eviction
and the increment of the eviction counter. The counter is exact in all of them.
-/
namespace LlmOs.Context
open RustText RetainedSuffix

/-- The windows in which the loop of one call tests its guard. -/
inductive AtGuard (tokenCount : ℕ) (w : ContextWindow) : ContextWindow → Prop where
  | enter : AtGuard tokenCount w w
  | again {v v' : ContextWindow} {msg : Message} (h : AtGuard tokenCount w v)
      (full : v.currentTokens + tokenCount > v.maxTokens)
      (evicts : v.evictOldest = some (msg, v')) :
      AtGuard tokenCount w { v' with totalEvicted := v'.totalEvicted + 1 }

/-- The windows that a run of calls on a fresh window passes through. -/
inductive RunState (maxTokens : ℕ) (history : List Push) : ContextWindow → Prop where
  | between (k : ℕ) : RunState maxTokens history
      ((ContextWindow.new maxTokens).pushAll (history.take k))
  | guard {k : ℕ} {p : Push} {v : ContextWindow} (call : history[k]? = some p)
      (h : AtGuard (estimateTokens p.2)
        ((ContextWindow.new maxTokens).pushAll (history.take k)) v) :
      RunState maxTokens history v
  | removed {k : ℕ} {p : Push} {v v' : ContextWindow} {msg : Message}
      (call : history[k]? = some p)
      (h : AtGuard (estimateTokens p.2)
        ((ContextWindow.new maxTokens).pushAll (history.take k)) v)
      (full : v.currentTokens + estimateTokens p.2 > v.maxTokens)
      (evicts : v.evictOldest = some (msg, v')) :
      RunState maxTokens history v'

/-- The counter is the sum of the counts, and every count is its content's estimate. -/
structure Accounted (w : ContextWindow) : Prop where
  exact : w.currentTokens = (w.messages.map Message.tokenCount).sum
  counts : ∀ m ∈ w.messages, m.tokenCount = estimateTokens m.content

theorem one_le_estimateTokens (text : Str) : 1 ≤ estimateTokens text := by
  simp only [estimateTokens]
  split_ifs <;> omega

theorem len_le_estimateTokens (text : Str) : len text ≤ 7 * estimateTokens text := by
  simp only [estimateTokens]
  split_ifs <;> omega

theorem Accounted.messageCount_le {w : ContextWindow} (h : Accounted w) :
    w.messageCount ≤ w.currentTokens := by
  have hone : ∀ n ∈ w.messages.map Message.tokenCount, 1 ≤ n := by
    intro n hn
    obtain ⟨m, hm, rfl⟩ := List.mem_map.1 hn
    rw [h.counts m hm]
    exact one_le_estimateTokens m.content
  have hsum := List.length_le_sum_of_one_le _ hone
  rw [List.length_map, ← h.exact] at hsum
  exact hsum

theorem Accounted.bytes_le {w : ContextWindow} (h : Accounted w) :
    (w.messages.map (fun m => len m.content)).sum ≤ 7 * w.currentTokens := by
  rw [h.exact, ← List.sum_map_mul_left]
  apply List.sum_le_sum
  intro m hm
  rw [h.counts m hm]
  exact len_le_estimateTokens m.content

theorem accounted_new (maxTokens : ℕ) : Accounted (ContextWindow.new maxTokens) :=
  ⟨rfl, fun _ hm => by cases hm⟩

/-- An eviction subtracts what the counter holds, and the counter stays exact. -/
theorem Accounted.evictOldest {w w' : ContextWindow} {msg : Message} (h : Accounted w)
    (evicts : w.evictOldest = some (msg, w')) :
    msg.tokenCount ≤ w.currentTokens ∧ Accounted w' := by
  rw [ContextWindow.evictOldest_eq, Option.map_eq_some_iff] at evicts
  obtain ⟨m, hfind, heq⟩ := evicts
  cases heq
  have hsum := total_eraseP Message.tokenCount hfind
  have hexact : w.currentTokens = total Message.tokenCount w.messages := h.exact
  refine ⟨by omega, ?_, ?_⟩
  · change w.currentTokens - msg.tokenCount = total _ (w.messages.eraseP Message.evictable)
    omega
  · intro m' hm'
    exact h.counts m' (List.mem_of_mem_eraseP hm')

theorem Accounted.atGuard {tokenCount : ℕ} {w v : ContextWindow} (hw : Accounted w)
    (h : AtGuard tokenCount w v) : Accounted v := by
  induction h with
  | enter => exact hw
  | again _ _ evicts ih =>
    have hv := (ih.evictOldest evicts).2
    exact ⟨hv.exact, hv.counts⟩

theorem AtGuard.makeRoomWithin {tokenCount : ℕ} {w v : ContextWindow}
    (h : AtGuard tokenCount w v) (fuel : ℕ) :
    AtGuard tokenCount w (ContextWindow.makeRoomWithin tokenCount fuel v) := by
  induction fuel generalizing v with
  | zero => exact h
  | succ fuel ih =>
    unfold ContextWindow.makeRoomWithin
    split_ifs with full
    · cases evicts : v.evictOldest with
      | none => exact h
      | some removed => exact ih (.again h full evicts)
    · exact h

theorem Accounted.pushMessage {w : ContextWindow} (h : Accounted w) (role : Role)
    (content : Str) : Accounted (w.pushMessage role content) := by
  have hroom : Accounted (w.makeRoom (estimateTokens content)) :=
    h.atGuard (AtGuard.enter.makeRoomWithin _)
  constructor
  · change (w.makeRoom _).currentTokens + _ = (((w.makeRoom _).messages ++ [_]).map _).sum
    rw [hroom.exact, List.map_append, List.sum_append]
    simp only [List.map_cons, List.map_nil, List.sum_cons, List.sum_nil, Nat.add_zero]
  · intro m hm
    rcases List.mem_append.1 hm with hm | hm
    · exact hroom.counts m hm
    · rw [List.mem_singleton.1 hm]

theorem accounted_pushAll (maxTokens : ℕ) (history : List Push) :
    Accounted ((ContextWindow.new maxTokens).pushAll history) := by
  induction history using List.reverseRecOn with
  | nil => exact accounted_new maxTokens
  | append_singleton history p ih =>
    rw [ContextWindow.pushAll_concat]
    exact ih.pushMessage p.1 p.2

theorem RunState.accounted {maxTokens : ℕ} {history : List Push} {v : ContextWindow}
    (h : RunState maxTokens history v) : Accounted v := by
  cases h with
  | between k => exact accounted_pushAll maxTokens _
  | guard _ h => exact (accounted_pushAll maxTokens _).atGuard h
  | removed _ h _ evicts => exact (((accounted_pushAll maxTokens _).atGuard h).evictOldest evicts).2

/-- Token accounting is exact in every state of every run, no subtraction of the
run saturates, and the counter bounds the number of messages and their bytes. -/
theorem token_accounting {maxTokens : ℕ} {history : List Push} {v : ContextWindow}
    (h : RunState maxTokens history v) :
    v.currentTokens = (v.messages.map Message.tokenCount).sum ∧
      (∀ m ∈ v.messages, m.tokenCount = estimateTokens m.content) ∧
      (∀ msg v', v.evictOldest = some (msg, v') → msg.tokenCount ≤ v.currentTokens) ∧
      v.messageCount ≤ v.currentTokens ∧
      (v.messages.map (fun m => len m.content)).sum ≤ 7 * v.currentTokens := by
  have hv := h.accounted
  exact ⟨hv.exact, hv.counts, fun _ _ evicts => (hv.evictOldest evicts).1, hv.messageCount_le,
    hv.bytes_le⟩

theorem token_accounting_between_eviction_and_count :
    let v : ContextWindow := ⟨[⟨.assistant, "bb".toList, 1⟩], 3, 1, 0⟩
    RunState 3 [(.user, "a".toList), (.assistant, "bb".toList), (.user, "long text".toList)] v ∧
      v.currentTokens = (v.messages.map Message.tokenCount).sum ∧
      (v.messages.map (fun m => len m.content)).sum ≤ 7 * v.currentTokens := by
  intro v
  have h : RunState 3
      [(.user, "a".toList), (.assistant, "bb".toList), (.user, "long text".toList)] v :=
    .removed (k := 2) rfl .enter (by decide) rfl
  obtain ⟨hexact, _, _, _, hbytes⟩ := token_accounting h
  exact ⟨h, hexact, hbytes⟩

end LlmOs.Context
