import LlmOs.ContextEviction

set_option autoImplicit false

/-! Two windows of different size fed with the same calls. The larger one keeps
at least as many messages at every point, because the count that each retains is
a function of the history and grows with the limit. -/
namespace LlmOs.Context
open RustText RetainedSuffix

theorem retainedCount_mono {maxTokens maxTokens' : ℕ} (h : maxTokens ≤ maxTokens')
    (history : List Push) : retainedCount maxTokens history ≤ retainedCount maxTokens' history := by
  have hroom : fitting maxTokens history ≤ fitting maxTokens' history := by
    rw [fitting_eq_room, fitting_eq_room]
    exact room_mono Push.tokens h _ _ _
  exact max_le_max_right _ hroom

/-- The loose part of a window is the retained suffix of the loose history. -/
theorem Holds.evictable {w : ContextWindow} {history : List Push} {n : ℕ}
    (h : Holds w history n) : w.messages.filter Message.evictable =
      ((nonSystem history).rtake n).map Message.ofPush := by
  rw [h.messages, List.filter_map, evictable_ofPush]
  change ((loose Push.isSystem _).map _) = _
  rw [loose_retain]
  rfl

section
variable {w₁ w₂ : ContextWindow} {history : List Push} {n₁ n₂ : ℕ}

theorem Holds.messages_sublist (h₁ : Holds w₁ history n₁) (h₂ : Holds w₂ history n₂)
    (hn : n₁ ≤ n₂) : w₁.messages.Sublist w₂.messages := by
  rw [h₁.messages, h₂.messages]
  exact (retain_sublist_retain Push.isSystem hn history).map Message.ofPush

theorem Holds.evictable_suffix (h₁ : Holds w₁ history n₁) (h₂ : Holds w₂ history n₂)
    (hn : n₁ ≤ n₂) :
    w₁.messages.filter Message.evictable <:+ w₂.messages.filter Message.evictable := by
  rw [h₁.evictable, h₂.evictable]
  exact (rtake_suffix_rtake (nonSystem history) hn).map Message.ofPush

end

/-- A larger window never forgets more, at any point of any run. -/
theorem larger_window_keeps_more {m₁ m₂ : ℕ} (h : m₁ ≤ m₂) (history : List Push) (k : ℕ) :
    let w₁ := (ContextWindow.new m₁).pushAll (history.take k)
    let w₂ := (ContextWindow.new m₂).pushAll (history.take k)
    w₁.messages.Sublist w₂.messages ∧
      w₁.messages.filter Message.evictable <:+ w₂.messages.filter Message.evictable ∧
      w₂.totalEvicted ≤ w₁.totalEvicted := by
  have h₁ := holds_pushAll m₁ (history.take k)
  have h₂ := holds_pushAll m₂ (history.take k)
  have hn := retainedCount_mono h (history.take k)
  refine ⟨h₁.messages_sublist h₂ hn, h₁.evictable_suffix h₂ hn, ?_⟩
  have he₁ := h₁.evicted
  have he₂ := h₂.evicted
  omega

/-- The smaller window has evicted twice when the larger one has evicted once. -/
theorem larger_window_keeps_more_two_three :
    let history : List Push := [(.system, "s".toList), (.user, "a".toList),
      (.assistant, "b".toList), (.user, "c".toList)]
    let w₁ := (ContextWindow.new 2).pushAll (history.take 4)
    let w₂ := (ContextWindow.new 3).pushAll (history.take 4)
    w₁.totalEvicted = 2 ∧ w₂.totalEvicted = 1 ∧ w₁.messages.Sublist w₂.messages ∧
      w₁.messages.filter Message.evictable <:+ w₂.messages.filter Message.evictable := by
  intro history w₁ w₂
  obtain ⟨hsub, hsuffix, _⟩ := larger_window_keeps_more (show 2 ≤ 3 by decide) history 4
  exact ⟨by decide, by decide, hsub, hsuffix⟩

end LlmOs.Context
