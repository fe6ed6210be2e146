import LlmOs.ContextWindow
import LlmOs.RetainedSuffix

set_option autoImplicit false

/-!
# Online eviction and its offline closed form

A history is the list of calls made to `pushMessage` on a fresh window. The
window that the calls leave is a function of the history alone: every system
message, and the longest suffix of the others that fits beside them, with one
exception for a last message that does not fit at all.
-/
namespace LlmOs.Context
open RustText RetainedSuffix

abbrev Push := Role × Str

def Push.isSystem (p : Push) : Bool := p.1 == .system

def Push.tokens (p : Push) : ℕ := estimateTokens p.2

def Message.ofPush (p : Push) : Message := ⟨p.1, p.2, p.tokens⟩

def Message.evictable (m : Message) : Bool := m.role != .system

namespace ContextWindow

def pushAll (w : ContextWindow) (history : List Push) : ContextWindow :=
  history.foldl (fun w p => w.pushMessage p.1 p.2) w

@[simp] theorem pushAll_nil (w : ContextWindow) : w.pushAll [] = w := rfl

theorem pushAll_append (w : ContextWindow) (xs ys : List Push) :
    w.pushAll (xs ++ ys) = (w.pushAll xs).pushAll ys :=
  List.foldl_append

theorem pushAll_concat (w : ContextWindow) (xs : List Push) (p : Push) :
    w.pushAll (xs ++ [p]) = (w.pushAll xs).pushMessage p.1 p.2 := by
  rw [pushAll_append]
  rfl

theorem evictOldest_eq (w : ContextWindow) :
    w.evictOldest = (w.messages.find? Message.evictable).map (fun msg => (msg, { w with
      messages := w.messages.eraseP Message.evictable
      currentTokens := w.currentTokens - msg.tokenCount })) := by
  change (w.messages.findIdx? Message.evictable).bind _ = _
  rw [List.find?_eq_bind_findIdx?_getElem?, List.eraseP_eq_eraseIdx]
  cases hi : w.messages.findIdx? Message.evictable with
  | none => rfl
  | some idx =>
    cases hm : w.messages[idx]? with
    | none => simp [hm]
    | some msg => simp [hm]

/-- The state in which the loop tests its guard again. -/
def evicted (w : ContextWindow) (msg : Message) : ContextWindow :=
  { w with
    messages := w.messages.eraseP Message.evictable
    currentTokens := w.currentTokens - msg.tokenCount
    totalEvicted := w.totalEvicted + 1 }

theorem makeRoomWithin_succ (tokenCount fuel : ℕ) (w : ContextWindow) :
    makeRoomWithin tokenCount (fuel + 1) w =
      if w.currentTokens + tokenCount > w.maxTokens then
        match w.messages.find? Message.evictable with
        | some msg => makeRoomWithin tokenCount fuel (w.evicted msg)
        | none => w
      else w := by
  rw [makeRoomWithin, evictOldest_eq]
  cases w.messages.find? Message.evictable <;> rfl

theorem evicted_length {w : ContextWindow} {msg : Message}
    (h : w.messages.find? Message.evictable = some msg) :
    (w.evicted msg).messages.length + 1 = w.messages.length := by
  have hm := List.mem_of_find?_eq_some h
  have he := List.length_eraseP_of_mem hm (List.find?_some h)
  have hpos := List.length_pos_of_mem hm
  change (w.messages.eraseP Message.evictable).length + 1 = _
  omega

theorem makeRoomWithin_none (tokenCount fuel : ℕ) {w : ContextWindow}
    (h : w.messages.find? Message.evictable = none) : makeRoomWithin tokenCount fuel w = w := by
  cases fuel with
  | zero => rfl
  | succ fuel => simp [makeRoomWithin_succ, h]

theorem makeRoomWithin_fuel (tokenCount : ℕ) {fuel : ℕ} {w : ContextWindow}
    (h : w.messages.length ≤ fuel) :
    makeRoomWithin tokenCount fuel w = w.makeRoom tokenCount := by
  induction fuel generalizing w with
  | zero =>
    have hz : w.messages.length = 0 := by omega
    rw [makeRoom, hz]
  | succ fuel ih =>
    cases hm : w.messages.find? Message.evictable with
    | none => rw [makeRoom, makeRoomWithin_none _ _ hm, makeRoomWithin_none _ _ hm]
    | some msg =>
      have hl := evicted_length hm
      have hw : w.makeRoom tokenCount =
          makeRoomWithin tokenCount ((w.evicted msg).messages.length + 1) w := by
        rw [makeRoom, hl]
      rw [hw, makeRoomWithin_succ, makeRoomWithin_succ]
      simp only [hm]
      rw [ih (by omega), makeRoom]

/-- The loop of `push_message` as a loop: test the guard, evict, count, repeat. -/
theorem makeRoom_eq (tokenCount : ℕ) (w : ContextWindow) :
    w.makeRoom tokenCount =
      if w.currentTokens + tokenCount > w.maxTokens then
        match w.messages.find? Message.evictable with
        | some msg => (w.evicted msg).makeRoom tokenCount
        | none => w
      else w := by
  rw [← makeRoomWithin_fuel tokenCount (Nat.le_succ w.messages.length), makeRoomWithin_succ]
  cases hm : w.messages.find? Message.evictable with
  | none => rfl
  | some msg =>
    have hl := evicted_length hm
    have hfuel : (w.evicted msg).messages.length ≤ w.messages.length := by omega
    simp only [makeRoomWithin_fuel tokenCount hfuel]

/-- The rule for the loop: what every eviction preserves holds when it ends. -/
theorem makeRoom_invariant (I : ContextWindow → Prop) (tokenCount : ℕ) {w : ContextWindow}
    (hw : I w)
    (step : ∀ v msg, I v → v.messages.find? Message.evictable = some msg → I (v.evicted msg)) :
    I (w.makeRoom tokenCount) := by
  induction hn : w.messages.length using Nat.strong_induction_on generalizing w with
  | h n ih =>
    rw [makeRoom_eq]
    split_ifs
    · cases hm : w.messages.find? Message.evictable with
      | none => exact hw
      | some msg =>
        have hl := evicted_length hm
        exact ih _ (by omega) (step w msg hw hm) rfl
    · exact hw

@[simp] theorem makeRoom_maxTokens (tokenCount : ℕ) (w : ContextWindow) :
    (w.makeRoom tokenCount).maxTokens = w.maxTokens :=
  makeRoom_invariant (fun v => v.maxTokens = w.maxTokens) tokenCount rfl (fun _ _ h _ => h)

@[simp] theorem pushMessage_maxTokens (w : ContextWindow) (role : Role) (content : Str) :
    (w.pushMessage role content).maxTokens = w.maxTokens :=
  makeRoom_maxTokens _ w

end ContextWindow

/-- The token load that no eviction can remove. -/
def systemTokens (history : List Push) : ℕ :=
  total Push.tokens (history.filter Push.isSystem)

def nonSystem (history : List Push) : List Push := loose Push.isSystem history

/-- The greatest `n` for which the system messages and the last `n` others fit
together; zero if there is none. -/
def fitting (maxTokens : ℕ) (history : List Push) : ℕ :=
  Nat.findGreatest (fun n =>
    systemTokens history + total Push.tokens ((nonSystem history).rtake n) ≤ maxTokens)
    (nonSystem history).length

/-- A last message that is not a system message stays even when it does not fit. -/
def lastAdmitted (history : List Push) : ℕ :=
  match history.getLast? with
  | some p => if p.isSystem then 0 else 1
  | none => 0

def retainedCount (maxTokens : ℕ) (history : List Push) : ℕ :=
  max (fitting maxTokens history) (lastAdmitted history)

/-- The window holds the system messages and the last `n` others, and its two
counters agree with that. -/
structure Holds (w : ContextWindow) (history : List Push) (n : ℕ) : Prop where
  messages : w.messages = (retain Push.isSystem n history).map Message.ofPush
  tokens : w.currentTokens =
    systemTokens history + total Push.tokens ((nonSystem history).rtake n)
  evicted : w.totalEvicted + n = (nonSystem history).length

theorem fitting_eq_room (maxTokens : ℕ) (history : List Push) :
    fitting maxTokens history = room Push.tokens maxTokens (systemTokens history)
      (nonSystem history) (nonSystem history).length := rfl

section
variable (history : List Push) {p : Push}

theorem nonSystem_concat_system (hp : p.isSystem = true) :
    nonSystem (history ++ [p]) = nonSystem history := by
  simp [nonSystem, loose, hp]

theorem nonSystem_concat_other (hp : p.isSystem = false) :
    nonSystem (history ++ [p]) = nonSystem history ++ [p] := by
  simp [nonSystem, loose, hp]

theorem systemTokens_concat_system (hp : p.isSystem = true) :
    systemTokens (history ++ [p]) = systemTokens history + p.tokens := by
  simp [systemTokens, hp]

theorem systemTokens_concat_other (hp : p.isSystem = false) :
    systemTokens (history ++ [p]) = systemTokens history := by
  simp [systemTokens, hp]

theorem lastAdmitted_concat_system (hp : p.isSystem = true) :
    lastAdmitted (history ++ [p]) = 0 := by
  simp [lastAdmitted, hp]

theorem lastAdmitted_concat_other (hp : p.isSystem = false) :
    lastAdmitted (history ++ [p]) = 1 := by
  simp [lastAdmitted, hp]

end

theorem evictable_ofPush : Message.evictable ∘ Message.ofPush = fun p => !p.isSystem := by
  funext p
  rfl

theorem Holds.find?_succ {w : ContextWindow} {history : List Push} {n : ℕ}
    (h : Holds w history (n + 1)) :
    ∃ p, w.messages.find? Message.evictable = some (Message.ofPush p) ∧
      (nonSystem history).rtake (n + 1) = p :: (nonSystem history).rtake n := by
  have hn := h.evicted
  have hidx : (nonSystem history).length - (n + 1) < (nonSystem history).length := by omega
  have hcons : (nonSystem history).rtake (n + 1) =
      (nonSystem history)[(nonSystem history).length - (n + 1)] :: (nonSystem history).rtake n := by
    unfold List.rtake
    rw [List.drop_eq_getElem_cons hidx]
    congr 2
    omega
  refine ⟨_, ?_, hcons⟩
  have hloose := loose_retain Push.isSystem (n + 1) history
  rw [h.messages, List.find?_map, evictable_ofPush, ← List.head?_filter]
  change Option.map _ (loose Push.isSystem _).head? = _
  rw [hloose]
  change Option.map _ ((nonSystem history).rtake (n + 1)).head? = _
  rw [hcons]
  rfl

theorem Holds.find?_zero {w : ContextWindow} {history : List Push} (h : Holds w history 0) :
    w.messages.find? Message.evictable = none := by
  have hloose := loose_retain Push.isSystem 0 history
  rw [List.rtake_zero] at hloose
  rw [h.messages, List.find?_map, evictable_ofPush, ← List.head?_filter]
  change Option.map _ (loose Push.isSystem _).head? = _
  rw [hloose]
  rfl

theorem Holds.evict {w : ContextWindow} {history : List Push} {n : ℕ} {p : Push}
    (h : Holds w history (n + 1))
    (hp : (nonSystem history).rtake (n + 1) = p :: (nonSystem history).rtake n) :
    Holds (w.evicted (Message.ofPush p)) history n := by
  have hn := h.evicted
  have ht := h.tokens
  rw [hp, total_cons] at ht
  refine ⟨?_, ?_, ?_⟩
  · change w.messages.eraseP Message.evictable = _
    rw [h.messages, List.eraseP_map, evictable_ofPush,
      retain_eraseP Push.isSystem history (show n < (loose Push.isSystem history).length by
        change n < (nonSystem history).length
        omega)]
  · change w.currentTokens - p.tokens = _
    omega
  · change w.totalEvicted + 1 + n = _
    omega

/-- The loop stops at the largest retained count that leaves room for the new
message, or when nothing evictable is left. -/
theorem Holds.makeRoom {w : ContextWindow} {history : List Push} {n : ℕ} (tokenCount : ℕ)
    (h : Holds w history n) :
    Holds (w.makeRoom tokenCount) history
      (room Push.tokens w.maxTokens (systemTokens history + tokenCount) (nonSystem history) n) := by
  induction n generalizing w with
  | zero =>
    have hroom := room_le Push.tokens w.maxTokens (systemTokens history + tokenCount)
      (nonSystem history) 0
    rw [Nat.le_zero.1 hroom, ContextWindow.makeRoom_eq, h.find?_zero]
    split_ifs <;> exact h
  | succ n ih =>
    obtain ⟨p, hfind, hp⟩ := h.find?_succ
    have ht := h.tokens
    rw [ContextWindow.makeRoom_eq, hfind, room_succ]
    by_cases hfit : w.currentTokens + tokenCount > w.maxTokens
    · rw [if_pos hfit, if_neg (by omega)]
      exact ih (h.evict hp)
    · rw [if_neg hfit, if_pos (by omega)]
      exact h

theorem Holds.push_system {w : ContextWindow} {history : List Push} {n : ℕ} (p : Push)
    (hp : p.isSystem = true) (h : Holds (w.makeRoom p.tokens) history n) :
    Holds (w.pushMessage p.1 p.2) (history ++ [p]) n := by
  have hns := nonSystem_concat_system history hp
  have ht := h.tokens
  have he := h.evicted
  refine ⟨?_, ?_, ?_⟩
  · change (w.makeRoom p.tokens).messages ++ [Message.ofPush p] = _
    rw [h.messages, retain_concat_pinned Push.isSystem n history hp, List.map_append]
    rfl
  · change (w.makeRoom p.tokens).currentTokens + p.tokens = _
    rw [hns, systemTokens_concat_system history hp]
    omega
  · change (w.makeRoom p.tokens).totalEvicted + n = _
    rw [hns]
    exact he

theorem Holds.push_other {w : ContextWindow} {history : List Push} {n : ℕ} (p : Push)
    (hp : p.isSystem = false) (h : Holds (w.makeRoom p.tokens) history n) :
    Holds (w.pushMessage p.1 p.2) (history ++ [p]) (n + 1) := by
  have hns := nonSystem_concat_other history hp
  have ht := h.tokens
  have he := h.evicted
  refine ⟨?_, ?_, ?_⟩
  · change (w.makeRoom p.tokens).messages ++ [Message.ofPush p] = _
    rw [h.messages, retain_concat_loose Push.isSystem n history hp, List.map_append]
    rfl
  · change (w.makeRoom p.tokens).currentTokens + p.tokens = _
    rw [hns, systemTokens_concat_other history hp, List.rtake_concat_succ, total_append,
      total_cons, total_nil]
    omega
  · change (w.makeRoom p.tokens).totalEvicted + (n + 1) = _
    rw [hns, List.length_append, List.length_singleton]
    omega

theorem retainedCount_system (maxTokens : ℕ) (history : List Push) {p : Push} {n : ℕ}
    (hp : p.isSystem = true) (hfit : fitting maxTokens history ≤ n)
    (hn : n ≤ (nonSystem history).length) :
    room Push.tokens maxTokens (systemTokens history + p.tokens) (nonSystem history) n =
      retainedCount maxTokens (history ++ [p]) := by
  have hns := nonSystem_concat_system history hp
  have hsys := systemTokens_concat_system history hp
  have hlast := lastAdmitted_concat_system history hp
  rw [retainedCount, hlast, Nat.max_zero, fitting_eq_room, hns, hsys]
  rw [fitting_eq_room] at hfit
  exact room_of_room_le Push.tokens _ (Nat.le_add_right _ _) hfit hn

theorem retainedCount_other (maxTokens : ℕ) (history : List Push) {p : Push} {n : ℕ}
    (hp : p.isSystem = false) (hfit : fitting maxTokens history ≤ n)
    (hn : n ≤ (nonSystem history).length) :
    room Push.tokens maxTokens (systemTokens history + p.tokens) (nonSystem history) n + 1 =
      retainedCount maxTokens (history ++ [p]) := by
  have hns := nonSystem_concat_other history hp
  have hsys := systemTokens_concat_other history hp
  have hlast := lastAdmitted_concat_other history hp
  rw [retainedCount, hlast, fitting_eq_room, hns, hsys, List.length_append, List.length_singleton,
    room_concat]
  rw [fitting_eq_room] at hfit
  rw [room_of_room_le Push.tokens _ (Nat.le_add_right _ p.tokens) hfit hn]

theorem pushAll_maxTokens (w : ContextWindow) (history : List Push) :
    (w.pushAll history).maxTokens = w.maxTokens := by
  induction history using List.reverseRecOn with
  | nil => rfl
  | append_singleton history p ih =>
    rw [ContextWindow.pushAll_concat, ContextWindow.pushMessage_maxTokens, ih]

theorem holds_pushAll (maxTokens : ℕ) (history : List Push) :
    Holds ((ContextWindow.new maxTokens).pushAll history) history
      (retainedCount maxTokens history) := by
  induction history using List.reverseRecOn with
  | nil => exact ⟨rfl, rfl, rfl⟩
  | append_singleton history p ih =>
    have hfit : fitting maxTokens history ≤ retainedCount maxTokens history := le_max_left _ _
    have hn := ih.evicted
    have hmax : ((ContextWindow.new maxTokens).pushAll history).maxTokens = maxTokens :=
      pushAll_maxTokens _ history
    have hroom := ih.makeRoom p.tokens
    rw [hmax] at hroom
    rw [ContextWindow.pushAll_concat]
    cases hp : p.isSystem with
    | true =>
      rw [← retainedCount_system maxTokens history hp hfit (by omega)]
      exact hroom.push_system p hp
    | false =>
      rw [← retainedCount_other maxTokens history hp hfit (by omega)]
      exact hroom.push_other p hp

/-- Online eviction equals the offline selection, for every history. -/
theorem pushAll_closed_form (maxTokens : ℕ) (history : List Push) :
    let w := (ContextWindow.new maxTokens).pushAll history
    let kept := retain Push.isSystem (retainedCount maxTokens history) history
    w.messages.map (fun m => (m.role, m.content)) = kept ∧
      w.totalEvicted = history.length - kept.length ∧ kept.Sublist history := by
  have h := holds_pushAll maxTokens history
  have hsub := retain_sublist Push.isSystem (retainedCount maxTokens history) history
  refine ⟨?_, ?_, hsub⟩
  · rw [h.messages, List.map_map]
    exact List.map_id _
  · have hlen := length_eq_pinned_add_loose Push.isSystem history
    have hkept := length_eq_pinned_add_loose Push.isSystem
      (retain Push.isSystem (retainedCount maxTokens history) history)
    rw [pinned_retain, loose_retain, length_rtake] at hkept
    have he := h.evicted
    unfold nonSystem at he
    omega

theorem pushAll_within_limit {maxTokens : ℕ} (history : List Push) (p : Push)
    (hp : p.isSystem = false) (hfit : systemTokens history + p.tokens ≤ maxTokens) :
    ((ContextWindow.new maxTokens).pushAll (history ++ [p])).currentTokens ≤ maxTokens := by
  have hns := nonSystem_concat_other history hp
  have hsys := systemTokens_concat_other history hp
  have hone : 1 ≤ fitting maxTokens (history ++ [p]) := by
    rw [fitting_eq_room, hns, hsys]
    apply le_room Push.tokens (by simp)
    rw [List.rtake_concat_succ, List.rtake_zero]
    simpa using hfit
  have hlast := lastAdmitted_concat_other history hp
  have hcount : retainedCount maxTokens (history ++ [p]) = fitting maxTokens (history ++ [p]) := by
    rw [retainedCount, hlast]
    exact max_eq_left hone
  rw [(holds_pushAll maxTokens (history ++ [p])).tokens, hcount, fitting_eq_room]
  exact room_fits Push.tokens _ _ (by omega)

end LlmOs.Context
