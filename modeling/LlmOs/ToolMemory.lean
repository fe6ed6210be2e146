import LlmOs.ToolRegistry

set_option autoImplicit false

/-! Store and recall over every reachable registry. A store cuts its argument at
the first space and keeps the key as it stands; a recall trims all Unicode white
space from both ends of its argument first. -/
namespace LlmOs.Tools
open RustText RustInt

namespace ToolRegistry

theorem get_insert {V : Type} (m : BTreeMap V) (k a : Str) (v : V) :
    (m.insert k v)[a]? = if k = a then some v else m[a]? := by
  simp only [Std.TreeMap.getElem?_insert, Std.LawfulEqCmp.compare_eq_iff_eq]

theorem execMemoryStore_cut (r : ToolRegistry) {key : Str} (value : Str) (h : ' ' ∉ key) :
    r.execMemoryStore (key ++ ' ' :: value) =
      (.ok ("Stored: ".toList ++ key ++ " = ".toList ++ value),
        { r with memory := r.memory.insert key value }) := by
  simp only [execMemoryStore, splitn_two_cut value h]

theorem execMemoryStore_whole (r : ToolRegistry) {args : Str} (h : ' ' ∉ args) :
    r.execMemoryStore args = (.err "Usage: /tool store <key> <value>".toList, r) := by
  simp only [execMemoryStore, splitn_two_whole h]

/-- A call leaves the registry alone, or is an acknowledged store of one entry. -/
theorem execute_cases (arith : Arith) (r : ToolRegistry) (name args : Str) :
    (r.execute arith name args).2 = r ∨
      ∃ key value, r.tools[name]? = some .memoryStore ∧ args = key ++ ' ' :: value ∧ ' ' ∉ key ∧
        r.execute arith name args =
          (.ok ("Stored: ".toList ++ key ++ " = ".toList ++ value),
            { r with memory := r.memory.insert key value }) := by
  unfold execute
  cases ht : r.tools[name]? with
  | none => exact Or.inl rfl
  | some tool =>
    cases tool with
    | calculator => exact Or.inl rfl
    | memoryRecall => exact Or.inl rfl
    | echo => exact Or.inl rfl
    | memoryStore =>
      rcases cut_or_whole ' ' args with ⟨key, value, rfl, hk⟩ | hw
      · exact Or.inr ⟨key, value, rfl, rfl, hk, execMemoryStore_cut r value hk⟩
      · exact Or.inl (by simp only [execMemoryStore_whole r hw])

theorem execute_tools (arith : Arith) (r : ToolRegistry) (name args : Str) :
    (r.execute arith name args).2.tools = r.tools := by
  rcases execute_cases arith r name args with h | ⟨key, value, _, _, _, h⟩ <;> rw [h]

def Complete (r : ToolRegistry) : Prop := ∀ tool : BuiltinTool, r.tools[tool.name]? = some tool

theorem builtin_complete : Complete builtin := by
  intro tool
  cases tool <;> rfl

theorem complete_of_tools {r : ToolRegistry} (h : r.tools = builtin.tools) : Complete r := by
  unfold Complete
  rw [h]
  exact builtin_complete

/-- A registry that `new`, registrations and returning calls can produce. -/
inductive Reachable (arith : Arith) : ToolRegistry → Prop where
  | new : Reachable arith new
  | register {r : ToolRegistry} (h : Reachable arith r) (tool : BuiltinTool) :
      Reachable arith (r.register tool)
  | execute {r : ToolRegistry} (h : Reachable arith r) (name args : Str)
      (returns : (r.execute arith name args).1 ≠ .panic) :
      Reachable arith (r.execute arith name args).2

theorem builtin_reachable (arith : Arith) : Reachable arith builtin :=
  .register (.register (.register (.register .new _) _) _) _

/-- No stored key has a space, because the store parser cuts there. -/
def KeysBare (r : ToolRegistry) : Prop := ∀ k v : Str, r.memory[k]? = some v → ' ' ∉ k

theorem KeysBare.execute {r : ToolRegistry} (h : KeysBare r) (arith : Arith) (name args : Str) :
    KeysBare (r.execute arith name args).2 := by
  rcases execute_cases arith r name args with he | ⟨key, value, _, _, hk, he⟩
  · rw [he]
    exact h
  · rw [he]
    intro k v hv
    change (r.memory.insert key value)[k]? = some v at hv
    rw [get_insert] at hv
    split_ifs at hv with heq
    · exact heq ▸ hk
    · exact h k v hv

theorem Reachable.keysBare {arith : Arith} {r : ToolRegistry} (h : Reachable arith r) :
    KeysBare r := by
  induction h with
  | new =>
    intro k v hv
    change (∅ : BTreeMap Str)[k]? = some v at hv
    rw [Std.TreeMap.getElem?_emptyc] at hv
    cases hv
  | register _ _ ih => exact ih
  | execute _ name args _ ih => exact ih.execute arith name args

theorem execute_store (arith : Arith) {r : ToolRegistry} (hc : Complete r) (args : Str) :
    r.execute arith "store".toList args = r.execMemoryStore args := by
  have ht : r.tools["store".toList]? = some .memoryStore := hc .memoryStore
  simp only [execute, ht]

theorem execute_recall (arith : Arith) {r : ToolRegistry} (hc : Complete r) (args : Str) :
    r.execute arith "recall".toList args = (r.execMemoryRecall args, r) := by
  have ht : r.tools["recall".toList]? = some .memoryRecall := hc .memoryRecall
  simp only [execute, ht]

theorem execMemoryRecall_eq_ok_iff (r : ToolRegistry) (args reply : Str) :
    r.execMemoryRecall args = .ok reply ↔
      ∃ v, r.memory[trim args]? = some v ∧ reply = trim args ++ " = ".toList ++ v := by
  simp only [execMemoryRecall]
  cases h : r.memory[trim args]? with
  | none => simp only [reduceCtorEq, false_and, exists_false]
  | some v =>
    simp only [Outcome.ok.injEq, Option.some.injEq, exists_eq_left']
    exact eq_comm

theorem reply_inj {k k' v v' : Str} (hk : ' ' ∉ k) (hk' : ' ' ∉ k')
    (h : k ++ " = ".toList ++ v = k' ++ " = ".toList ++ v') : k = k' ∧ v = v' := by
  rw [List.append_assoc, List.append_assoc] at h
  have hcut := cut_unique hk hk' h
  exact ⟨hcut.1, List.append_cancel_left hcut.2⟩

/-- Neither end of the key is a character that a recall trims. -/
def EndsBare (key : Str) : Prop :=
  (∀ c, key.head? = some c → isWhitespace c = false) ∧
    ∀ c, key.getLast? = some c → isWhitespace c = false

theorem recallable_iff {r : ToolRegistry} (hb : KeysBare r) {k v : Str}
    (hv : r.memory[k]? = some v) :
    (∃ a, r.execMemoryRecall a = .ok (k ++ " = ".toList ++ v)) ↔ EndsBare k := by
  unfold EndsBare
  rw [← trim_eq_self_iff]
  constructor
  · rintro ⟨a, ha⟩
    obtain ⟨v', hv', he⟩ := (execMemoryRecall_eq_ok_iff r a _).1 ha
    have hkey := (reply_inj (hb k v hv) (hb _ v' hv') he).1
    rw [hkey, trim_trim]
  · intro ht
    exact ⟨k, (execMemoryRecall_eq_ok_iff r k _).2 ⟨v, by rw [ht, hv], by rw [ht]⟩⟩

theorem recall_own_key_iff {r : ToolRegistry} (hb : KeysBare r) {k v : Str}
    (hv : r.memory[k]? = some v) :
    r.execMemoryRecall k = .ok (k ++ " = ".toList ++ v) ↔ EndsBare k := by
  constructor
  · intro h
    exact (recallable_iff hb hv).1 ⟨k, h⟩
  · intro h
    have ht := (trim_eq_self_iff k).2 h
    exact (execMemoryRecall_eq_ok_iff r k _).2 ⟨v, by rw [ht, hv], by rw [ht]⟩

/-- An acknowledged store can be recalled under its own key, and an entry of a
reachable memory can be recalled at all, exactly when the key has bare ends. -/
theorem store_recall_iff {arith : Arith} {r : ToolRegistry} (hr : Reachable arith r)
    (hc : Complete r) :
    (∀ s reply r', r.execute arith "store".toList s = (.ok reply, r') →
      ∃ k v, s = k ++ ' ' :: v ∧ ' ' ∉ k ∧
        ((r'.execute arith "recall".toList k).1 = .ok (k ++ " = ".toList ++ v) ↔ EndsBare k)) ∧
      ∀ k v : Str, r.memory[k]? = some v →
        ((∃ a, (r.execute arith "recall".toList a).1 = .ok (k ++ " = ".toList ++ v)) ↔
          EndsBare k) := by
  constructor
  · intro s reply r' hs
    rw [execute_store arith hc] at hs
    rcases cut_or_whole ' ' s with ⟨k, v, rfl, hk⟩ | hw
    · have hbare := hr.keysBare.execute arith "store".toList (k ++ ' ' :: v)
      rw [execute_store arith hc, execMemoryStore_cut r v hk] at hbare
      rw [execMemoryStore_cut r v hk] at hs
      simp only [Prod.mk.injEq] at hs
      obtain ⟨_, rfl⟩ := hs
      refine ⟨k, v, rfl, hk, ?_⟩
      rw [execute_recall arith (show Complete { r with memory := r.memory.insert k v } from hc)]
      exact recall_own_key_iff hbare (by rw [get_insert, if_pos rfl])
    · rw [execMemoryStore_whole r hw] at hs
      simp at hs
  · intro k v hv
    simp only [execute_recall arith hc]
    exact recallable_iff hr.keysBare hv

theorem store_recall_iff_pi :
    ∃ k v, "pi 3.14".toList = k ++ ' ' :: v ∧ ' ' ∉ k ∧
      (((builtin.execute .checked "store".toList "pi 3.14".toList).2.execute .checked
        "recall".toList k).1 = .ok (k ++ " = ".toList ++ v) ↔ EndsBare k) :=
  (store_recall_iff (builtin_reachable .checked) builtin_complete).1 _
    "Stored: pi = 3.14".toList _ (by rfl)

/-- A key with a leading tab is acknowledged and lost: the recall looks for the
key without the tab. -/
theorem store_tab_key_lost :
    let stored := builtin.execute .checked "store".toList "\tx v".toList
    stored.1 = .ok "Stored: \tx = v".toList ∧
      (stored.2.execute .checked "recall".toList "\tx".toList).1 =
        .err "Key 'x' not found in memory".toList ∧
      stored.2.memory["\tx".toList]? = some "v".toList ∧
      ∀ a, (stored.2.execute .checked "recall".toList a).1 ≠ .ok "\tx = v".toList := by
  refine ⟨by decide, by decide, by decide, ?_⟩
  intro a ha
  have hbare := (builtin_reachable .checked).keysBare.execute .checked "store".toList
    "\tx v".toList
  have hcomplete : Complete (builtin.execute .checked "store".toList "\tx v".toList).2 :=
    complete_of_tools (execute_tools _ _ _ _)
  rw [execute_recall .checked hcomplete] at ha
  have hends := (recallable_iff hbare (k := "\tx".toList) (v := "v".toList) (by decide)).1 ⟨a, ha⟩
  have htab := hends.1 '\t' (by decide)
  exact absurd htab (by decide)

end ToolRegistry
end LlmOs.Tools
