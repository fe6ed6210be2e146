import LlmOs.Agent

set_option autoImplicit false

/-! The agent's memory over whole conversations. What a key recalls is decided by
the latest input that stores under it, and by nothing else in the conversation:
the window, the other tools and every failed call leave it alone. -/
namespace LlmOs.AgentRuntime
open RustText RustInt Context Tools

def storePrefix (k : Str) : Str := "/tool store ".toList ++ k ++ " ".toList

/-- The value that an input stores under `k`, if it is such a call. -/
def storedValue (k input : Str) : Option Str :=
  if ' ' ∉ k ∧ startsWith input (storePrefix k) then some (input.drop (storePrefix k).length)
  else none

def lastStored (k : Str) (inputs : List Str) : Option Str :=
  (inputs.filterMap (storedValue k)).getLast?

theorem storedValue_eq_some_iff (k input v : Str) :
    storedValue k input = some v ↔ ' ' ∉ k ∧ input = storePrefix k ++ v := by
  unfold storedValue
  constructor
  · intro h
    split_ifs at h with hc
    obtain ⟨hk, hs⟩ := hc
    obtain ⟨rest, rfl⟩ := (startsWith_iff _ _).1 hs
    simp only [List.drop_left, Option.some.injEq] at h
    exact ⟨hk, by rw [h]⟩
  · rintro ⟨hk, rfl⟩
    rw [if_pos ⟨hk, startsWith_append _ _⟩, List.drop_left]

theorem lastStored_concat (k : Str) (inputs : List Str) (input : Str) :
    lastStored k (inputs ++ [input]) = (storedValue k input).or (lastStored k inputs) := by
  unfold lastStored
  rw [List.filterMap_append, List.getLast?_append]
  congr 1
  cases h : storedValue k input <;> simp [h]

theorem CallsTool.unique {input name args name' args' : Str} (h : CallsTool input name args)
    (h' : CallsTool input name' args') : name = name' ∧ args = args' := by
  obtain ⟨hname, hargs⟩ := h.parts
  obtain ⟨hname', hargs'⟩ := h'.parts
  rw [hname] at hname'
  rw [hargs] at hargs'
  exact ⟨hname', hargs'⟩

theorem storePrefix_append (k v : Str) :
    storePrefix k ++ v = "/tool ".toList ++ ("store".toList ++ ' ' :: (k ++ ' ' :: v)) := by
  have hhead : "/tool store ".toList = "/tool ".toList ++ ("store".toList ++ [' ']) := by decide
  unfold storePrefix
  rw [hhead, show " ".toList = [' '] from rfl]
  simp only [List.append_assoc, List.cons_append, List.nil_append]

theorem callsTool_store (k v : Str) :
    CallsTool (storePrefix k ++ v) "store".toList (k ++ ' ' :: v) :=
  ⟨by decide, Or.inl (storePrefix_append k v)⟩

theorem callsTool_recall (a : Str) :
    CallsTool ("/tool recall ".toList ++ a) "recall".toList a :=
  ⟨by decide, Or.inl (by simp)⟩

/-- A turn changes the registry only through the tool call that it makes. -/
theorem Effect.registry {p : Platform} {s s' : Session} {input : Str} {response : Option Str}
    (h : Effect p s input response s') :
    (startsWith input "/tool ".toList = false ∧ s'.agent.toolRegistry = s.agent.toolRegistry) ∨
      ∃ name args, CallsTool input name args ∧
        s'.agent.toolRegistry = (s.agent.toolRegistry.execute p.arith name args).2 := by
  cases h with
  | plain hplain => exact Or.inl ⟨hplain, rfl⟩
  | toolOk hcall hexec | toolErr hcall hexec | toolPanic hcall hexec =>
    refine Or.inr ⟨_, _, hcall, ?_⟩
    rw [hexec]
    rfl

theorem Effect.tools {p : Platform} {s s' : Session} {input : Str} {response : Option Str}
    (h : Effect p s input response s') :
    s'.agent.toolRegistry.tools = s.agent.toolRegistry.tools := by
  rcases h.registry with ⟨_, h⟩ | ⟨name, args, _, h⟩
  · rw [h]
  · rw [h, ToolRegistry.execute_tools]

theorem builtin_tool {name : Str} {tool : BuiltinTool}
    (h : ToolRegistry.builtin.tools[name]? = some tool) : name = tool.name := by
  simp only [ToolRegistry.builtin, ToolRegistry.register, ToolRegistry.get_insert] at h
  split_ifs at h with hecho hrecall hstore hcalc
  · cases h
    exact hecho.symm
  · cases h
    exact hrecall.symm
  · cases h
    exact hstore.symm
  · cases h
    exact hcalc.symm
  · change (∅ : BTreeMap BuiltinTool)[name]? = _ at h
    rw [Std.TreeMap.getElem?_emptyc] at h
    cases h

theorem callsTool_stored {input key value : Str}
    (h : CallsTool input "store".toList (key ++ ' ' :: value)) : input = storePrefix key ++ value := by
  rcases h.2 with hin | ⟨_, hargs⟩
  · rw [hin, storePrefix_append]
  · simp at hargs

theorem Effect.memory {p : Platform} {s s' : Session} {input : Str} {response : Option Str}
    (h : Effect p s input response s')
    (ht : s.agent.toolRegistry.tools = ToolRegistry.builtin.tools) (k : Str) :
    s'.agent.toolRegistry.memory[k]? =
      (storedValue k input).or s.agent.toolRegistry.memory[k]? := by
  have hc := ToolRegistry.complete_of_tools ht
  cases hs : storedValue k input with
  | some v =>
    obtain ⟨hk, rfl⟩ := (storedValue_eq_some_iff k input v).1 hs
    rcases h.registry with ⟨hplain, _⟩ | ⟨name, args, hcall, hr⟩
    · rw [(callsTool_store k v).startsWith] at hplain
      cases hplain
    · obtain ⟨rfl, rfl⟩ := hcall.unique (callsTool_store k v)
      rw [hr, ToolRegistry.execute_store p.arith hc, ToolRegistry.execMemoryStore_cut _ v hk]
      change (Std.TreeMap.insert _ k v)[k]? = some v
      rw [ToolRegistry.get_insert, if_pos rfl]
  | none =>
    change _ = s.agent.toolRegistry.memory[k]?
    rcases h.registry with ⟨_, hr⟩ | ⟨name, args, hcall, hr⟩
    · rw [hr]
    · rcases ToolRegistry.execute_cases p.arith s.agent.toolRegistry name args with
        hsame | ⟨key, value, hname, rfl, hkey, hstore⟩
      · rw [hr, hsame]
      · rw [ht] at hname
        obtain rfl := builtin_tool hname
        have hother := (storedValue_eq_some_iff key input value).2 ⟨hkey, callsTool_stored hcall⟩
        have hne : key ≠ k := by
          rintro rfl
          rw [hs] at hother
          cases hother
        rw [hr, hstore]
        change (Std.TreeMap.insert _ key value)[k]? = _
        rw [ToolRegistry.get_insert, if_neg hne]

theorem Conversation.tools {p : Platform} {turns : List Turn} {s : Session}
    (h : Conversation p turns s) : s.agent.toolRegistry.tools = ToolRegistry.builtin.tools := by
  induction h with
  | start => rfl
  | @turn _ s _ input _ _ returns ih =>
    have heffect := effect_of_processInput returns
    rw [heffect.tools, ih]

theorem Conversation.memory {p : Platform} {turns : List Turn} {s : Session}
    (h : Conversation p turns s) (k : Str) :
    s.agent.toolRegistry.memory[k]? = lastStored k (turns.map Turn.input) := by
  induction h with
  | start => exact Std.TreeMap.getElem?_emptyc
  | @turn _ s _ input _ hconv returns ih =>
    have heffect := effect_of_processInput returns
    rw [heffect.memory hconv.tools k, ih, List.map_append]
    exact (lastStored_concat k _ input).symm

/-- The response to a recall, read off the registry's memory. -/
def recallResponse (memory : BTreeMap Str) (a : Str) : Str :=
  match memory[trim a]? with
  | some v => trim a ++ " = ".toList ++ v
  | none => "Tool error: Key '".toList ++ trim a ++ "' not found in memory".toList

theorem Conversation.processInput_recall {p : Platform} {turns : List Turn} {s : Session}
    (h : Conversation p turns s) (a : Str) :
    (s.processInput p ("/tool recall ".toList ++ a)).1 =
      some (recallResponse s.agent.toolRegistry.memory a) := by
  have hc := ToolRegistry.complete_of_tools h.tools
  have hexec := ToolRegistry.execute_recall p.arith hc a
  unfold Session.processInput recallResponse
  rw [respond_tool p _ (callsTool_recall a),
    show (s.push .user _).agent.toolRegistry = s.agent.toolRegistry from rfl, hexec,
    ToolRegistry.execMemoryRecall]
  cases s.agent.toolRegistry.memory[trim a]? with
  | some v => rfl
  | none => rfl

/-- The agent's memory is a last-writer-wins map over whole conversations. -/
theorem recall_last_writer (p : Platform) {turns : List Turn} {s : Session}
    (h : Conversation p turns s) (a : Str) :
    (s.processInput p ("/tool recall ".toList ++ a)).1 =
      some (match lastStored (trim a) (turns.map Turn.input) with
        | some v => trim a ++ " = ".toList ++ v
        | none => "Tool error: Key '".toList ++ trim a ++ "' not found in memory".toList) := by
  rw [h.processInput_recall, recallResponse, h.memory]

theorem recall_last_writer_paris :
    let p : Platform := ⟨.checked, fun _ _ => "1.3".toList⟩
    let reply := "Stored: capital_france = Paris".toList
    ∃ s, Conversation p [⟨"/tool store capital_france Paris".toList, some reply, reply⟩] s ∧
      (s.processInput p "/tool recall  capital_france\n".toList).1 =
        some "capital_france = Paris".toList := by
  intro p reply
  have hturn : Conversation p
      ([] ++ [⟨"/tool store capital_france Paris".toList, some reply, reply⟩]) _ := .turn .start rfl
  exact ⟨_, hturn, recall_last_writer p hturn " capital_france\n".toList⟩

end LlmOs.AgentRuntime
