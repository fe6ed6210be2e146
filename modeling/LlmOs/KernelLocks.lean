import LlmOs.KernelProgram

set_option autoImplicit false

/-!
# The kernel's locks

The programs of the kernel without their texts, as `InterruptLocks` sees them:
`kernel_main` and the two hardware interrupt handlers pass the check, so none of
them ever waits for a lock that it has interrupted.
-/
namespace LlmOs.Kernel
open RustText InterruptLocks
open AtomicPrint (Prog)

def shared : Finset Lock := {.writer, .pics, .keyboard}

/-- Agent code runs with interrupts on and holds no lock between its parts. -/
theorem AgentCode.leads (agent : AgentCode) :
    Leads shared Finset.univ agent.code.locking ⟨true, ∅⟩ ⟨true, ∅⟩ := by
  induction agent with
  | compute => exact leads_of_check rfl
  | heapCall => exact leads_of_check rfl
  | print => exact leads_of_check rfl
  | serialPrintln => exact leads_of_check rfl
  | panic => exact ⟨none, rfl, fun w hw => by cases hw⟩
  | seq first second ihfirst ihsecond => exact ihfirst.seq ihsecond
  | choice left right ihleft ihright => exact ihleft.choice ihright
  | loop body ih => exact ih.loop

theorem handler_checked : ∀ handler ∈ Prog.locking '' handlers,
    check shared shared handler ⟨false, ∅⟩ = some (some ⟨false, ∅⟩) := by
  rintro _ ⟨handler, rfl | ⟨character, key, rfl⟩, rfl⟩
  · rfl
  · rfl

theorem kernel_checked (info : PanicInfo) (agent : AgentCode) :
    Checked shared (kernelMain info agent).locking (Prog.locking '' handlers) := by
  have hbanner : Leads shared Finset.univ banner.locking ⟨false, ∅⟩ ⟨false, ∅⟩ :=
    leads_of_check rfl
  have hphase1 : Leads shared Finset.univ (phase1 info.offset).locking ⟨false, ∅⟩ ⟨true, ∅⟩ :=
    leads_of_check rfl
  have hphase2 : Leads shared Finset.univ (phase2 info.heap).locking ⟨true, ∅⟩ ⟨true, ∅⟩ :=
    leads_of_check rfl
  have hprint (args : Str) : Leads shared Finset.univ (println args).locking ⟨true, ∅⟩ ⟨true, ∅⟩ :=
    leads_of_check rfl
  have hserial (args : Str) :
      Leads shared Finset.univ (serialPrintln args).locking ⟨true, ∅⟩ ⟨true, ∅⟩ :=
    leads_of_check rfl
  have hhalt : Leads shared Finset.univ (sequence [hltLoop]).locking ⟨true, ∅⟩ ⟨true, ∅⟩ :=
    ⟨none, rfl, fun w hw => by cases hw⟩
  have hmain : Leads shared Finset.univ (kernelMain info agent).locking ⟨false, ∅⟩ ⟨true, ∅⟩ :=
    hbanner.seq (hphase1.seq (hphase2.seq ((hprint _).seq ((hprint _).seq ((hprint _).seq
      ((hserial _).seq (agent.leads.seq ((hprint _).seq ((hprint _).seq
        ((hserial _).seq hhalt))))))))))
  refine ⟨?_, ?_⟩
  · obtain ⟨e, he, _⟩ := hmain
    exact ⟨e, he⟩
  · intro handler hhandler
    exact ⟨_, handler_checked handler hhandler, fun v hv => by cases hv; rfl⟩

/-- In every state that the kernel can reach, whatever the agent code and however
the timer and the keyboard interrupt it, the lock that the running context is
about to take is held by nobody: neither by itself nor by a context it has
interrupted. -/
theorem no_self_deadlock (info : PanicInfo) (agent : AgentCode) {s : State Lock}
    (h : Reachable (kernelMain info agent).locking (Prog.locking '' handlers) s) {l : Lock}
    (ha : s.Attempts l) : s.holder l = none :=
  h.free_of_attempts (kernel_checked info agent) ha

/-- `Agent::boot` as `kernel_main` calls it: nothing is evicted. -/
def agentBoot : AgentCode :=
  .boot [] [] "[agent] System prompt loaded (51 tokens used)".toList
    "[agent] 4 tools registered: [\"calc\", \"echo\", \"recall\", \"store\"]".toList
    "  Tools: 4".toList "  Context: 51/4096 tokens".toList

/-- Up to the lock of `init_heap`, then a key arrives and is decoded. -/
def keySchedule : List Move :=
  List.replicate 66 (.go false) ++ .go true :: List.replicate 14 (.go false) ++
    .interrupt 1 :: List.replicate 6 (.go false) ++ .go true :: List.replicate 3 (.go false)

def keySources : List (Cmd Lock) :=
  [timerInterruptHandler.locking, (keyboardInterruptHandler 'a' []).locking]

theorem keySources_handlers : ∀ handler ∈ keySources, handler ∈ Prog.locking '' handlers := by
  simp only [keySources, List.forall_mem_cons]
  exact ⟨⟨_, .inl rfl, rfl⟩, ⟨_, .inr ⟨_, _, rfl⟩, rfl⟩, fun _ h => by cases h⟩

theorem no_self_deadlock_key :
    ∃ s, Reachable (kernelMain ⟨[], []⟩ agentBoot).locking (Prog.locking '' handlers) s ∧
      s.holder .allocator = some 0 ∧ s.holder .keyboard = some 1 ∧ s.Attempts .writer ∧
      s.holder .writer = none := by
  have hreach : Reachable (kernelMain ⟨[], []⟩ agentBoot).locking (Prog.locking '' handlers) _ :=
    run_steps keySources_handlers keySchedule rfl
  exact ⟨_, hreach, rfl, rfl, ⟨_, _, _, rfl⟩,
    no_self_deadlock ⟨[], []⟩ agentBoot hreach ⟨_, _, _, rfl⟩⟩

end LlmOs.Kernel
