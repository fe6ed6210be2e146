import LlmOs.KernelLocks
import LlmOs.VgaTerminal

set_option autoImplicit false

/-!
# What the kernel prints

What `kernel_main`, the hardware interrupt handlers and the exception handlers put
on the screen and on the serial port. By `KernelLocks` a print never waits, and
from there every output is a sequence of whole messages. An exception may come
inside a print, and before the kernel has loaded its table of handlers.
-/
namespace LlmOs.Kernel
open RustText AtomicPrint InterruptLocks Vga WrappedText

/-- In every state that the kernel can reach, whatever the agent code and however
the timer and the keyboard interrupt it, the screen and the serial port have been
given whole messages, in the order of a run in which each print is one step. What
else is there is the beginning of the message that the running context is printing
under its lock; a handler never starts inside a message. The writer takes it all,
and while nobody prints the screen shows the whole messages. Every such run is a
run of the kernel. -/
theorem prints_stay_whole (info : PanicInfo) (agent : AgentCode) :
    (∀ s, AtomicPrint.Reachable (kernelMain info agent) handlers s →
      ∃ a, AtomicReachable (kernelMain info agent) handlers a ∧
        (∀ l, ∃ written rest, s.log l = spoken a.log l ++ written ∧
          (s.holder l = none ∨ s.flag = true → written = []) ∧
          (written ≠ [] → a.Prints l (written ++ rest))) ∧
        ∀ w : Writer, w.columnPosition = 0 → ∃ v, w.writeBytes (s.log .writer) = some v ∧
          (s.holder .writer = none → Writer.Shows w v
            (layout BUFFER_WIDTH isBreak ((spoken a.log .writer).map glyph)))) ∧
    ∀ a, AtomicReachable (kernelMain info agent) handlers a →
      AtomicPrint.Reachable (kernelMain info agent) handlers a.device := by
  refine ⟨fun s h => ?_, fun a h => h.realized⟩
  obtain ⟨a, ha, hm⟩ := h.simulated
  refine ⟨a, ha, hm.log_eq, fun w hcol => ?_⟩
  obtain ⟨v, hrun, hshows⟩ := Writer.shows_writeBytes hcol (s.log .writer)
  refine ⟨v, hrun, fun hfree => ?_⟩
  obtain ⟨written, rest, hlog, hwhole, _⟩ := hm.log_eq .writer
  rw [hwhole (.inl hfree), List.append_nil] at hlog
  rwa [← hlog]

/-- A print of the kernel is not waiting for its lock: from where it has cleared
the interrupt flag there is one way on, which puts the whole text out and restores
the flag. -/
theorem print_runs_to_end (info : PanicInfo) (agent : AgentCode) {s s' : Device Lock UInt8}
    (h : AtomicPrint.Reachable (kernelMain info agent) handlers s) {l : Lock} {text : List UInt8}
    {k : List (Instr Lock UInt8)} {saved : Bool} {below : List (List (Instr Lock UInt8) × Bool)}
    (hs : s.stack = (.prog (.print l text) :: k, saved) :: below) :
    After handlers (text.length + 4)
        ⟨false, s.holder, s.log, (.taking l text :: .prog (.setFlag s.flag) :: k, saved) :: below⟩
        s' ↔
      s' = ⟨s.flag, s.holder, Function.update s.log l (s.log l ++ text), (k, saved) :: below⟩ := by
  obtain ⟨flag, holder, log, stack⟩ := s
  dsimp only at hs ⊢
  subst hs
  have hfree : holder l = none :=
    Reachable.free_of_taking (kernel_checked info agent) (h.tail .clear) rfl
  exact after_taking_iff hfree

theorem print_runs_to_end_banner :
    ∃ s s', AtomicPrint.Reachable (kernelMain ⟨[], []⟩ .compute) handlers s ∧ s.log .writer = [] ∧
      After handlers (35 + 4) s s' ∧ s'.log .writer = utf8 "==================================\n".toList ∧
      s'.holder .writer = none := by
  have hreach : AtomicPrint.Reachable (kernelMain ⟨[], []⟩ .compute) handlers _ :=
    .tail (.tail .refl (.basic .seq)) (.basic .seq)
  have hafter := (print_runs_to_end ⟨[], []⟩ .compute hreach rfl).2 rfl
  exact ⟨_, _, hreach.tail .clear, rfl, hafter, rfl, rfl⟩

/-- The bytes of a report, line by line. -/
def lines (report : List (Lock × Str)) : List (Lock × List UInt8) :=
  report.map (fun m => (m.1, utf8 (m.2 ++ ['\n'])))

namespace Exception

def report : Exception → List (Lock × Str)
  | .breakpoint stackFrame => [(.writer, "EXCEPTION: BREAKPOINT\n".toList ++ stackFrame)]
  | .pageFault accessed errorCode stackFrame =>
    [(.writer, "EXCEPTION: PAGE FAULT".toList), (.writer, "Accessed Address: ".toList ++ accessed),
      (.writer, "Error Code: ".toList ++ errorCode), (.writer, stackFrame)]
  | .doubleFault info =>
    [(.writer, "KERNEL PANIC: ".toList ++ info), (.serial1, "KERNEL PANIC: ".toList ++ info)]

def messages (e : Exception) : List (Lock × List UInt8) := lines e.report

/-- The exception starts its handler, and the handler gives the whole report. -/
def Reported (e : Exception) (table : Bool) (s : Device Lock UInt8) : Prop :=
  ∃ t s', s.raise table e.handler = some t ∧
    Relation.ReflTransGen (AtomicPrint.Step handlers) t s' ∧
    ∀ l, s'.log l = s.log l ++ spoken e.messages l

theorem handler_eq (e : Exception) :
    e.handler = reports e.messages .skip ∨ e.handler = reports e.messages (.seq .halt .skip) := by
  cases e with
  | breakpoint => exact .inl rfl
  | pageFault => exact .inr rfl
  | doubleFault => exact .inr rfl

theorem messages_ne_nil (e : Exception) : ∀ m ∈ e.messages, m.2 ≠ [] := by
  intro m hm
  obtain ⟨m', _, rfl⟩ := List.mem_map.1 hm
  simp [utf8, String.utf8EncodeChar_ne_nil]

theorem messages_lock (e : Exception) : ∀ m ∈ e.messages, m.1 = .writer ∨ m.1 = .serial1 := by
  cases e <;> simp [messages, lines, report]

end Exception

theorem AgentCode.spares (agent : AgentCode) {l : Lock} (hl : l = .writer ∨ l = .serial1) :
    agent.code.Spares l := by
  induction agent with
  | compute => trivial
  | heapCall => rcases hl with rfl | rfl <;> simp [AgentCode.code, Kernel.heapCall, guarded, Prog.Spares]
  | print => trivial
  | serialPrintln => trivial
  | panic => exact ⟨trivial, trivial, trivial, trivial⟩
  | seq first second ihfirst ihsecond => exact ⟨ihfirst, ihsecond⟩
  | choice left right ihleft ihright => exact ⟨ihleft, ihright⟩
  | loop body ih => exact ih

theorem kernelMain_spares (info : PanicInfo) (agent : AgentCode) {l : Lock}
    (hl : l = .writer ∨ l = .serial1) : (kernelMain info agent).Spares l := by
  have hagent := agent.spares hl
  rcases hl with rfl | rfl <;>
    simpa [kernelMain, banner, phase1, phase2, init, initHeap, panicHandler, hltLoop, sequence,
      guarded, println, print, serialPrintln, Prog.Spares] using hagent

theorem handlers_spare {l : Lock} (hl : l = .writer ∨ l = .serial1) :
    ∀ handler ∈ handlers, handler.Spares l := by
  rintro handler (rfl | ⟨character, key, rfl⟩) <;> rcases hl with rfl | rfl <;>
    simp [timerInterruptHandler, keyboardInterruptHandler, sequence, guarded, print, Prog.Spares]

theorem kernelMain_loadsBefore (info : PanicInfo) (agent : AgentCode) :
    (kernelMain info agent).LoadsBefore False := trivial

def bannerLines : List (Lock × Str) :=
  [(.writer, "==================================".toList), (.writer, "  LLM OS v0.1.0".toList),
    (.writer, "  An AI-First Operating System".toList),
    (.writer, "==================================".toList),
    (.serial1, "[kernel] Booting LLM OS...".toList)]

theorem banner_eq : banner = reports (lines bannerLines) .skip := rfl

section
variable {holder : Holders Lock} {log : Lock → List UInt8} {k : List (Instr Lock UInt8)}
  {saved : Bool} {below : List (List (Instr Lock UInt8) × Bool)}

theorem banner_steps (hwriter : holder .writer = none) (hserial : holder .serial1 = none) :
    Relation.ReflTransGen (AtomicPrint.Step handlers)
      ⟨false, holder, log, (.prog banner :: k, saved) :: below⟩
      ⟨false, holder, fun l => log l ++ spoken (lines bannerLines) l,
        (.prog .skip :: k, saved) :: below⟩ := by
  rw [banner_eq]
  apply reports_steps
  simp only [lines, bannerLines, List.map_cons, List.map_nil, List.forall_mem_cons]
  exact ⟨hwriter, hwriter, hwriter, hwriter, hserial, fun _ h => by cases h⟩

theorem init_steps (hpics : holder .pics = none) :
    Relation.ReflTransGen (AtomicPrint.Step handlers)
      ⟨false, holder, log, (.prog init :: k, saved) :: below⟩
      ⟨true, holder, log, (k, saved) :: below⟩ := by
  have hfree : Function.update (Function.update holder .pics (some below.length)) .pics none =
      holder := by
    rw [Function.update_idem, ← hpics, Function.update_eq_self]
  have hlock : Relation.ReflTransGen (AtomicPrint.Step handlers)
      ⟨false, holder, log, (.prog init :: k, saved) :: below⟩ _ :=
    .tail (.tail (.tail (.tail (.tail (.tail (.tail .refl (.basic .seq)) (.basic .skip))
      (.basic .seq)) (.basic .loadTable)) (.basic .seq)) (.basic .seq)) (.basic (.lock hpics))
  have hend := (((((hlock.tail (.basic .seq)).tail (.basic .skip)).tail (.basic .unlock)).tail
    (.basic .seq)).tail (.basic .setFlag)).tail (.basic .skip)
  rwa [hfree] at hend

end

end LlmOs.Kernel
