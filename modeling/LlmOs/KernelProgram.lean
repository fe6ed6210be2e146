import LlmOs.AtomicPrint
import LlmOs.RustText

set_option autoImplicit false

/-!
# The kernel's programs

`kernel_main`, the handlers of `interrupts.rs` and the panic handler as programs
over the five spin locks, with the texts they print as the bytes that go to the
screen (`WRITER`) and to the serial port (`SERIAL1`). A `MutexGuard` is held for
the statement or the block that owns it. Everything that neither locks nor prints
nor touches the interrupt flag is `skip`; where the course of the program depends
on it, both branches are there.
-/
namespace LlmOs.Kernel
open RustText AtomicPrint

inductive Lock where
  | writer | serial1 | pics | keyboard | allocator
  deriving DecidableEq, Repr

instance : Fintype Lock where
  elems := {.writer, .serial1, .pics, .keyboard, .allocator}
  complete := by
    intro l
    cases l <;> decide

abbrev Code := Prog Lock UInt8

def utf8 (s : Str) : List UInt8 := s.flatMap String.utf8EncodeChar

def guarded (l : Lock) (body : Code) : Code := .seq (.lock l) (.seq body (.unlock l))

def sequence (cmds : List Code) : Code := cmds.foldr .seq .skip

/-- `vga_buffer::_print`, behind `print!` and `println!`. -/
def print (args : Str) : Code := .print .writer (utf8 args)

def println (args : Str) : Code := print (args ++ ['\n'])

/-- `serial::_print`, behind `serial_println!`. -/
def serialPrintln (args : Str) : Code := .print .serial1 (utf8 (args ++ ['\n']))

def hltLoop : Code := .halt

def panicHandler (info : Str) : Code :=
  sequence [println ("KERNEL PANIC: ".toList ++ info),
    serialPrintln ("KERNEL PANIC: ".toList ++ info), hltLoop]

/-- `llm_os::init`: GDT, IDT, PIC, and then interrupts on. -/
def init : Code := sequence [.skip, .loadTable, guarded .pics .skip, .setFlag true]

def heapCall : Code := guarded .allocator .skip

/-- `init_heap(..).expect(..)`: the pages, then the allocator, or a panic. -/
def initHeap (info : Str) : Code :=
  sequence [.loop .skip, .choice (guarded .allocator .skip) (panicHandler info)]

/-- What agent code is made of: computation, heap calls, prints and panics. A text
that is computed on the way is one of many codes. -/
inductive AgentCode where
  | compute
  | heapCall
  | print (args : Str)
  | serialPrintln (args : Str)
  | panic (info : Str)
  | seq (first second : AgentCode)
  | choice (left right : AgentCode)
  | loop (body : AgentCode)

namespace AgentCode

def code : AgentCode → Code
  | .compute => .skip
  | .heapCall => Kernel.heapCall
  | .print args => Kernel.print args
  | .serialPrintln args => Kernel.serialPrintln args
  | .panic info => panicHandler info
  | .seq first second => .seq first.code second.code
  | .choice left right => .choice left.code right.code
  | .loop body => .loop body.code

/-- Heap calls in any number; an allocation that fails panics. -/
def heapWork (info : Str) : AgentCode := .loop (.seq .heapCall (.choice .compute (.panic info)))

/-- `push_message`: an eviction is reported before the message is dropped. -/
def pushMessage (info evicted : Str) : AgentCode :=
  .seq (.loop (.seq (.serialPrintln evicted) (heapWork info))) (heapWork info)

/-- `Agent::boot`, with the lines that it computes. The tool names are collected
before they are printed. -/
def boot (info evicted loaded registered tools context : Str) : AgentCode :=
  .seq (.serialPrintln "[agent] Booting agent...".toList) (.seq (pushMessage info evicted)
    (.seq (.serialPrintln loaded) (.seq (heapWork info) (.seq (heapWork info)
      (.seq (.serialPrintln registered) (.seq (heapWork info)
        (.seq (.print (tools ++ ['\n'])) (.print (context ++ ['\n'])))))))))

end AgentCode

/-- What the two panics of `kernel_main` report. -/
structure PanicInfo where
  offset : Str
  heap : Str

def banner : Code :=
  sequence [println "==================================".toList, println "  LLM OS v0.1.0".toList,
    println "  An AI-First Operating System".toList,
    println "==================================".toList,
    serialPrintln "[kernel] Booting LLM OS...".toList]

def phase1 (info : Str) : Code :=
  sequence [init, serialPrintln "[kernel] GDT, IDT, PIC initialized".toList,
    .choice (panicHandler info) .skip]

def phase2 (info : Str) : Code :=
  sequence [.skip, .skip, initHeap info, serialPrintln "[kernel] Heap allocator initialized".toList]

/-- `kernel_main`, with the agent code in place of `Agent::new()` and `boot()`. -/
def kernelMain (info : PanicInfo) (agent : AgentCode) : Code :=
  sequence [banner, phase1 info.offset, phase2 info.heap,
    println [], println "Hardware initialized.".toList, println "Starting Agent runtime...".toList,
    serialPrintln "[kernel] Starting Agent runtime...".toList,
    agent.code,
    println [], println "Agent is alive. Entering run loop.".toList,
    serialPrintln "[kernel] Agent run loop started".toList,
    hltLoop]

def timerInterruptHandler : Code := guarded .pics .skip

/-- With what the key decodes to, if it does: a character or the name of a key. The
guard of `KEYBOARD` lives to the end of the handler. -/
def keyboardInterruptHandler (character : Char) (key : Str) : Code :=
  guarded .keyboard (sequence
    [.skip, .choice .skip (.choice (print [character]) (print key)), guarded .pics .skip])

def handlers : Set Code :=
  insert timerInterruptHandler {p | ∃ character key, p = keyboardInterruptHandler character key}

/-- The exceptions of `interrupts.rs` with what their handlers show of them; a
double fault panics, and `info` is what the panic reports. -/
inductive Exception where
  | breakpoint (stackFrame : Str)
  | pageFault (accessed errorCode stackFrame : Str)
  | doubleFault (info : Str)

def Exception.handler : Exception → Code
  | .breakpoint stackFrame => sequence [println ("EXCEPTION: BREAKPOINT\n".toList ++ stackFrame)]
  | .pageFault accessed errorCode stackFrame =>
    sequence [println "EXCEPTION: PAGE FAULT".toList,
      println ("Accessed Address: ".toList ++ accessed),
      println ("Error Code: ".toList ++ errorCode), println stackFrame, hltLoop]
  | .doubleFault info => panicHandler info

end LlmOs.Kernel
