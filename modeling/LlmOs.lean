import LlmOs.Agent
import LlmOs.AgentBudget
import LlmOs.AgentMemory
import LlmOs.AgentTranscript
import LlmOs.AtomicPrint
import LlmOs.BootAllocation
import LlmOs.BootConfig
import LlmOs.BootFrameAllocator
import LlmOs.BootHandOff
import LlmOs.BootMemoryMap
import LlmOs.BootPaging
import LlmOs.BootPrinter
import LlmOs.BootReservation
import LlmOs.BootedKernel
import LlmOs.CalculatorGrammar
import LlmOs.CalculatorRange
import LlmOs.ContextEviction
import LlmOs.ContextWindow
import LlmOs.DecimalText
import LlmOs.FrameAllocator
import LlmOs.HeapInit
import LlmOs.HeapThreshold
import LlmOs.InterruptLocks
import LlmOs.KernelLoader
import LlmOs.KernelLocks
import LlmOs.KernelOutput
import LlmOs.KernelProgram
import LlmOs.Level4Entries
import LlmOs.LoadedKernel
import LlmOs.LoadedSegment
import LlmOs.Ownership
import LlmOs.PagedText
import LlmOs.PartialRun
import LlmOs.PhysicalWindow
import LlmOs.RecallReplies
import LlmOs.RetainedSuffix
import LlmOs.RustInt
import LlmOs.RustText
import LlmOs.TokenAccounting
import LlmOs.ToolMemory
import LlmOs.ToolRegistry
import LlmOs.ToolText
import LlmOs.ToolTurns
import LlmOs.UsableMemory
import LlmOs.VgaBuffer
import LlmOs.VgaTerminal
import LlmOs.WhitespaceTokens
import LlmOs.WindowComparison
import LlmOs.WrappedText
