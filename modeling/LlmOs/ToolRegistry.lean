import LlmOs.RustInt

set_option autoImplicit false

/-! The agent's "syscall table", `agent/tools.rs`. Both maps are ordered by the
code points of their keys, which is the byte order of UTF-8. -/
namespace LlmOs.Tools
open RustText RustInt

abbrev BTreeMap (V : Type) := Std.TreeMap Str V compare

inductive BuiltinTool where
  | calculator
  | memoryStore
  | memoryRecall
  | echo
  deriving DecidableEq, Repr

def BuiltinTool.name : BuiltinTool → Str
  | .calculator => "calc".toList
  | .memoryStore => "store".toList
  | .memoryRecall => "recall".toList
  | .echo => "echo".toList

/-- How a call ends: a result, a reported error, or a panic that stops the kernel. -/
inductive Outcome (α : Type) where
  | ok (result : α)
  | err (message : Str)
  | panic
  deriving DecidableEq

def Outcome.ofOption {α : Type} : Option α → Outcome α
  | some a => .ok a
  | none => .panic

def Outcome.map {α β : Type} (f : α → β) : Outcome α → Outcome β
  | .ok a => .ok (f a)
  | .err message => .err message
  | .panic => .panic

def Outcome.result? {α : Type} : Outcome α → Option α
  | .ok a => some a
  | _ => none

structure ToolRegistry where
  tools : BTreeMap BuiltinTool
  memory : BTreeMap Str

/-- The arithmetic of `exec_calculator` once both operands are parsed. -/
def calculate (arith : Arith) (a : I64) (op : Str) (b : I64) : Outcome I64 :=
  if op = "+".toList then .ofOption (arith.add a b)
  else if op = "-".toList then .ofOption (arith.sub a b)
  else if op = "*".toList then .ofOption (arith.mul a b)
  else if op = "/".toList then
    if b.val = 0 then .err "Division by zero".toList else .ofOption (arith.div a b)
  else .err ("Unknown operator: ".toList ++ op ++ " (use +, -, *, /)".toList)

def resultLine (a : I64) (op : Str) (b : I64) (result : ℤ) : Str :=
  intText a.val ++ " ".toList ++ op ++ " ".toList ++ intText b.val ++ " = ".toList ++ intText result

def execCalculator (arith : Arith) (expr : Str) : Outcome Str :=
  match splitWhitespace (trim expr) with
  | [left, op, right] =>
    match parseI64 left with
    | none => .err ("Invalid number: ".toList ++ left)
    | some a =>
      match parseI64 right with
      | none => .err ("Invalid number: ".toList ++ right)
      | some b => (calculate arith a op b).map (fun result => resultLine a op b result.val)
  | _ => .err "Usage: /tool calc <num> <op> <num> (e.g., /tool calc 42 + 7)".toList

/-- `Debug` of a list of names. The names are ASCII words, so nothing is escaped. -/
def debugNames (names : List Str) : Str :=
  "[".toList ++ ", ".toList.intercalate (names.map (fun n => '"' :: n ++ ['"'])) ++ "]".toList

namespace ToolRegistry

def new : ToolRegistry := ⟨∅, ∅⟩

def register (r : ToolRegistry) (tool : BuiltinTool) : ToolRegistry :=
  { r with tools := r.tools.insert tool.name tool }

def toolNames (r : ToolRegistry) : List Str := r.tools.keys

def execMemoryStore (r : ToolRegistry) (args : Str) : Outcome Str × ToolRegistry :=
  match splitn ' ' 2 args with
  | [key, value] =>
    (.ok ("Stored: ".toList ++ key ++ " = ".toList ++ value),
      { r with memory := r.memory.insert key value })
  | _ => (.err "Usage: /tool store <key> <value>".toList, r)

def execMemoryRecall (r : ToolRegistry) (args : Str) : Outcome Str :=
  let key := trim args
  match r.memory[key]? with
  | some value => .ok (key ++ " = ".toList ++ value)
  | none => .err ("Key '".toList ++ key ++ "' not found in memory".toList)

def execute (arith : Arith) (r : ToolRegistry) (name args : Str) : Outcome Str × ToolRegistry :=
  match r.tools[name]? with
  | none => (.err ("Unknown tool '".toList ++ name ++ "'. Available: ".toList ++
      debugNames r.toolNames), r)
  | some .calculator => (execCalculator arith args, r)
  | some .memoryStore => r.execMemoryStore args
  | some .memoryRecall => (r.execMemoryRecall args, r)
  | some .echo => (.ok ("[echo] ".toList ++ args), r)

def builtin : ToolRegistry :=
  (((new.register .calculator).register .memoryStore).register .memoryRecall).register .echo

end ToolRegistry
end LlmOs.Tools
