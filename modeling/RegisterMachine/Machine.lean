import RegisterMachine.Program
import RegisterMachine.Register
import RegisterMachine.SystemCall

namespace RegisterMachine

/-- What is put out in the course of a run. -/
inductive Event where
  /-- A line printed by a system call. -/
  | printed (line : String)
  /-- An instruction about to be executed, with the index it was fetched from. -/
  | fetched (index : BitVec 32) (instruction : Instruction)
  /-- The display of the machine at that moment. -/
  | snapshot (display : String)
deriving DecidableEq

structure Machine (σ : Type) where
  program : Program
  calls : CallTable σ
  registers : Space
  stack : Space
  /-- The index of the next instruction to fetch. -/
  counter : BitVec 32
  running : Bool
  output : Array Event

/-- Something the machine does; after a fault it stays in the state reached then. -/
abbrev Action (σ : Type) (α : Type) := EStateM Fault (Machine σ) α

namespace Machine

variable {σ : Type}

/-- How many words of stack a machine has unless told otherwise. -/
def defaultStackSize : Nat := 1024

/-- A machine at rest before the first instruction, all words zero. -/
def load (program : Program) (calls : CallTable σ) (stackSize : Nat) : Machine σ where
  program := program
  calls := calls
  registers := .zeros Register.count
  stack := .zeros stackSize
  counter := 0
  running := false
  output := #[]

/-- The word in the stack pointer; zero if there is no such register. -/
def pointer (m : Machine σ) : Word :=
  (m.registers.get? Register.sp.index).getD .zero

def emit (event : Event) : Action σ Unit :=
  modify fun m => { m with output := m.output.push event }

def readRegister (address : BitVec 16) : Action σ Word := fun m =>
  match m.registers.get? address with
  | some w => .ok w m
  | none => .error (m.registers.outside address) m

def writeRegister (address : BitVec 16) (w : Word) : Action σ Unit := fun m =>
  if h : address.toNat < m.registers.size then
    .ok () { m with registers := m.registers.set address w h }
  else .error (m.registers.outside address) m

def readStack (address : BitVec 16) : Action σ Word := fun m =>
  match m.stack.get? address with
  | some w => .ok w m
  | none => .error (m.stack.outside address) m

def writeStack (address : BitVec 16) (w : Word) : Action σ Unit := fun m =>
  if h : address.toNat < m.stack.size then
    .ok () { m with stack := m.stack.set address w h }
  else .error (m.stack.outside address) m

/-- Puts a word where the stack pointer points, then moves the pointer up. -/
def push (w : Word) : Action σ Unit := do
  let sp ← readRegister Register.sp.index
  writeStack sp.address w
  writeRegister Register.sp.index sp.next

/-- Moves the stack pointer down, then takes the word it points to. -/
def pop : Action σ Word := do
  let sp ← readRegister Register.sp.index
  writeRegister Register.sp.index sp.previous
  readStack sp.previous.address

def jump (target : BitVec 32) : Action σ Unit :=
  modify fun m => { m with counter := target }

/-- Combines the registers of the first two arguments into that of the third. -/
def combine (i : Instruction) (f : Word → Word → Except Fault Word) : Action σ Unit := do
  let a ← readRegister i.arg0
  let b ← readRegister i.arg1
  match f a b with
  | .ok w => writeRegister i.arg2 w
  | .error fault => throw fault

def arithmetic (i : Instruction) (f : Word → Word → Word) : Action σ Unit :=
  combine i fun a b => .ok (f a b)

/-- Compares the signed views of two registers. -/
def comparison (i : Instruction) (f : Int → Int → Bool) : Action σ Unit :=
  combine i fun a b => .ok (Word.ofBool (f a.toInt b.toInt))

/-- Looks at the second register only if the first, as a truth value, is not `decisive`. -/
def connective (i : Instruction) (decisive : Bool) : Action σ Unit := do
  let a ← readRegister i.arg0
  if a.toBool = decisive then writeRegister i.arg2 (Word.ofBool decisive)
  else
    let b ← readRegister i.arg1
    writeRegister i.arg2 (Word.ofBool b.toBool)

def invoke (number : BitVec 32) : Action σ Unit := fun m =>
  let called := m.calls.invoke number m.registers m.stack
  let after :=
    { m with
      calls := called.calls
      registers := called.registers
      stack := called.stack
      output := m.output ++ called.printed.map .printed }
  match called.fault with
  | none => .ok () after
  | some fault => .error fault after

/-- The effect of an instruction with a known operation code. -/
def perform (i : Instruction) : Opcode → Action σ Unit
  | .noop => pure ()
  | .halt => modify fun m => { m with running := false }
  | .jmp => jump i.longArg
  | .cond => do
    let test ← readRegister i.arg2
    if test.toBool then jump i.longArg
  | .li => writeRegister i.arg2 ⟨i.longArg⟩
  | .addi => arithmetic i .add
  | .subi => arithmetic i .sub
  | .muli => arithmetic i .mul
  | .divi => combine i Word.div
  | .icri => do
    let a ← readRegister i.arg0
    writeRegister i.arg2 a.next
  | .dcri => do
    let a ← readRegister i.arg0
    writeRegister i.arg2 a.previous
  | .eqi => comparison i fun a b => a = b
  | .neqi => comparison i fun a b => a ≠ b
  | .lti => comparison i fun a b => a < b
  | .ltei => comparison i fun a b => a ≤ b
  | .gti => comparison i fun a b => b < a
  | .gtei => comparison i fun a b => b ≤ a
  | .shli => arithmetic i .shiftLeft
  | .shri => arithmetic i .shiftRight
  | .andb => arithmetic i .bitAnd
  | .orb => arithmetic i .bitOr
  | .xorb => arithmetic i .bitXor
  | .or => connective i true
  | .and => connective i false
  | .push => do
    let a ← readRegister i.arg0
    push a
  | .pop => do
    let w ← pop
    writeRegister i.arg0 w
  | .call => do
    let m ← get
    push ⟨m.counter⟩
    jump i.longArg
  | .ret => do
    let w ← pop
    jump w.bits
  | .sys => invoke i.longArg

def execute (i : Instruction) : Action σ Unit :=
  match i.opcode? with
  | some op => perform i op
  | none => throw (.unknownOpcode i)

/-- Takes the instruction at the counter and moves the counter past it. -/
def fetch : Action σ Instruction := fun m =>
  match m.program.get m.counter with
  | .ok i => .ok i { m with counter := m.counter + 1 }
  | .error fault => .error fault m

def step : Action σ Unit := do
  let i ← fetch
  execute i

/-- Where a run has got to. -/
inductive Progress (σ : Type) where
  | halted (m : Machine σ)
  | faulted (fault : Fault) (m : Machine σ)
  | unfinished (m : Machine σ)

def Progress.machine : Progress σ → Machine σ
  | halted m => m
  | faulted _ m => m
  | unfinished m => m

/-- Takes steps of the given kind, at most `limit` of them, as long as the machine runs. -/
def resume (step : Action σ Unit) : Nat → Machine σ → Progress σ
  | 0, m => if m.running then .unfinished m else .halted m
  | limit + 1, m =>
    if m.running then
      match step m with
      | .ok _ next => resume step limit next
      | .error fault next => .faulted fault next
    else .halted m

/-- The machine set to its first instruction. Registers and stack keep their words. -/
def start (m : Machine σ) : Machine σ :=
  { m with counter := 0, running := true }

/-- Runs the program from its first instruction, at most `limit` steps. -/
def run (limit : Nat) (m : Machine σ) : Progress σ :=
  resume step limit m.start

end Machine

end RegisterMachine
