import RegisterMachine.Machine
import RegisterMachine.SpaceTable

namespace RegisterMachine

namespace Machine

variable {σ : Type}

/-- How many words of the stack lie below the stack pointer. -/
def depth (m : Machine σ) : Nat :=
  m.pointer.address.toNat

/-- The registers beside the occupied part of the stack. -/
def table (m : Machine σ) : Table where
  titles := ⟨.left "Registers", .left "Stack"⟩
  rows := [⟨⟨.left, m.registers.registerTable.lines⟩, ⟨.left, (m.stack.table 'S' m.depth).lines⟩⟩]

def text (m : Machine σ) : String :=
  "Counter: " ++ decimal m.counter.toNat ++ "\t" ++ (if m.running then "Running" else "Halted") ++
    "\n" ++ m.table.text

def emitSnapshot : Action σ Unit := do
  let m ← get
  emit (.snapshot m.text)

/-- A step that puts out the instruction before and the machine after it. By then the counter has
moved on, so that the instruction was fetched one below it. -/
def tracedStep : Action σ Unit := do
  let i ← fetch
  let m ← get
  emit (.fetched (m.counter - 1) i)
  execute i
  emitSnapshot

/-- A run that puts out the machine before the first step, and then every step. -/
def tracedRun (limit : Nat) (m : Machine σ) : Progress σ :=
  let started := m.start
  resume tracedStep limit { started with output := started.output.push (.snapshot started.text) }

end Machine

/-- An event as it appears in the output, with its line feed. -/
def Event.text : Event → String
  | printed line => line ++ "\n"
  | fetched index instruction =>
    let number := decimal index.toNat
    String.ofList (number.toList.leftpad 6 ' ') ++ ": " ++ instruction.text ++ "\n"
  | snapshot display => display ++ "\n"

/-- The lines printed by system calls, in order. -/
def Event.printedLine? : Event → Option String
  | printed line => some line
  | _ => none

end RegisterMachine
