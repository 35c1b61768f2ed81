import RegisterMachine.Argument
import RegisterMachine.Program

namespace RegisterMachine

namespace Instruction

/-- The value at a place narrowed to 16 bits; a value that is not given is zero. -/
def narrow (values : List (BitVec 32)) (place : Nat) : Except Cause (BitVec 16) :=
  let value := values[place]?.getD 0
  if value.toNat < 0x10000 then .ok (value.setWidth 16) else .error (.argumentTooWide value)

/-- The instruction with the given argument values. -/
def ofValues (op : Opcode) (values : List (BitVec 32)) : Except Cause Instruction :=
  if op.maxArguments < values.length then .error (.tooManyArguments op values.length)
  else if op.isLong then do
    let arg2 ← narrow values 1
    return long op (values[0]?.getD 0) arg2
  else do
    let arg0 ← narrow values 0
    let arg1 ← narrow values 1
    let arg2 ← narrow values 2
    return short op arg0 arg1 arg2

/-- The values of arguments divided by commas. -/
def argumentValues (labels : Labels) (tail : List Char) : Except Cause (List (BitVec 32)) :=
  (tail.splitOn ',').mapM fun piece => do (← Argument.ofText (trim piece)).value labels

/-- An operation is a mnemonic, alone or followed by a blank and its arguments. -/
def ofOperation (labels : Labels) (text : List Char) : Except Cause Instruction :=
  let (mnemonic, tail) := splitAtBlank text
  match Opcode.ofMnemonic? (String.ofList mnemonic) with
  | none => .error (.unknownMnemonic (String.ofList mnemonic))
  | some op =>
    if tail.isEmpty then .ok (bare op)
    else do ofValues op (← argumentValues labels tail)

end Instruction

namespace Program

def ofLines (lines : List Line) : Except AssemblyError Program := do
  let labels ← Labels.ofLines lines
  let instructions ← (lines.filterMap Line.operation?).mapM fun (text, number) =>
    (Instruction.ofOperation labels text).mapError fun cause => AssemblyError.mk number cause
  return ofList instructions

def ofListing (listing : String) : Except AssemblyError Program :=
  ofLines (Line.ofListing listing.toList)

end Program

end RegisterMachine
