import RegisterMachine.Instruction

namespace RegisterMachine

inductive Fault where
  | addressOutside (address : BitVec 16) (size : Nat)
  | unknownOpcode (instruction : Instruction)
  | instructionOutside (index : BitVec 32) (size : Nat)
  | divisionByZero (dividend : Int)
  | quotientOverflow
  | unmappedCall (number : BitVec 32)
  /-- A system call of the host gives up with a message of its own. -/
  | raised (message : String)
deriving DecidableEq

def Fault.message : Fault → String
  | addressOutside address size =>
    "Error: Address " ++ hex address.toNat ++ " is outside of an address space of size " ++
      hex size ++ "."
  | unknownOpcode instruction =>
    "Error: Instruction " ++ hexWide 16 instruction.bits.toNat ++ " has unknown opcode " ++
      hex instruction.codeBits.toNat ++ "."
  | instructionOutside index size =>
    "Error: Instruction " ++ decimal index.toNat ++ " is outside of a program of " ++
      decimal size ++ " instructions."
  | divisionByZero dividend => "Error: Division of " ++ signedDecimal dividend ++ " by zero."
  | quotientOverflow => "attempt to divide with overflow"
  | unmappedCall number =>
    "Error: No system call is mapped to number " ++ decimal number.toNat ++ "."
  | raised message => message

end RegisterMachine
