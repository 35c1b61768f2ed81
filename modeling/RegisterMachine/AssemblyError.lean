import RegisterMachine.Numeral
import RegisterMachine.Opcode

namespace RegisterMachine

inductive Cause where
  | unknownMnemonic (mnemonic : String)
  | tooManyArguments (op : Opcode) (given : Nat)
  | badArgument (contents : String)
  | badInteger (literal : String)
  | badFloat (literal : String)
  | badRegister (name : String)
  | unknownLabel (reference : String)
  | duplicateLabel (name : String)
  | argumentTooWide (value : BitVec 32)
deriving DecidableEq

def Cause.message : Cause → String
  | unknownMnemonic mnemonic => mnemonic ++ " is not an operation."
  | tooManyArguments op given =>
    op.name ++ " takes at most " ++ decimal op.maxArguments ++ " arguments but was given " ++
      decimal given ++ "."
  | badArgument contents => "cannot parse argument `" ++ contents ++ "`."
  | badInteger literal => "`" ++ literal ++ "` is not a 32 bit integer."
  | badFloat literal => "`" ++ literal ++ "` is not a 32 bit float."
  | badRegister name => "`" ++ name ++ "` is not a register."
  | unknownLabel reference => "no label named `" ++ reference ++ "`."
  | duplicateLabel name => "label `" ++ name ++ "` is already defined."
  | argumentTooWide value => decimal value.toNat ++ " does not fit in a 16 bit argument."

/-- A cause with the number of its line, counted from 1 over all lines of the listing. -/
structure AssemblyError where
  line : Nat
  cause : Cause
deriving DecidableEq

def AssemblyError.message (e : AssemblyError) : String :=
  "Error on line " ++ decimal e.line ++ ": " ++ e.cause.message

end RegisterMachine
