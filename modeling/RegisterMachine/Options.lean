import RegisterMachine.Numeral

namespace RegisterMachine

structure Options where
  program : Option String
  binary : Bool
  emit : Option String
  stackSize : Option Nat
deriving DecidableEq

namespace Options

/-- The options before any argument. -/
def unset : Options := ⟨none, false, none, none⟩

/-- An integer from 0 to 65535 with an optional sign. -/
def size? (text : String) : Option Nat :=
  let value : Option Int :=
    match text.toList with
    | '+' :: digits => (decimalValue? digits).map Int.ofNat
    | '-' :: digits => (decimalValue? digits).map fun n => -(n : Int)
    | digits => (decimalValue? digits).map Int.ofNat
  value.bind fun n => if 0 ≤ n ∧ n < 0x10000 then some n.toNat else none

/-- A path is any text but the empty one. -/
def setProgram (o : Options) (path : String) : Option Options :=
  if path.isEmpty || o.program.isSome then none else some { o with program := some path }

def setEmit (o : Options) (path : String) : Option Options :=
  if path.isEmpty || o.emit.isSome then none else some { o with emit := some path }

def setStackSize (o : Options) (text : String) : Option Options :=
  if o.stackSize.isSome then none
  else (size? text).map fun size => { o with stackSize := some size }

def setBinary (o : Options) : Option Options :=
  if o.binary then none else some { o with binary := true }

/-- The setting that the option with this name makes of its value. -/
def setting? : String → Option (Options → String → Option Options)
  | "--emit" => some setEmit
  | "--stack-size" => some setStackSize
  | _ => none

/-- Whether an argument can only be an option; a dash alone is a path. -/
def isFlag (argument : String) : Bool :=
  argument.toList.head? == some '-' && argument != "-"

/-- An option and the value attached to it by `=`. -/
def splitValue (argument : String) : String × Option String :=
  let name := argument.toList.takeWhile (· ≠ '=')
  match argument.toList.dropWhile (· ≠ '=') with
  | [] => (argument, none)
  | _ :: value => (String.ofList name, some (String.ofList value))

/-- Adds arguments behind a double dash, of which none is an option. -/
def addPaths (o : Options) : List String → Option Options
  | [] => some o
  | path :: rest => (o.setProgram path).bind fun o => addPaths o rest

/-- Adds arguments one by one; there is no result if any of them is out of place. -/
def addArguments (o : Options) : List String → Option Options
  | [] => some o
  | "--" :: rest => o.addPaths rest
  | "--binary" :: rest => o.setBinary.bind fun o => addArguments o rest
  | argument :: rest =>
    if isFlag argument then
      match splitValue argument, rest with
      | (name, some value), rest =>
        (setting? name).bind fun set => (set o value).bind fun o => addArguments o rest
      | (_, none), [] => none
      | (name, none), value :: rest =>
        if isFlag value then none
        else (setting? name).bind fun set => (set o value).bind fun o => addArguments o rest
    else (o.setProgram argument).bind fun o => addArguments o rest

def ofArguments? (arguments : List String) : Option Options :=
  unset.addArguments arguments

end Options

end RegisterMachine
