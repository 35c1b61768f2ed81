import RegisterMachine.Command

namespace RegisterMachine.Command

/-- Set to put out every step of a run. -/
def tracing : Bool := false

/-- How many steps are taken before what they printed is written. -/
def stepsAtOnce : Nat := 4096

/-- The wording of a file system error, with its number. -/
def osMessage : IO.Error → String
  | .noFileOrDirectory _ _ _ => DiskError.missing.message
  | .inappropriateType _ code _ =>
    if code = 21 then DiskError.isDirectory.message else DiskError.notDirectory.message
  | .permissionDenied _ code details | .resourceExhausted _ code details
  | .invalidArgument _ code details
  | .otherError code details => details ++ " (os error " ++ decimal code.toNat ++ ")"
  | e => toString e

/-- What an action gives, or why it failed. -/
def attempt {α : Type} (action : IO α) : IO (Except String α) := do
  try
    return .ok (← action)
  catch e => return .error (osMessage e)

/-- Prints what a run has put out so far, and goes on until it ends. -/
partial def proceed (step : Action Word Unit) (progress : Machine.Progress Word) :
    IO (Machine.Progress Word) := do
  IO.print (outputText progress.machine)
  match progress with
  | .unfinished m => proceed step ({ m with output := #[] }.resume step stepsAtOnce)
  | ended => return ended

/-- The real file system, on which a run has no limit. -/
def world : World IO where
  read path := do
    let contents ← attempt (IO.FS.readBinFile path)
    return contents.map (·.toList)
  write path bytes := attempt (IO.FS.writeBinFile path ⟨bytes.toArray⟩)
  print text := IO.print text
  complain text := IO.eprint text
  run traced m :=
    proceed (if traced then Machine.tracedStep else Machine.step) (progressOf traced stepsAtOnce m)

/-- The status that the command ends with, for which a fault is put into words. -/
def statusOf : Ending → IO UInt32
  | .exited status => return status.toUInt32
  | .faulted fault => do
    IO.eprintln fault.message
    return 101
  | .unfinished => return 101

end RegisterMachine.Command

def main (arguments : List String) : IO UInt32 := do
  match RegisterMachine.Options.ofArguments? arguments with
  | some options =>
    RegisterMachine.Command.statusOf (← RegisterMachine.Command.runOptions
      RegisterMachine.Command.world RegisterMachine.Command.tracing options)
  | none =>
    IO.eprintln "usage: [PROGRAM] [--binary] [--emit PATH] [--stack-size N]"
    return 2
