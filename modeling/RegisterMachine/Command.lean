import RegisterMachine.Assembly
import RegisterMachine.Disk
import RegisterMachine.HostCall
import RegisterMachine.Options
import RegisterMachine.Trace

namespace RegisterMachine.Command

/-- The program that is run if none is given. -/
def demo : String :=
  "\n_main:\n   li 2i, $gpr1\n   li 8i, $gpr2\n   call @_add\n   sys 0i\n   jmp @exit\n" ++
    "_add:\n   addi $gpr1, $gpr2, $gpr1\n   ret\nexit:\n   halt\n"

/-- Call 0 prints the first general register as an integer, call 1 as a float. -/
def calls : CallTable Word :=
  (CallTable.empty.insert 0 HostCall.printInteger.toSystemCall).insert 1
    HostCall.printFloat.toSystemCall

/-- The program in the contents of a file, or what is wrong with them. -/
def programOf (binary : Bool) (contents : List UInt8) : Except String Program :=
  if binary then (Program.ofBytes contents).mapError Misaligned.message
  else
    match String.fromUTF8? ⟨contents.toArray⟩ with
    | some listing => (Program.ofListing listing).mapError AssemblyError.message
    | none => .error "stream did not contain valid UTF-8"

/-- A complaint about the file at a path. -/
def complaint (path message : String) : String := path ++ ": " ++ message

/-- What is printed before the run. -/
def heading (traced : Bool) (program : Program) : String :=
  (if traced then "Computation Tracing ENABLED\n" else "") ++ program.text ++ "\n\n"

/-- What is printed after a run that halted. -/
def closing (m : Machine Word) : String :=
  "\n" ++ m.registers.registerTable.text ++ "\n"

def machine (options : Options) (program : Program) : Machine Word :=
  .load program calls (options.stackSize.getD Machine.defaultStackSize)

/-- How the command ended. -/
inductive Ending where
  | exited (status : Nat)
  | faulted (fault : Fault)
  /-- The run did not end within its limit of steps. -/
  | unfinished
deriving DecidableEq

/-- What a run has put out, as text. -/
def outputText (m : Machine Word) : String :=
  String.join (m.output.toList.map Event.text)

/-- Where a run, traced or not, has got to. -/
def progressOf (traced : Bool) (limit : Nat) (m : Machine Word) : Machine.Progress Word :=
  if traced then m.tracedRun limit else m.run limit

/-- What the command asks of the world around it. -/
structure World (m : Type → Type) where
  read : String → m (Except String (List UInt8))
  write : String → List UInt8 → m (Except String Unit)
  print : String → m Unit
  complain : String → m Unit
  /-- Runs a machine, traced or not, and prints what it puts out. -/
  run : Bool → Machine Word → m (Machine.Progress Word)

section

variable {m : Type → Type} [Monad m]

def load (world : World m) (options : Options) : m (Except String Program) :=
  match options.program with
  | none => pure ((Program.ofListing demo).mapError AssemblyError.message)
  | some path => do
    let contents ← world.read path
    pure ((contents.bind (programOf options.binary)).mapError (complaint path))

/-- Writes the byte form of the program where the options say. -/
def emit (world : World m) (options : Options) (program : Program) : m (Except String Unit) :=
  match options.emit with
  | none => pure (.ok ())
  | some path => do
    let written ← world.write path program.toBytes
    pure (written.mapError (complaint path))

/-- Prints a loaded program, runs it and prints the registers. -/
def execute (world : World m) (traced : Bool) (options : Options) (program : Program) :
    m Ending := do
  world.print (heading traced program)
  let progress ← world.run traced (machine options program)
  match progress with
  | .halted last => do
    world.print (closing last)
    pure (.exited 0)
  | .faulted fault _ => pure (.faulted fault)
  | .unfinished _ => pure .unfinished

def refuse (world : World m) (message : String) : m Ending := do
  world.complain (message ++ "\n")
  pure (.exited 1)

/-- The command with its options read. A file that cannot be loaded or written ends it with
status 1, before anything is printed. -/
def runOptions (world : World m) (traced : Bool) (options : Options) : m Ending := do
  match ← load world options with
  | .error message => refuse world message
  | .ok program =>
    match ← emit world options program with
    | .error message => refuse world message
    | .ok () => execute world traced options program

end

/-- A disk and what has been printed so far. -/
structure Session where
  disk : Disk
  stdout : String
  stderr : String

/-- The world of a session, in which a run takes at most `limit` steps. -/
def Session.world (limit : Nat) : World (StateM Session) where
  read path := do
    let s ← get
    pure ((s.disk.read path).mapError DiskError.message)
  write path bytes := fun s =>
    match s.disk.write path bytes with
    | .ok written => (.ok (), { s with disk := written })
    | .error e => (.error e.message, s)
  print text := modify fun s => { s with stdout := s.stdout ++ text }
  complain text := modify fun s => { s with stderr := s.stderr ++ text }
  run traced m := fun s =>
    let progress := progressOf traced limit m
    (progress, { s with stdout := s.stdout ++ outputText progress.machine })

structure Outcome where
  ending : Ending
  stdout : String
  stderr : String
deriving DecidableEq

/-- The whole command on a disk. Arguments out of place end it with status 2. -/
def run (traced : Bool) (limit : Nat) (arguments : List String) (disk : Disk) : Outcome × Disk :=
  match Options.ofArguments? arguments with
  | none => (⟨.exited 2, "", ""⟩, disk)
  | some options =>
    let (ending, session) := runOptions (Session.world limit) traced options ⟨disk, "", ""⟩
    (⟨ending, session.stdout, session.stderr⟩, session.disk)

end RegisterMachine.Command
