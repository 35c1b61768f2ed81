import RegisterMachine.Command

namespace RegisterMachine.Command

def endingOf : Machine.Progress Word → Ending
  | .halted _ => .exited 0
  | .faulted fault _ => .faulted fault
  | .unfinished _ => .unfinished

/-- The registers are printed only after a run that halted. -/
def closingOf : Machine.Progress Word → String
  | .halted m => closing m
  | _ => ""

/-- What a loaded program comes to, printed and run. -/
def executed (traced : Bool) (limit : Nat) (options : Options) (program : Program) : Outcome :=
  let (ending, session) :=
    execute (Session.world limit) traced options program ⟨.empty, "", ""⟩
  ⟨ending, session.stdout, session.stderr⟩

theorem execute_eq (traced : Bool) (limit : Nat) (options : Options) (program : Program)
    (s : Session) :
    execute (Session.world limit) traced options program s =
      (endingOf (progressOf traced limit (machine options program)),
        { s with
          stdout := s.stdout ++ heading traced program ++
            outputText (progressOf traced limit (machine options program)).machine ++
            closingOf (progressOf traced limit (machine options program)) }) := by
  simp only [execute, Session.world, bind, StateT.bind]
  cases progressOf traced limit (machine options program) with
  | halted m => rfl
  | faulted fault m =>
    simp only [endingOf, closingOf, String.append_empty]
    rfl
  | unfinished m =>
    simp only [endingOf, closingOf, String.append_empty]
    rfl

theorem executed_eq (traced : Bool) (limit : Nat) (options : Options) (program : Program) :
    executed traced limit options program =
      ⟨endingOf (progressOf traced limit (machine options program)),
        heading traced program ++
          outputText (progressOf traced limit (machine options program)).machine ++
          closingOf (progressOf traced limit (machine options program)), ""⟩ := by
  simp only [executed, execute_eq, String.empty_append]

/-- The program that is loaded from a disk. -/
def loaded (options : Options) (disk : Disk) : Except String Program :=
  (load (Session.world 0) options ⟨disk, "", ""⟩).1

theorem load_eq (limit : Nat) (options : Options) (s : Session) :
    load (Session.world limit) options s = (loaded options s.disk, s) := by
  unfold loaded load
  cases options.program with
  | none =>
    generalize (Program.ofListing demo).mapError AssemblyError.message = program
    rfl
  | some path => rfl

theorem loaded_of_read {options : Options} {disk : Disk} {path : String} {contents : List UInt8}
    {program : Program} (hpath : options.program = some path)
    (hread : disk.read path = .ok contents)
    (hprogram : programOf options.binary contents = .ok program) :
    loaded options disk = .ok program := by
  unfold loaded load
  rw [hpath]
  show (((disk.read path).mapError _).bind (programOf options.binary)).mapError _ = _
  rw [hread]
  show (programOf options.binary contents).mapError _ = _
  rw [hprogram]
  rfl

section

variable {options : Options} {program : Program} {disk : Disk} {path : String}

theorem emit_of_none (h : options.emit = none) (limit : Nat) (s : Session) :
    emit (Session.world limit) options program s = (.ok (), s) := by
  rw [emit, h]
  rfl

theorem emit_of_write {written : Disk} (hpath : options.emit = some path)
    (hwrite : disk.write path program.toBytes = .ok written) (limit : Nat) (out err : String) :
    emit (Session.world limit) options program ⟨disk, out, err⟩ =
      (.ok (), ⟨written, out, err⟩) := by
  simp only [emit, hpath, Session.world, bind, StateT.bind, hwrite]
  rfl

theorem emit_of_write_error {e : DiskError} (hpath : options.emit = some path)
    (hwrite : disk.write path program.toBytes = .error e) (limit : Nat) (out err : String) :
    emit (Session.world limit) options program ⟨disk, out, err⟩ =
      (.error (complaint path e.message), ⟨disk, out, err⟩) := by
  simp only [emit, hpath, Session.world, bind, StateT.bind, hwrite]
  rfl

end

theorem run_of_emit {arguments : List String} {options : Options} {disk written : Disk}
    {program : Program} {limit : Nat}
    (harguments : Options.ofArguments? arguments = some options)
    (hload : loaded options disk = .ok program)
    (hemit : emit (Session.world limit) options program ⟨disk, "", ""⟩ =
      (.ok (), ⟨written, "", ""⟩)) (traced : Bool) :
    run traced limit arguments disk = (executed traced limit options program, written) := by
  simp only [run, harguments, runOptions, bind, StateT.bind, load_eq, hload, hemit, execute_eq,
    executed]

theorem run_of_emit_error {arguments : List String} {options : Options} {disk : Disk}
    {program : Program} {message : String} {limit : Nat}
    (harguments : Options.ofArguments? arguments = some options)
    (hload : loaded options disk = .ok program)
    (hemit : emit (Session.world limit) options program ⟨disk, "", ""⟩ =
      (.error message, ⟨disk, "", ""⟩)) (traced : Bool) :
    run traced limit arguments disk = (⟨.exited 1, "", message ++ "\n"⟩, disk) := by
  simp only [run, harguments, runOptions, bind, StateT.bind, load_eq, hload, hemit]
  rfl

theorem run_of_load_error {arguments : List String} {options : Options} {disk : Disk}
    {message : String} (harguments : Options.ofArguments? arguments = some options)
    (hload : loaded options disk = .error message) (traced : Bool) (limit : Nat) :
    run traced limit arguments disk = (⟨.exited 1, "", message ++ "\n"⟩, disk) := by
  simp only [run, harguments, runOptions, bind, StateT.bind, load_eq, hload]
  rfl

/-- A program is loaded and emitted, and then run, or the command prints nothing. Neither depends on
whether the run is traced and how long it may take. -/
theorem run_cases (arguments : List String) (disk : Disk) :
    (∃ options program written, ∀ traced limit,
      run traced limit arguments disk = (executed traced limit options program, written)) ∨
    ∃ outcome, outcome.stdout = "" ∧
      ∀ traced limit, run traced limit arguments disk = (outcome, disk) := by
  cases harguments : Options.ofArguments? arguments with
  | none => exact .inr ⟨⟨.exited 2, "", ""⟩, rfl, fun _ _ => by rw [run, harguments]⟩
  | some options =>
    cases hload : loaded options disk with
    | error message =>
      exact .inr ⟨_, rfl, fun traced limit => run_of_load_error harguments hload traced limit⟩
    | ok program =>
      cases hpath : options.emit with
      | none =>
        exact .inl ⟨options, program, disk, fun traced limit =>
          run_of_emit harguments hload (emit_of_none hpath limit _) traced⟩
      | some path =>
        cases hwrite : disk.write path program.toBytes with
        | ok written =>
          exact .inl ⟨options, program, written, fun traced limit =>
            run_of_emit harguments hload (emit_of_write hpath hwrite limit "" "") traced⟩
        | error e =>
          exact .inr ⟨_, rfl, fun traced limit =>
            run_of_emit_error harguments hload (emit_of_write_error hpath hwrite limit "" "")
              traced⟩

/-- Of the options only the size of the stack matters once the program is loaded. -/
theorem executed_congr {options other : Options}
    (h : other.stackSize.getD Machine.defaultStackSize =
      options.stackSize.getD Machine.defaultStackSize)
    (traced : Bool) (limit : Nat) (program : Program) :
    executed traced limit other program = executed traced limit options program := by
  have hmachine : machine other program = machine options program := by
    rw [machine, machine, h]
  simp only [executed_eq, hmachine]

end RegisterMachine.Command
