import RegisterMachine.Proofs.ByteForm
import RegisterMachine.Proofs.DiskFiles
import RegisterMachine.Proofs.RunSteps
import RegisterMachine.Proofs.TracedRuns

namespace RegisterMachine

namespace Machine

variable {σ : Type} {m : Machine σ}

/-- The run halts or faults after some number of steps. -/
def Ends (m : Machine σ) : Prop :=
  (∃ s, RunsTo m (.halted s)) ∨ ∃ fault s, RunsTo m (.faulted fault s)

def Progress.hasEnded : Progress σ → Bool
  | halted _ | faulted _ _ => true
  | unfinished _ => false

theorem Progress.hasEnded_map (f : Machine σ → Machine σ) (progress : Progress σ) :
    (progress.map f).hasEnded = progress.hasEnded := by
  cases progress <;> rfl

theorem Ends.exists_limit (h : m.Ends) : ∃ limit, (run limit m).hasEnded = true := by
  rcases h with ⟨s, enough, hrun⟩ | ⟨fault, s, enough, hrun⟩
  · exact ⟨enough, by rw [hrun enough (Nat.le_refl enough)]; rfl⟩
  · exact ⟨enough, by rw [hrun enough (Nat.le_refl enough)]; rfl⟩

/-- A run that has ended is not changed by a higher limit. -/
theorem resume_of_le {step : Action σ Unit} {n limit : Nat}
    (h : (resume step n m).hasEnded = true) (hle : n ≤ limit) :
    resume step limit m = resume step n m := by
  induction n generalizing m limit with
  | zero =>
    unfold resume at h
    split at h
    next => cases h
    next hset => cases limit <;> simp [resume, hset]
  | succ n ih =>
    obtain ⟨limit, rfl⟩ := Nat.exists_eq_add_of_le' (Nat.le_trans (Nat.succ_pos n) hle)
    simp only [resume] at h ⊢
    split
    next hset =>
      rw [if_pos hset] at h
      cases hstep : step m with
      | error fault s => rfl
      | ok _ s =>
        rw [hstep] at h
        exact ih h (Nat.le_of_succ_le_succ hle)
    next => rfl

end Machine

namespace Command

/-- What the command comes to on a disk if it is given enough steps. -/
def Yields (traced : Bool) (arguments : List String) (disk : Disk) (outcome : Outcome)
    (after : Disk) : Prop :=
  ∃ enough, ∀ limit, enough ≤ limit → run traced limit arguments disk = (outcome, after)

theorem programOf_toBytes (program : Program) : programOf true program.toBytes = .ok program := by
  rw [programOf, if_pos rfl, Program.ofBytes_toBytes]
  rfl

theorem hasEnded_progressOf {m : Machine Word} (hm : m.Whole) (traced : Bool) (limit : Nat) :
    (progressOf traced limit m).hasEnded = (m.run limit).hasEnded := by
  cases traced with
  | false => rfl
  | true =>
    have htraced := (Machine.run_traces hm limit).1
    rw [progressOf, if_pos rfl, htraced, Machine.Progress.hasEnded_map]

theorem progressOf_of_le {traced : Bool} {n limit : Nat} {m : Machine Word}
    (h : (progressOf traced n m).hasEnded = true) (hle : n ≤ limit) :
    progressOf traced limit m = progressOf traced n m := by
  cases traced with
  | false => exact Machine.resume_of_le h hle
  | true => exact Machine.resume_of_le h hle

/-- If the run of the program ends, the command has an outcome that no higher limit changes. -/
theorem executed_settles {options : Options} {program : Program}
    (h : (machine options program).Ends) (traced : Bool) :
    ∃ outcome enough, outcome.ending ≠ .unfinished ∧
      ∀ limit, enough ≤ limit → executed traced limit options program = outcome := by
  obtain ⟨enough, hrun⟩ := h.exists_limit
  -- A traced run ends within the same limit as the plain one.
  have hended := hasEnded_progressOf (machine_whole options program) traced enough
  rw [hrun] at hended
  refine ⟨executed traced enough options program, enough, ?_, fun limit hle => ?_⟩
  · rw [executed_eq]
    show endingOf (progressOf traced enough (machine options program)) ≠ .unfinished
    cases hprogress : progressOf traced enough (machine options program) with
    | halted s => simp [endingOf]
    | faulted fault s => simp [endingOf]
    | unfinished s =>
      rw [hprogress] at hended
      cases hended
  · rw [executed_eq, executed_eq, progressOf_of_le hended hle]

/-- Take a listing that assembles to a program whose run ends, and a path that can be written and
gives back what was written. Given the listing and told to emit to that path, the command comes to
an outcome; given the path as a program in byte form, with the same size of the stack, it comes to
the same one, and if told to emit again it writes the same bytes again. -/
theorem emitted_program_runs_alike {disk written : Disk} {listing path : String}
    {contents : List UInt8} {program : Program} {size size' : Option Nat}
    {arguments : List String} (hlisting : disk.read listing = .ok contents)
    (hassembles : programOf false contents = .ok program)
    (harguments : Options.ofArguments? arguments = some ⟨some listing, false, some path, size⟩)
    (hends : (machine ⟨some listing, false, some path, size⟩ program).Ends)
    (hwrite : disk.write path program.toBytes = .ok written)
    (hreturns : disk.ReturnsWritten path)
    (hsize : size'.getD Machine.defaultStackSize = size.getD Machine.defaultStackSize)
    (traced : Bool) :
    ∃ outcome, outcome.ending ≠ .unfinished ∧
      Yields traced arguments disk outcome written ∧
      (∀ again, Options.ofArguments? again = some ⟨some path, true, none, size'⟩ →
        Yields traced again written outcome written) ∧
      ∀ again other rewritten,
        Options.ofArguments? again = some ⟨some path, true, some other, size'⟩ →
        written.write other program.toBytes = .ok rewritten →
        Yields traced again written outcome rewritten ∧
          (written.ReturnsWritten other → rewritten.read other = written.read path) := by
  have hread : written.read path = .ok program.toBytes := hreturns program.toBytes written hwrite
  obtain ⟨outcome, enough, hending, houtcome⟩ := executed_settles hends traced
  -- The two runs have other options, but machines made of the same program and size.
  have hagain : ∀ emit limit, enough ≤ limit →
      executed traced limit ⟨some path, true, emit, size'⟩ program = outcome :=
    fun emit limit hle => (executed_congr hsize traced limit program).trans (houtcome limit hle)
  have hload : ∀ emit, loaded ⟨some path, true, emit, size'⟩ written = .ok program := fun emit =>
    loaded_of_read rfl hread (programOf_toBytes program)
  refine ⟨outcome, hending, ⟨enough, fun limit hle => ?_⟩, fun again hargs =>
    ⟨enough, fun limit hle => ?_⟩, fun again other rewritten hargs hrewrite =>
    ⟨⟨enough, fun limit hle => ?_⟩, fun hreturns' => ?_⟩⟩
  · rw [run_of_emit harguments (loaded_of_read rfl hlisting hassembles)
      (emit_of_write rfl hwrite limit "" ""), houtcome limit hle]
  · rw [run_of_emit hargs (hload none) (emit_of_none rfl limit _), hagain none limit hle]
  · rw [run_of_emit hargs (hload (some other)) (emit_of_write rfl hrewrite limit "" ""),
      hagain (some other) limit hle]
  · rw [hreturns' program.toBytes rewritten hrewrite, hread]

/-- Prints 7 and jumps to a label, where it divides by zero. -/
def divisionListing : List UInt8 :=
  "first:\n li 7i, $gpr1\n sys 0i\n jmp @last\nlast:\n divi $gpr1, $cond, $gpr1\n".toUTF8.toList

def divisionProgram : Program :=
  .ofList [.long .li 7 2, .long .sys 0 0, .long .jmp 3 0, .short .divi 2 0 2]

def divisionOutcome : Outcome where
  ending := .faulted (.divisionByZero 7)
  stdout :=
    "1 li 0x7, 0x2\n2 sys 0x0, 0x0\n3 jmp 0x3, 0x0\n4 divi 0x2, 0x0, 0x2\n\n7\n"
  stderr := ""

/-- A disk with that listing on it. -/
def listingDisk : Disk := .ofNodes [("a.asm", .file divisionListing)]

/-- The same disk once the program was emitted. -/
def emittedDisk : Disk :=
  listingDisk.put (Disk.home ++ ["b.bin"]) (.file divisionProgram.toBytes)

theorem emitted_program_runs_alike_division :
    Yields false ["a.asm", "--emit", "b.bin", "--stack-size=2"] listingDisk divisionOutcome
        emittedDisk ∧
      Yields false ["b.bin", "--binary", "--stack-size=2"] emittedDisk divisionOutcome
        emittedDisk ∧
      ∃ rewritten,
        Yields false ["--binary", "--emit=c.bin", "b.bin", "--stack-size", "2"] emittedDisk
          divisionOutcome rewritten ∧
        rewritten.read "c.bin" = emittedDisk.read "b.bin" := by
  have hlisting : listingDisk.read "a.asm" = .ok divisionListing := by decide +kernel
  have hassembles : programOf false divisionListing = .ok divisionProgram := by decide +kernel
  have harguments : Options.ofArguments? ["a.asm", "--emit", "b.bin", "--stack-size=2"] =
      some ⟨some "a.asm", false, some "b.bin", some 2⟩ := by decide +kernel
  have hended : (progressOf false 4 (machine ⟨some "a.asm", false, some "b.bin", some 2⟩
      divisionProgram)).hasEnded = true := by decide +kernel
  have hends : (machine ⟨some "a.asm", false, some "b.bin", some 2⟩ divisionProgram).Ends :=
    .inr ⟨.divisionByZero 7, _, 4, fun limit hle => (Machine.resume_of_le hended hle).trans rfl⟩
  have hwrite : listingDisk.write "b.bin" divisionProgram.toBytes = .ok emittedDisk := rfl
  have hplace : listingDisk.placeOf "b.bin" = .ok (Disk.home ++ ["b.bin"]) := by decide +kernel
  have hreturns : listingDisk.ReturnsWritten "b.bin" :=
    Disk.returnsWritten_of_not_device (Disk.not_leadsToDevice_of_node?_eq_none hplace rfl)
  have hplace' : emittedDisk.placeOf "c.bin" = .ok (Disk.home ++ ["c.bin"]) := by decide +kernel
  have hreturns' : emittedDisk.ReturnsWritten "c.bin" :=
    Disk.returnsWritten_of_not_device (Disk.not_leadsToDevice_of_node?_eq_none hplace' rfl)
  obtain ⟨outcome, _, hlisted, hagain, hrewrites⟩ :=
    emitted_program_runs_alike hlisting hassembles harguments hends hwrite hreturns rfl false
  obtain ⟨hyields, hsame⟩ := hrewrites ["--binary", "--emit=c.bin", "b.bin", "--stack-size", "2"]
    "c.bin" _ (by decide +kernel) rfl
  -- Four steps are enough, so that the outcome is the one after four steps.
  have houtcome : outcome = divisionOutcome := by
    obtain ⟨enough, hrun⟩ := hlisted
    have hlimit := hrun (max enough 4) (Nat.le_max_left _ _)
    rw [run_of_emit harguments (loaded_of_read rfl hlisting hassembles)
      (emit_of_write rfl hwrite _ "" ""), executed_eq,
      progressOf_of_le hended (Nat.le_max_right _ _), ← executed_eq] at hlimit
    have hfour : executed false 4 ⟨some "a.asm", false, some "b.bin", some 2⟩ divisionProgram =
        divisionOutcome := by decide +kernel
    exact (congrArg Prod.fst hlimit).symm.trans hfour
  subst houtcome
  exact ⟨hlisted, hagain _ (by decide +kernel), _, hyields, hsame hreturns'⟩

end Command

end RegisterMachine
