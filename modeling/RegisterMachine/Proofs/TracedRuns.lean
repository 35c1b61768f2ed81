import RegisterMachine.Proofs.CommandRuns
import RegisterMachine.Proofs.Simulation
import RegisterMachine.Proofs.Unchanged

namespace RegisterMachine

/-- Whether a system call has put out the event. -/
def Event.isPrinted (e : Event) : Bool :=
  e.printedLine?.isSome

theorem append_toArray_append {α : Type} (xs : Array α) (ys zs : List α) :
    xs ++ ys.toArray ++ zs.toArray = xs ++ (ys ++ zs).toArray := by
  rw [← Array.toList_inj]
  simp

namespace CallTable

variable {σ : Type}

/-- No call changes how many registers there are. -/
def KeepsRegisterCount (t : CallTable σ) : Prop :=
  ∀ number call, t.get? number = some call →
    Leaves (fun host : Host σ => host.registers.size) call.act

theorem KeepsRegisterCount.setState {t : CallTable σ} (h : t.KeepsRegisterCount)
    (number : BitVec 32) (state : σ) : (t.setState number state).KeepsRegisterCount := by
  intro key call hcall
  rw [get?_setState, Option.map_eq_some_iff] at hcall
  obtain ⟨before, hbefore, rfl⟩ := hcall
  have hact := h key before hbefore
  split
  · exact hact
  · exact hact

theorem KeepsRegisterCount.invoke {t : CallTable σ} (h : t.KeepsRegisterCount)
    (number : BitVec 32) (registers stack : Space) :
    (t.invoke number registers stack).registers.size = registers.size ∧
      (t.invoke number registers stack).calls.KeepsRegisterCount := by
  unfold CallTable.invoke
  cases hcall : t.get? number with
  | none => exact ⟨rfl, h⟩
  | some call =>
    have hact := h number call hcall ⟨call.state, registers, stack, #[]⟩
    simp only
    generalize call.act ⟨call.state, registers, stack, #[]⟩ = result at hact
    cases result with
    | ok _ host => exact ⟨hact, h.setState number host.own⟩
    | error fault host => exact ⟨hact, h.setState number host.own⟩

end CallTable

theorem Host.readRegister_leaves {σ γ : Type} (view : Host σ → γ) (address : BitVec 16) :
    Leaves view (Host.readRegister address : HostAction σ Word) := by
  intro host
  unfold Host.readRegister
  split <;> rfl

/-- Both calls of the command look at a register and print. -/
theorem Command.calls_keepsRegisterCount : Command.calls.KeepsRegisterCount := by
  intro number call hcall
  rw [Command.calls, CallTable.get?_insert, CallTable.get?_insert] at hcall
  split at hcall
  next =>
    cases Option.some.inj hcall
    exact (Host.readRegister_leaves _ _).bind fun w _ => rfl
  next =>
    split at hcall
    next =>
      cases Option.some.inj hcall
      exact (Host.readRegister_leaves _ _).bind fun w _ => rfl
    next => cases hcall

namespace Machine

variable {σ : Type}

def withOutput (m : Machine σ) (output : Array Event) : Machine σ :=
  { m with output := output }

/-- All registers are there, and no call takes one away. -/
structure Whole (m : Machine σ) : Prop where
  registerCount : m.registers.size = Register.count
  calls : m.calls.KeepsRegisterCount

/-- Two machines that have put out the same lines since the output of the one was `base` and that
of the other `other`, and that differ in nothing else. -/
structure Echoes (base other : Array Event) (m m' : Machine σ) : Prop where
  whole : m.Whole
  since : ∃ lines : List Event, (∀ e ∈ lines, e.isPrinted) ∧
    m.output = base ++ lines.toArray ∧ m' = m.withOutput (other ++ lines.toArray)

namespace Echoes

variable {base other : Array Event}

theorem readRegister_lockstep (a : BitVec 16) :
    Lockstep (Echoes base other) (readRegister a : Action σ Word) (readRegister a) := by
  apply Machine.readRegister_lockstep
  · rintro m _ ⟨_, _, _, _, rfl⟩
    rfl
  · rintro m _ ⟨_, _, _, _, rfl⟩
    rfl

theorem writeRegister_lockstep (a : BitVec 16) (w : Word) :
    Lockstep (Echoes base other) (writeRegister a w : Action σ Unit) (writeRegister a w) := by
  apply Machine.writeRegister_lockstep
  · rintro m _ ⟨_, _, _, _, rfl⟩
    rfl
  · rintro m _ hlt hlt' ⟨hm, lines, hprinted, hout, rfl⟩
    have hcount : (m.registers.set a w hlt).size = Register.count :=
      (Space.size_set ..).trans hm.registerCount
    exact ⟨⟨hcount, hm.calls⟩, lines, hprinted, hout, rfl⟩

theorem stack_eq {m m' : Machine σ} (h : Echoes base other m m') : m'.stack = m.stack := by
  obtain ⟨_, _, _, _, rfl⟩ := h
  rfl

theorem setStack {m m' : Machine σ} (stack : Space) (h : Echoes base other m m') :
    Echoes base other { m with stack := stack } { m' with stack := stack } := by
  obtain ⟨hm, lines, hprinted, hout, rfl⟩ := h
  exact ⟨⟨hm.registerCount, hm.calls⟩, lines, hprinted, hout, rfl⟩

theorem push_lockstep (w : Word) :
    Lockstep (Echoes base other) (push w : Action σ Unit) (push w) := by
  refine (readRegister_lockstep _).bind fun sp => ?_
  refine (writeStack_lockstep (fun _ _ => stack_eq) ?_ _ w).bind fun _ =>
    writeRegister_lockstep _ _
  exact fun _ _ => setStack

theorem pop_lockstep : Lockstep (Echoes base other) (pop : Action σ Word) pop := by
  refine (readRegister_lockstep _).bind fun sp => ?_
  exact (writeRegister_lockstep _ _).bind fun _ => readStack_lockstep (fun _ _ => stack_eq) _

/-- A call finds the same registers and the same stack, so that it prints the same lines. -/
theorem invoke_lockstep (number : BitVec 32) :
    Lockstep (Echoes base other) (invoke number : Action σ Unit) (invoke number) := by
  rintro m _ ⟨hm, lines, hprinted, hout, rfl⟩
  obtain ⟨hsize, hkeeps⟩ := hm.calls.invoke number m.registers m.stack
  have hafter : ∀ called : Called σ, called = m.calls.invoke number m.registers m.stack →
      Echoes base other
        { m with
          calls := called.calls
          registers := called.registers
          stack := called.stack
          output := m.output ++ called.printed.map .printed }
        { m.withOutput (other ++ lines.toArray) with
          calls := called.calls
          registers := called.registers
          stack := called.stack
          output := other ++ lines.toArray ++ called.printed.map .printed } := by
    rintro called rfl
    refine ⟨⟨hsize.trans hm.registerCount, hkeeps⟩,
      lines ++ ((m.calls.invoke number m.registers m.stack).printed.map Event.printed).toList,
      ?_, ?_, ?_⟩
    · intro e he
      rcases List.mem_append.mp he with he | he
      · exact hprinted e he
      · obtain ⟨line, _, rfl⟩ := Array.mem_map.mp (Array.mem_toList_iff.mp he)
        rfl
    · rw [← append_toArray_append, ← hout, Array.toArray_toList]
    · rw [← append_toArray_append, Array.toArray_toList]
      rfl
  simp only [invoke, withOutput]
  cases hfault : (m.calls.invoke number m.registers m.stack).fault with
  | none => exact .ok () (hafter _ rfl)
  | some fault => exact .error fault (hafter _ rfl)

theorem uses (i : Instruction) (e : Effect) :
    e.Uses (Lockstep (Echoes base other)) (primitives : Primitives (Machine σ)) primitives i where
  read a _ := readRegister_lockstep a
  write a _ w := writeRegister_lockstep a w
  push _ w := push_lockstep w
  pop _ := pop_lockstep
  counter := by
    rintro m _ ⟨hm, lines, hprinted, hout, rfl⟩
    exact .ok m.counter ⟨hm, lines, hprinted, hout, rfl⟩
  jump target := by
    rintro m _ ⟨hm, lines, hprinted, hout, rfl⟩
    exact .ok () ⟨⟨hm.registerCount, hm.calls⟩, lines, hprinted, hout, rfl⟩
  halt _ := by
    rintro m _ ⟨hm, lines, hprinted, hout, rfl⟩
    exact .ok () ⟨⟨hm.registerCount, hm.calls⟩, lines, hprinted, hout, rfl⟩
  invoke _ number := invoke_lockstep number

theorem execute_lockstep (i : Instruction) :
    Lockstep (Echoes base other) (execute i : Action σ Unit) (execute i) := by
  rw [execute_eq]
  exact Lockstep.compositional.execute fun op _ => uses i op.effect

end Echoes

/-- What the machine has put out since it was `m`. -/
def outputSince (s m : Machine σ) : List Event :=
  s.output.toList.drop m.output.size

/-- What a traced step puts out, told by the plain step: the instruction with the index it is
fetched from, what it prints, and the machine after it if it goes well. -/
def stepTrace (m : Machine σ) : List Event :=
  match m.program.get m.counter with
  | .error _ => []
  | .ok i =>
    .fetched m.counter i ::
      match step m with
      | .ok _ s => s.outputSince m ++ [.snapshot s.text]
      | .error _ s => s.outputSince m

/-- What the traced steps of a run put out, told by the plain steps. -/
def trace : Nat → Machine σ → List Event
  | 0, _ => []
  | limit + 1, m =>
    if m.running then
      match step m with
      | .ok _ s => m.stepTrace ++ trace limit s
      | .error _ _ => m.stepTrace
    else []

def Progress.map (f : Machine σ → Machine σ) : Progress σ → Progress σ
  | .halted m => .halted (f m)
  | .faulted fault m => .faulted fault (f m)
  | .unfinished m => .unfinished (f m)

theorem outputSince_append {m s : Machine σ} {lines : List Event}
    (h : s.output = m.output ++ lines.toArray) : s.outputSince m = lines := by
  simp [outputSince, h]

theorem stepTrace_of_ok {m s : Machine σ} {i : Instruction} {lines : List Event}
    (hget : m.program.get m.counter = .ok i) (hstep : step m = .ok () s)
    (houtput : s.output = m.output ++ lines.toArray) :
    m.stepTrace = .fetched m.counter i :: (lines ++ [.snapshot s.text]) := by
  rw [stepTrace, hget, hstep]
  simp only [outputSince_append houtput]

theorem stepTrace_of_error {m s : Machine σ} {i : Instruction} {fault : Fault}
    {lines : List Event} (hget : m.program.get m.counter = .ok i)
    (hstep : step m = .error fault s) (houtput : s.output = m.output ++ lines.toArray) :
    m.stepTrace = .fetched m.counter i :: lines := by
  rw [stepTrace, hget, hstep]
  simp only [outputSince_append houtput]

theorem trace_of_ok {m s : Machine σ} (hset : m.running = true) (hstep : step m = .ok () s)
    (limit : Nat) : m.trace (limit + 1) = m.stepTrace ++ s.trace limit := by
  rw [trace, if_pos hset, hstep]

theorem trace_of_error {m s : Machine σ} {fault : Fault} (hset : m.running = true)
    (hstep : step m = .error fault s) (limit : Nat) : m.trace (limit + 1) = m.stepTrace := by
  rw [trace, if_pos hset, hstep]

theorem filter_fetched_cons {lines : List Event} (h : ∀ e ∈ lines, e.isPrinted)
    (index : BitVec 32) (i : Instruction) :
    (.fetched index i :: lines).filter Event.isPrinted = lines := by
  rw [List.filter_cons_of_neg (by simp [Event.isPrinted, Event.printedLine?]),
    List.filter_eq_self.mpr h]

theorem filter_append_snapshot {lines : List Event} (display : String) :
    (lines ++ [Event.snapshot display]).filter Event.isPrinted = lines.filter Event.isPrinted := by
  simp [Event.isPrinted, Event.printedLine?]

theorem tracedStep_of_get_error {m : Machine σ} {fault : Fault}
    (h : m.program.get m.counter = .error fault) : tracedStep m = .error fault m := by
  show EStateM.bind fetch _ m = _
  rw [EStateM.bind, fetch, h]

/-- The counter has moved on when the instruction is put out, so that the index one below it is the
one the instruction was fetched from, also where the counter has wrapped. -/
theorem tracedStep_of_get {m : Machine σ} {i : Instruction}
    (h : m.program.get m.counter = .ok i) :
    tracedStep m = (execute i >>= fun _ => emitSnapshot)
      { m with counter := m.counter + 1, output := m.output.push (.fetched m.counter i) } := by
  have hindex : m.counter + 1 - 1 = m.counter := BitVec.add_sub_cancel m.counter 1
  have hstep : tracedStep m = (execute i >>= fun _ => emitSnapshot)
      { m with
        counter := m.counter + 1
        output := m.output.push (.fetched (m.counter + 1 - 1) i) } := by
    show EStateM.bind fetch _ m = _
    rw [EStateM.bind, fetch, h]
    rfl
  rw [hstep, hindex]

/-- What a traced step has in common with the plain one. -/
structure Traces (m : Machine σ) (out : Array Event) (s s' : Machine σ) : Prop where
  whole : s.Whole
  output : s.output = m.output ++ (m.stepTrace.filter Event.isPrinted).toArray
  traced : s' = s.withOutput (out ++ m.stepTrace.toArray)

/-- A traced step ends as the plain step does and leaves the same machine, but for its output. -/
theorem step_traces {m : Machine σ} (hm : m.Whole) (out : Array Event) :
    InStep (m.Traces out) (step m) (tracedStep (m.withOutput out)) := by
  cases hget : m.program.get m.counter with
  | error fault =>
    have htrace : m.stepTrace = [] := by rw [stepTrace, hget]
    rw [step_of_get_error hget, tracedStep_of_get_error (m := m.withOutput out) hget]
    exact .error fault ⟨hm, by simp [htrace], by simp [htrace]⟩
  | ok i =>
    have hstart : Echoes m.output (out.push (.fetched m.counter i))
        { m with counter := m.counter + 1 }
        { m with
          counter := m.counter + 1
          output := out.push (.fetched m.counter i) } :=
      ⟨⟨hm.registerCount, hm.calls⟩, [], by simp, by simp, by simp [withOutput]⟩
    have hexecute := Echoes.execute_lockstep i _ _ hstart
    have hstep := step_of_get hget
    rw [tracedStep_of_get (m := m.withOutput out) hget]
    show InStep _ _ (EStateM.bind (execute i) _
      { m with counter := m.counter + 1, output := out.push (.fetched m.counter i) })
    unfold EStateM.bind
    rw [← hstep] at hexecute
    generalize hplain : step m = plain at hexecute
    generalize execute i _ = traced at hexecute
    cases hexecute with
    | @ok s _ _ h =>
      obtain ⟨hwhole, lines, hprinted, houtput, rfl⟩ := h
      have htrace := stepTrace_of_ok hget hplain houtput
      refine .ok () ⟨hwhole, ?_, ?_⟩
      · rw [htrace, ← List.cons_append, filter_append_snapshot, filter_fetched_cons hprinted,
          houtput]
      · rw [htrace]
        show s.withOutput ((out.push _ ++ lines.toArray).push (.snapshot s.text)) = _
        rw [Array.push_eq_append, Array.push_eq_append, append_toArray_append,
          append_toArray_append, List.singleton_append]
    | @error s _ fault h =>
      obtain ⟨hwhole, lines, hprinted, houtput, rfl⟩ := h
      have htrace := stepTrace_of_error hget hplain houtput
      refine .error fault ⟨hwhole, ?_, ?_⟩
      · rw [htrace, filter_fetched_cons hprinted, houtput]
      · rw [htrace, Array.push_eq_append, append_toArray_append, List.singleton_append]

/-- A traced run ends as the plain run does, step for step with the same machines, and puts out
the trace; the plain run puts out what is printed in it. -/
theorem resume_traces {m : Machine σ} (hm : m.Whole) (limit : Nat) (out : Array Event) :
    resume tracedStep limit (m.withOutput out) =
        (resume step limit m).map (·.withOutput (out ++ (m.trace limit).toArray)) ∧
      (resume step limit m).machine.Whole ∧
      (resume step limit m).machine.output =
        m.output ++ ((m.trace limit).filter Event.isPrinted).toArray := by
  -- By induction on the limit; each step adds its own trace to what the rest of the run puts out.
  induction limit generalizing m out with
  | zero =>
    cases hset : m.running with
    | true => simp [resume, withOutput, hset, trace, Progress.map, Progress.machine, hm]
    | false => simp [resume, withOutput, hset, trace, Progress.map, Progress.machine, hm]
  | succ limit ih =>
    cases hset : m.running with
    | false => simp [resume, withOutput, hset, trace, Progress.map, Progress.machine, hm]
    | true =>
      have hrunning : (m.withOutput out).running = true := hset
      have hstep := step_traces hm out
      generalize hplain : step m = plain at hstep
      generalize htraced : tracedStep (m.withOutput out) = traced at hstep
      cases hstep with
      | @ok s s' _ h =>
        have htrace := trace_of_ok hset hplain limit
        obtain ⟨hresume, hwhole, houtput⟩ := ih h.whole (out ++ m.stepTrace.toArray)
        simp only [resume, hset, hrunning, hplain, htraced, if_true, htrace]
        refine ⟨?_, hwhole, ?_⟩
        · rw [h.traced, hresume, append_toArray_append]
        · rw [houtput, h.output, append_toArray_append, List.filter_append]
      | @error s s' fault h =>
        have htrace := trace_of_error hset hplain limit
        simp only [resume, hset, hrunning, hplain, htraced, if_true, htrace]
        refine ⟨?_, h.whole, h.output⟩
        rw [h.traced]
        rfl

theorem Progress.machine_map (f : Machine σ → Machine σ) (progress : Progress σ) :
    (progress.map f).machine = f progress.machine := by
  cases progress <;> rfl

/-- What a traced run puts out: the machine before the first step, and the trace. -/
def shown (limit : Nat) (m : Machine σ) : List Event :=
  .snapshot m.start.text :: m.start.trace limit

theorem run_traces {m : Machine σ} (hm : m.Whole) (limit : Nat) :
    m.tracedRun limit = (m.run limit).map (·.withOutput (m.output ++ (m.shown limit).toArray)) ∧
      (m.run limit).machine.Whole ∧
      (m.run limit).machine.output =
        m.output ++ ((m.shown limit).filter Event.isPrinted).toArray := by
  have hstart : m.start.Whole := ⟨hm.registerCount, hm.calls⟩
  obtain ⟨htraced, hwhole, houtput⟩ :=
    resume_traces hstart limit (m.output.push (.snapshot m.start.text))
  refine ⟨?_, hwhole, ?_⟩
  · rw [Array.push_eq_append, append_toArray_append, List.singleton_append] at htraced
    exact htraced
  · rw [shown, List.filter_cons_of_neg (by simp [Event.isPrinted, Event.printedLine?])]
    exact houtput

end Machine

/-- How an event is written, with its line feed. -/
inductive Event.Written : Event → String → Prop where
  | printed (line : String) : Written (.printed line) (line ++ "\n")
  /-- The index stands at the right of six columns, or of as many as it has digits. -/
  | fetched {index : BitVec 32} (i : Instruction) {blanks : Nat} {digits : List Char}
      (hindex : digits = Nat.toDigits 10 index.toNat)
      (hwidth : blanks + digits.length = max 6 digits.length) :
      Written (.fetched index i)
        (String.ofList (List.replicate blanks ' ' ++ digits) ++ ": " ++ i.text ++ "\n")
  | snapshot (display : String) : Written (.snapshot display) (display ++ "\n")

theorem Event.written_iff {e : Event} {text : String} : e.Written text ↔ text = e.text := by
  constructor
  · intro h
    cases h with
    | printed line => rfl
    | snapshot display => rfl
    | @fetched index i blanks digits hindex hwidth =>
      have hblanks : blanks = 6 - digits.length := by omega
      rw [Event.text, toList_decimal, ← hindex, List.leftpad, hblanks]
  · rintro rfl
    cases e with
    | printed line => exact .printed line
    | snapshot display => exact .snapshot display
    | fetched index i =>
      rw [Event.text, toList_decimal, List.leftpad]
      exact .fetched i rfl (by omega)

/-- Each event with what is written for it. -/
structure IsTranscript (events : List Event) (lines : List (Event × String)) : Prop where
  events : lines.map Prod.fst = events
  written : ∀ line ∈ lines, line.1.Written line.2

theorem isTranscript_iff {events : List Event} {lines : List (Event × String)} :
    IsTranscript events lines ↔ lines = events.map fun e => (e, e.text) := by
  constructor
  · rintro ⟨rfl, hwritten⟩
    rw [List.map_map]
    refine (List.map_id lines).symm.trans (List.map_congr_left fun line hline => ?_)
    exact Prod.ext rfl (Event.written_iff.mp (hwritten line hline))
  · rintro rfl
    refine ⟨by simp [Function.comp_def], fun line hline => ?_⟩
    obtain ⟨e, _, rfl⟩ := List.mem_map.mp hline
    exact Event.written_iff.mpr rfl

def writtenText (lines : List (Event × String)) : String :=
  String.join (lines.map Prod.snd)

/-- What is left of the text without the lines that no system call has printed. -/
def printedText (lines : List (Event × String)) : String :=
  writtenText (lines.filter (·.1.isPrinted))

def textOf (events : List Event) : String :=
  String.join (events.map Event.text)

theorem IsTranscript.writtenText {events : List Event} {lines : List (Event × String)}
    (h : IsTranscript events lines) : writtenText lines = textOf events := by
  rw [isTranscript_iff.mp h, RegisterMachine.writtenText, List.map_map]
  rfl

theorem IsTranscript.printedText {events : List Event} {lines : List (Event × String)}
    (h : IsTranscript events lines) :
    printedText lines = textOf (events.filter Event.isPrinted) := by
  rw [isTranscript_iff.mp h, RegisterMachine.printedText, RegisterMachine.writtenText,
    List.filter_map, List.map_map]
  rfl

namespace Command

theorem machine_whole (options : Options) (program : Program) :
    (machine options program).Whole :=
  ⟨Space.size_zeros _, calls_keepsRegisterCount⟩

theorem endingOf_map (f : Machine Word → Machine Word) (progress : Machine.Progress Word) :
    endingOf (progress.map f) = endingOf progress := by
  cases progress <;> rfl

theorem closingOf_map (output : Array Event) (progress : Machine.Progress Word) :
    closingOf (progress.map (·.withOutput output)) = closingOf progress := by
  cases progress <;> rfl

theorem outputText_append {m s : Machine Word} {events : List Event}
    (h : s.output = m.output ++ events.toArray) :
    outputText s = outputText m ++ textOf events := by
  simp [outputText, h, textOf]

/-- The text that a traced run adds to what has been put out before, and that the plain run adds. -/
theorem outputText_traces {m : Machine Word} (hm : m.Whole) (limit : Nat) :
    outputText (m.tracedRun limit).machine = outputText m ++ textOf (m.shown limit) ∧
      outputText (m.run limit).machine =
        outputText m ++ textOf ((m.shown limit).filter Event.isPrinted) := by
  obtain ⟨htraced, _, houtput⟩ := Machine.run_traces hm limit
  refine ⟨outputText_append ?_, outputText_append houtput⟩
  rw [htraced, Machine.Progress.machine_map]
  rfl

/-- Tracing changes neither how the command ends nor what it complains of. It adds a line at the
beginning and the events of the run that no call has printed. -/
theorem executed_traced (limit : Nat) (options : Options) (program : Program) :
    let m := machine options program
    let traced := executed true limit options program
    let plain := executed false limit options program
    traced.ending = plain.ending ∧ traced.stderr = plain.stderr ∧
      traced.stdout = "Computation Tracing ENABLED\n" ++
        (program.text ++ "\n\n" ++ textOf (m.shown limit) ++ closingOf (m.run limit)) ∧
      plain.stdout = program.text ++ "\n\n" ++
        textOf ((m.shown limit).filter Event.isPrinted) ++ closingOf (m.run limit) := by
  have hm := machine_whole options program
  obtain ⟨htraced, _, _⟩ := Machine.run_traces hm limit
  obtain ⟨htext, hplain⟩ := outputText_traces hm limit
  have hempty : outputText (machine options program) = "" := rfl
  rw [hempty, String.empty_append] at htext hplain
  have hprogress : progressOf true limit (machine options program) =
      (machine options program).tracedRun limit := if_pos rfl
  have hprogress' : progressOf false limit (machine options program) =
      (machine options program).run limit := if_neg Bool.false_ne_true
  simp only [executed_eq, hprogress, hprogress', htext, hplain, true_and]
  rw [htraced, endingOf_map, closingOf_map]
  refine ⟨rfl, ?_, ?_⟩
  · simp only [heading, if_true, String.append_assoc]
  · simp only [heading, Bool.false_eq_true, if_false, String.empty_append]

/-- A traced run goes through the machines of the plain run and ends as it does. What it puts out is
the machine before the first step and the trace, every event as it has to be written; without the
lines that no system call has printed this is what the plain run puts out. Every machine that is put
out has its stack pointer. The whole command prints one line more at the beginning, and otherwise
the same before and after the run; where it runs nothing it prints nothing. -/
theorem tracing_only_adds_output {m : Machine Word} (hcalls : m.calls = calls)
    (hregisters : m.registers.size = Register.count) (limit : Nat) :
    (m.tracedRun limit =
        (m.run limit).map (·.withOutput (m.output ++ (m.shown limit).toArray)) ∧
      (m.run limit).machine.output =
        m.output ++ ((m.shown limit).filter Event.isPrinted).toArray ∧
      ((m.run limit).machine.registers.get? Register.sp.index).isSome ∧
      ∃ lines, IsTranscript (m.shown limit) lines ∧
        outputText (m.tracedRun limit).machine = outputText m ++ writtenText lines ∧
        outputText (m.run limit).machine = outputText m ++ printedText lines) ∧
    (∀ options program,
      let m := machine options program
      let traced := executed true limit options program
      let plain := executed false limit options program
      traced.ending = plain.ending ∧ traced.stderr = plain.stderr ∧
        ∃ lines, IsTranscript (m.shown limit) lines ∧
          traced.stdout = "Computation Tracing ENABLED\n" ++
            (program.text ++ "\n\n" ++ writtenText lines ++ closingOf (m.run limit)) ∧
          plain.stdout =
            program.text ++ "\n\n" ++ printedText lines ++ closingOf (m.run limit)) ∧
    ∀ arguments disk,
      (∃ options program written, ∀ traced,
        run traced limit arguments disk = (executed traced limit options program, written)) ∨
      ∃ outcome, outcome.stdout = "" ∧
        ∀ traced, run traced limit arguments disk = (outcome, disk) := by
  have hm : m.Whole := ⟨hregisters, hcalls ▸ calls_keepsRegisterCount⟩
  obtain ⟨htraced, hwhole, houtput⟩ := Machine.run_traces hm limit
  obtain ⟨htext, hplain⟩ := outputText_traces hm limit
  have hlines : IsTranscript (m.shown limit) _ := isTranscript_iff.mpr rfl
  refine ⟨⟨htraced, houtput, ?_, _, hlines, ?_, ?_⟩, fun options program => ?_,
    fun arguments disk => ?_⟩
  · rw [Option.isSome_iff_ne_none, Ne, Space.get?_eq_none_iff, hwhole.registerCount]
    exact Nat.not_le_of_lt (Register.index_lt_count .sp)
  · rw [htext, hlines.writtenText]
  · rw [hplain, hlines.printedText]
  · obtain ⟨hending, hstderr, hstdout, hstdout'⟩ := executed_traced limit options program
    have hlines : IsTranscript ((machine options program).shown limit) _ :=
      isTranscript_iff.mpr rfl
    refine ⟨hending, hstderr, _, hlines, ?_, ?_⟩
    · rw [hstdout, hlines.writtenText]
    · rw [hstdout', hlines.printedText]
  · rcases run_cases arguments disk with ⟨options, program, written, hrun⟩ | ⟨outcome, hempty, hrun⟩
    · exact .inl ⟨options, program, written, fun traced => hrun traced limit⟩
    · exact .inr ⟨outcome, hempty, fun traced => hrun traced limit⟩

/-- Prints 7, then runs past its end. -/
def printingProgram : Program :=
  .ofList [.long .li 7 2, .long .sys 0 0]

/-- The machine with that program after some steps. -/
def printingMachine (count : Nat) : Machine Word :=
  ((machine .unset printingProgram).run count).machine

theorem printingMachine_shown :
    (machine .unset printingProgram).shown 3 =
      [.snapshot (printingMachine 0).text, .fetched 0 (.long .li 7 2),
        .snapshot (printingMachine 1).text, .fetched 1 (.long .sys 0 0), .printed "7",
        .snapshot (printingMachine 2).text] := by
  have hstep : Machine.step (printingMachine 0) = .ok () (printingMachine 1) := rfl
  have hstep' : Machine.step (printingMachine 1) = .ok () (printingMachine 2) := rfl
  have hquiet : (printingMachine 1).output = (printingMachine 0).output ++ [].toArray := rfl
  have hprinted : (printingMachine 2).output =
      (printingMachine 1).output ++ [Event.printed "7"].toArray := by decide +kernel
  have htrace := Machine.stepTrace_of_ok (i := .long .li 7 2) rfl hstep hquiet
  have htrace' := Machine.stepTrace_of_ok (i := .long .sys 0 0) rfl hstep' hprinted
  have hlast : (printingMachine 2).trace 1 = [] := rfl
  show Event.snapshot (printingMachine 0).text :: (printingMachine 0).trace 3 = _
  rw [Machine.trace_of_ok rfl hstep, Machine.trace_of_ok rfl hstep', htrace, htrace', hlast]
  rfl

theorem tracing_only_adds_output_printing :
    let traced := executed true 3 .unset printingProgram
    let plain := executed false 3 .unset printingProgram
    traced.ending = .faulted (.instructionOutside 2 2) ∧ plain.ending = traced.ending ∧
      plain.stdout = "1 li 0x7, 0x2\n2 sys 0x0, 0x0\n\n7\n" ∧
      traced.stdout = "Computation Tracing ENABLED\n" ++
        ("1 li 0x7, 0x2\n2 sys 0x0, 0x0\n\n" ++
          (printingMachine 0).text ++ "\n     0: li 0x7, 0x2\n" ++
          (printingMachine 1).text ++ "\n     1: sys 0x0, 0x0\n7\n" ++
          (printingMachine 2).text ++ "\n") := by
  intro traced plain
  obtain ⟨_, hcommand, _⟩ := tracing_only_adds_output (m := machine .unset printingProgram) rfl
    (Space.size_zeros _) 3
  obtain ⟨hending, _, lines, hlines, hstdout, hstdout'⟩ := hcommand .unset printingProgram
  have hprogram : printingProgram.text = "1 li 0x7, 0x2\n2 sys 0x0, 0x0" := by decide +kernel
  have hclosing : closingOf ((machine .unset printingProgram).run 3) = "" := by decide +kernel
  have hload : Event.text (.fetched 0 (.long .li 7 2)) = "     0: li 0x7, 0x2\n" := by
    decide +kernel
  have hcall : Event.text (.fetched 1 (.long .sys 0 0)) = "     1: sys 0x0, 0x0\n" := by
    decide +kernel
  refine ⟨by decide +kernel, hending.symm, ?_, ?_⟩
  · refine hstdout'.trans ?_
    rw [hlines.printedText, printingMachine_shown, hprogram, hclosing]
    decide +kernel
  · refine hstdout.trans ?_
    rw [hlines.writtenText, printingMachine_shown, hprogram, hclosing]
    simp only [textOf, List.map_cons, List.map_nil, hload, hcall]
    simp [Event.text, String.join, String.append_assoc]

end Command

end RegisterMachine
