import RegisterMachine.Proofs.FaultChecks
import RegisterMachine.Proofs.LabelResolution
import RegisterMachine.Proofs.ListSteps

namespace RegisterMachine

namespace Program

theorem get_of_lt {p : Program} {index : BitVec 32} (h : index.toNat < p.size) :
    ∃ i, p.get index = .ok i :=
  ⟨p.instructions[index.toNat], by rw [get, Array.getElem?_eq_getElem h]⟩

/-- A program whose jumps lead to its own instructions and that does not end with an instruction
after which control goes on. -/
structure Enclosed (p : Program) : Prop where
  small : p.size < 0x100000000
  nonempty : 0 < p.size
  targets : ∀ i ∈ p.toList, ∀ op, i.opcode? = some op → op = .jmp ∨ op = .cond ∨ op = .call →
    i.longArg.toNat < p.size
  follows : ∀ index i op, p.toList[index]? = some i → i.opcode? = some op →
    op ≠ .halt → op ≠ .jmp → op ≠ .ret → index + 1 < p.size
  noPush : ∀ i ∈ p.toList, i.opcode? ≠ some .push

end Program

namespace ListMachine

/-- While the machine runs its counter is in the program, and so is all that a return can take
from the stack. -/
structure Inside (a : ListMachine) : Prop where
  counter : a.running → a.counter.toNat < a.program.size
  addresses : ∀ w ∈ a.stack, w.bits.toNat < a.program.size

theorem Inside.performs {a b : ListMachine} {i : Instruction} {op : Opcode}
    (henclosed : a.program.Enclosed) (ha : a.Inside) (hget : a.program.get a.counter = .ok i)
    (hop : i.opcode? = some op)
    (h : Performs i op.effect { a with counter := a.counter + 1 } b) : b.Inside := by
  have hmem := Program.mem_of_get hget
  have hnext : op ≠ .halt → op ≠ .jmp → op ≠ .ret → (a.counter + 1).toNat < a.program.size := by
    intro hhalt hjmp hret
    have hfollows := henclosed.follows _ i op (Program.get_eq_ok_iff.mp hget) hop hhalt hjmp hret
    have hsmall := henclosed.small
    rw [toNat_add_one (by omega)]
    exact hfollows
  have htarget := henclosed.targets i hmem op hop
  -- Only a halt, a jump and a return need no instruction behind them.
  generalize he : op.effect = e at h
  cases h with
  | nothing | passed =>
    refine ⟨fun _ => hnext ?_ ?_ ?_, ha.addresses⟩ <;> rintro rfl <;> cases he
  | written _ _ hdestination =>
    refine ⟨fun _ => hnext ?_ ?_ ?_, ha.addresses⟩ <;>
      rintro rfl <;> cases he <;> cases hdestination
  | halt => exact ⟨fun hrunning => absurd hrunning Bool.false_ne_true, ha.addresses⟩
  | jump =>
    have hjmp : op = .jmp := Opcode.eq_of_effect (by rw [he]; rfl)
    exact ⟨fun _ => htarget (.inl hjmp), ha.addresses⟩
  | taken =>
    have hcond : op = .cond := Opcode.eq_of_effect (by rw [he]; rfl)
    exact ⟨fun _ => htarget (.inr (.inl hcond)), ha.addresses⟩
  | push w =>
    have hpush : op = .push := Opcode.eq_of_effect (by rw [he]; rfl)
    exact absurd (hpush ▸ hop) (henclosed.noPush i hmem)
  | pop htop hw =>
    have hpop : op = .pop := Opcode.eq_of_effect (by rw [he]; rfl)
    subst hpop
    refine ⟨fun _ => hnext (by decide) (by decide) (by decide), fun w hw => ha.addresses w ?_⟩
    rw [htop]
    exact List.mem_append_left _ hw
  | call =>
    have hcall : op = .call := Opcode.eq_of_effect (by rw [he]; rfl)
    subst hcall
    refine ⟨fun _ => htarget (.inr (.inr rfl)), fun w hw => ?_⟩
    rcases List.mem_append.mp hw with hw | hw
    · exact ha.addresses w hw
    · cases List.mem_singleton.mp hw
      exact hnext (by decide) (by decide) (by decide)
  | ret htop =>
    have hstack : ∀ w ∈ a.stack, w.bits.toNat < a.program.size := ha.addresses
    rw [show a.stack = _ from htop] at hstack
    refine ⟨fun _ => hstack _ (by simp), fun w hw => hstack w (List.mem_append_left _ hw)⟩

end ListMachine

namespace Machine

variable {σ : Type}

theorem not_instructionOutside_of_mem_checks {m : Machine σ} {i : Instruction}
    (hsys : i.opcode? ≠ some .sys) (index : BitVec 32) (size : Nat) :
    some (.instructionOutside index size) ∉ m.checks i := by
  unfold checks
  cases hop : i.opcode? with
  | none => simp [Check.some_eq_require_iff]
  | some op =>
    have hne : op ≠ .sys := fun heq => hsys (heq ▸ hop)
    cases op with
    | sys => exact absurd rfl hne
    | or | and =>
      simp only [operationChecks]
      split <;> simp [Check.register, Check.some_eq_require_iff]
    | _ => simp [operationChecks, Check.register, Check.cell, Check.some_eq_require_iff]

/-- A step whose instruction is there, and does not call the host, never misses one. -/
theorem step_fault_ne_instructionOutside {m n : Machine σ} {i : Instruction} {fault : Fault}
    (hregisters : m.registers.size = Register.count) (hget : m.program.get m.counter = .ok i)
    (hsys : i.opcode? ≠ some .sys) (h : step m = .error fault n) (index : BitVec 32) (size : Nat) :
    fault ≠ .instructionOutside index size := by
  rintro rfl
  have hfetch : fetch m = .ok i { m with counter := m.counter + 1 } := by
    rw [fetch, hget]
  have hexecute : fault? (step m) = Check.first? (checks { m with counter := m.counter + 1 } i) :=
    (fault?_bind_ok hfetch).trans
      (fault?_execute (m := { m with counter := m.counter + 1 }) hregisters i)
  rw [fault?_eq_some_iff.mpr ⟨n, h⟩] at hexecute
  exact not_instructionOutside_of_mem_checks hsys index size (Check.mem_of_first? hexecute.symm)

/-- No number of steps leads out of an enclosed program. -/
theorem Represents.resume_inside {m : Machine σ} {a : ListMachine} {p : Program}
    (hr : Represents m a) (hprogram : a.program = p) (henclosed : p.Enclosed) (ha : a.Inside)
    (limit : Nat) :
    (∀ fault s, resume Machine.step limit m = .faulted fault s →
      ∀ index size, fault ≠ .instructionOutside index size) ∧
    ∀ s, resume Machine.step limit m = .unfinished s → s.counter.toNat < p.size := by
  induction limit generalizing m a with
  | zero =>
    unfold resume
    split
    next hrunning =>
      refine ⟨nofun, fun s hs => ?_⟩
      cases hs
      rw [hr.counter, ← hprogram]
      exact ha.counter (hr.running ▸ hrunning)
    next => exact ⟨nofun, nofun⟩
  | succ limit ih =>
    unfold resume
    split
    next hrunning =>
      have hcounter := ha.counter (hr.running ▸ hrunning)
      rw [← hr.counter, ← hr.program] at hcounter
      obtain ⟨i, hget⟩ := Program.get_of_lt hcounter
      have hsys : i.opcode? ≠ some .sys := fun hop =>
        (hr.keepsPointer i (Program.mem_of_get hget) .sys hop).1 rfl
      cases hstep : Machine.step m with
      | ok _ n =>
        obtain ⟨b, j, op, hb, hj, hop, hperforms⟩ := hr.step hstep
        rw [hr.program, hr.counter] at hj
        have hinside := ha.performs (hprogram ▸ henclosed) hj hop hperforms
        exact ih hb (hperforms.program_eq.trans hprogram) hinside
      | error fault n =>
        refine ⟨fun other s hs => ?_, nofun⟩
        cases hs
        exact step_fault_ne_instructionOutside hr.registerCount hget hsys hstep
    next => exact ⟨nofun, nofun⟩

end Machine

namespace Listing

/-- A listing, with its program, in which jumps and calls use labels, every label has an operation
behind it, the program ends with a halt, a jump or a return, and only calls and returns move the
stack pointer. -/
structure WellLabelled (listing : String) (p : Program) : Prop where
  jumps : ∀ text ∈ operations listing, ∀ mnemonic args op, Operation.Parts text mnemonic args →
    Opcode.Mnemonic mnemonic op → op = .jmp ∨ op = .cond ∨ op = .call →
    ∃ name, args.head? = some ('@' :: name)
  followed : ∀ name line, LabelLine listing name line →
    ∃ text ∈ (texts listing).drop (line + 1), IsOperation text
  last : ∃ i op, p.toList.getLast? = some i ∧ i.opcode? = some op ∧
    (op = .halt ∨ op = .jmp ∨ op = .ret)
  noPush : ∀ i ∈ p.toList, i.opcode? ≠ some .push ∧ i.opcode? ≠ some .pop
  keepsPointer : p.KeepsPointer

variable {listing : String} {p : Program}

theorem label_lt (hfollowed : ∀ name line, LabelLine listing name line →
      ∃ text ∈ (texts listing).drop (line + 1), IsOperation text)
    {name : List Char} {k : Nat} (h : LabelledAt (texts listing) name k) :
    k < (operations listing).length := by
  obtain ⟨line, hline, rfl⟩ := labelledAt_iff_labelLine.mp h
  obtain ⟨text, htext, hop⟩ := hfollowed name line hline
  have hsome : (((texts listing).drop (line + 1)).find? (IsOperation ·)).isSome :=
    List.find?_isSome.mpr ⟨text, htext, decide_eq_true hop⟩
  obtain ⟨next, hnext⟩ := Option.isSome_iff_exists.mp hsome
  rw [← operation_at_offset hline.2 hline.1] at hnext
  exact (List.getElem?_eq_some_iff.mp hnext).1

theorem WellLabelled.target_lt (h : WellLabelled listing p)
    (hall : List.Forall₂ (Encodes listing) (operations listing) p.toList) {i : Instruction}
    (hi : i ∈ p.toList) {op : Opcode} (hop : i.opcode? = some op)
    (hjump : op = .jmp ∨ op = .cond ∨ op = .call) : i.longArg.toNat < p.size := by
  obtain ⟨j, hj⟩ := List.mem_iff_getElem?.mp hi
  obtain ⟨text, htext, hencodes⟩ := forall₂_getElem? hall.flip hj
  obtain ⟨other, values, ⟨mnemonic, args, hparts, hmnemonic, _, _⟩, hcarries⟩ := hencodes
  cases hop.symm.trans hcarries.1
  obtain ⟨name, hname⟩ :=
    h.jumps text (List.mem_of_getElem? htext) mnemonic args op hparts hmnemonic hjump
  rw [List.head?_eq_getElem?] at hname
  obtain ⟨i', op', k, hi', hop', hk, hlabelled⟩ :=
    exists_label_of_argument hall htext hparts hname
  cases hj.symm.trans hi'
  cases hop.symm.trans hop'
  have hlong : op.isLong := by
    rcases hjump with rfl | rfl | rfl <;> rfl
  have hvalue : i.longArg.toNat = k := by simpa [Instruction.arguments, hlong] using hk
  have hlt := label_lt h.followed hlabelled
  have hlength : (operations listing).length = p.size := hall.length_eq
  omega

theorem WellLabelled.enclosed (h : WellLabelled listing p)
    (hp : Program.ofListing listing = .ok p)
    (hsmall : (operations listing).length < 0x100000000) : p.Enclosed := by
  obtain ⟨_, hall⟩ := (ofListing_eq_ok_iff hsmall).mp hp
  have hlength : (operations listing).length = p.toList.length := hall.length_eq
  have hsize : p.toList.length = p.size := rfl
  obtain ⟨final, finalOp, hfinal, hfinalOp, hends⟩ := h.last
  rw [List.getLast?_eq_getElem?] at hfinal
  obtain ⟨hlast, _⟩ := List.getElem?_eq_some_iff.mp hfinal
  refine ⟨by omega, by omega, fun i hi op => h.target_lt hall hi, ?_, fun i hi => (h.noPush i hi).1⟩
  intro index i op hi hop hhalt hjmp hret
  obtain ⟨hlt, _⟩ := List.getElem?_eq_some_iff.mp hi
  have hne : index ≠ p.toList.length - 1 := by
    rintro rfl
    cases hfinal.symm.trans hi
    cases hfinalOp.symm.trans hop
    rcases hends with hend | hend | hend
    · exact hhalt hend
    · exact hjmp hend
    · exact hret hend
  omega

/-- In a run of a well labelled program from an empty stack every instruction that is fetched is
there, and as long as the run is not over the counter is in the program. -/
theorem run_of_well_labelled_stays_inside {σ : Type} (hp : Program.ofListing listing = .ok p)
    (hsmall : (operations listing).length < 0x100000000) (h : WellLabelled listing p)
    {m : Machine σ} (hprogram : m.program = p) (hregisters : m.registers.size = Register.count)
    (hstack : m.stack.size ≤ 0xFFFF) (hpointer : m.pointer = .zero) (limit : Nat) :
    (∀ fault s, m.run limit = .faulted fault s →
      ∀ index size, fault ≠ .instructionOutside index size) ∧
    ∀ s, m.run limit = .unfinished s → s.counter.toNat < p.size := by
  have henclosed := h.enclosed hp hsmall
  have hzero : m.start.pointer.bits.toNat = 0 := congrArg (fun w => w.bits.toNat) hpointer
  have hr : m.start.Represents m.start.toListMachine :=
    Machine.represents_toListMachine (hprogram ▸ h.keepsPointer) hregisters hstack (by omega)
  refine hr.resume_inside hprogram henclosed ⟨fun _ => ?_, ?_⟩ limit
  · have hnonempty := henclosed.nonempty
    rw [← hprogram] at hnonempty
    exact hnonempty
  · intro w hw
    simp only [Machine.toListMachine, hzero, List.take_zero] at hw
    cases hw

/-- A loop around a call, and behind it the routine that is called. -/
def loopListing : String := "loop:\ncall @f\ncond @loop, $gpr1\nhalt\nf:\nret"

def loopProgram : Program :=
  .ofList [.long .call 3 0, .long .cond 0 2, .bare .halt, .bare .ret]

theorem wellLabelled_loop : WellLabelled loopListing loopProgram where
  jumps := by
    intro text htext mnemonic args op hparts hmnemonic hjump
    have hoperations : operations loopListing =
        ["call @f".toList, "cond @loop, $gpr1".toList, "halt".toList, "ret".toList] := by
      decide +kernel
    have hop := Opcode.ofMnemonic?_eq_some_iff.mpr hmnemonic
    obtain ⟨rfl, rfl⟩ := Operation.parts_iff.mp hparts
    rw [hoperations] at htext
    simp only [List.mem_cons, List.not_mem_nil, or_false] at htext
    rcases htext with rfl | rfl | rfl | rfl
    · exact ⟨"f".toList, by decide +kernel⟩
    · exact ⟨"loop".toList, by decide +kernel⟩
    · cases hop.symm.trans (show _ = some Opcode.halt by decide +kernel)
      simp at hjump
    · cases hop.symm.trans (show _ = some Opcode.ret by decide +kernel)
      simp at hjump
  followed := by
    intro name line hline
    have htexts : texts loopListing = ["loop:".toList, "call @f".toList,
        "cond @loop, $gpr1".toList, "halt".toList, "f:".toList, "ret".toList] := by
      decide +kernel
    obtain ⟨hget, hlabel⟩ := hline
    rw [htexts] at hget ⊢
    obtain ⟨hlt, _⟩ := List.getElem?_eq_some_iff.mp hget
    have hne : line ≠ 5 := by
      rintro rfl
      have hlast : "ret".toList = name ++ [':'] := Option.some.inj hget
      rw [← hlast] at hlabel
      exact absurd hlabel (by decide)
    simp only [List.length_cons, List.length_nil] at hlt
    refine ⟨"ret".toList, List.drop_subset_drop_left _ (show line + 1 ≤ 5 by omega) ?_, by decide⟩
    decide
  last := ⟨.bare .ret, .ret, rfl, rfl, .inr (.inr rfl)⟩
  noPush := by decide +kernel
  keepsPointer := by decide +kernel

theorem run_of_well_labelled_stays_inside_loop :
    (Machine.run 3 (Machine.load loopProgram (.empty : CallTable Unit) 1)).machine.counter.toNat <
      loopProgram.size := by
  have hrun := run_of_well_labelled_stays_inside (by decide +kernel) (by decide +kernel)
    wellLabelled_loop (m := Machine.load loopProgram (.empty : CallTable Unit) 1) rfl rfl
    (by decide) rfl 3
  exact hrun.2 _ rfl

end Listing

end RegisterMachine
