import RegisterMachine.Program

namespace RegisterMachine

namespace Instruction

theorem toBytes_ofEightBytes (b0 b1 b2 b3 b4 b5 b6 b7 : UInt8) :
    (ofEightBytes b0 b1 b2 b3 b4 b5 b6 b7).toBytes = [b0, b1, b2, b3, b4, b5, b6, b7] := by
  simp (disch := decide) only [toBytes, byte, ofEightBytes, Nat.reduceMul, Nat.reduceSub,
    Nat.sub_self, BitVec.extractLsb'_append_eq_of_le, BitVec.extractLsb'_append_eq_of_add_le,
    BitVec.extractLsb'_eq_self]

theorem ofBytes?_toBytes (i : Instruction) : ofBytes? i.toBytes = some i :=
  congrArg some (ofEightBytes_byte i)

end Instruction

namespace Program

open Instruction (byteCount)

/-- The bytes in the place of the instruction with the given index. -/
def chunk (bytes : List UInt8) (index : Nat) : List UInt8 :=
  (bytes.drop (byteCount * index)).take byteCount

theorem length_toBytes (p : Program) : p.toBytes.length = byteCount * p.size := by
  have hsize : p.toList.length = p.size := rfl
  rw [toBytes, List.length_flatMap]
  simp only [Instruction.length_toBytes, List.map_const', List.sum_replicate_nat, hsize,
    Nat.mul_comm]

/-- The bytes of instructions are cut into the bytes of each of them. -/
theorem appendChunks_flatMap (front : Array (List UInt8)) (instructions : List Instruction) :
    (appendChunks front (instructions.flatMap Instruction.toBytes)).toList =
      front.toList ++ instructions.map Instruction.toBytes := by
  induction instructions generalizing front with
  | nil => exact (List.append_nil front.toList).symm
  | cons i rest ih =>
    have hfirst : appendChunks front (i.toBytes ++ rest.flatMap Instruction.toBytes) =
        appendChunks (front.push i.toBytes) (rest.flatMap Instruction.toBytes) := rfl
    rw [List.flatMap_cons, hfirst, ih, Array.toList_push, List.append_assoc,
      List.singleton_append, List.map_cons]

/-- None of these chunks is skipped. -/
theorem filterMap_ofBytes?_toBytes (instructions : List Instruction) :
    (instructions.map Instruction.toBytes).filterMap Instruction.ofBytes? = instructions := by
  have hread : Instruction.ofBytes? ∘ Instruction.toBytes = some :=
    funext Instruction.ofBytes?_toBytes
  rw [List.filterMap_map, hread, List.filterMap_some]

theorem ofBytes_toBytes (p : Program) : ofBytes p.toBytes = .ok p := by
  have haligned : p.toBytes.length % byteCount = 0 := by
    rw [length_toBytes, Nat.mul_mod_right]
  have hlist : ((chunks p.toBytes).filterMap Instruction.ofBytes?).toList = p.toList := by
    rw [Array.toList_filterMap, chunks, toBytes, appendChunks_flatMap]
    exact filterMap_ofBytes?_toBytes p.toList
  rw [ofBytes, if_pos haligned]
  exact congrArg (fun list => Except.ok (ofList list)) hlist

/-- If the bytes come out even, every eight of them are those of an instruction. -/
theorem exists_flatMap_toBytes :
    ∀ bytes : List UInt8, bytes.length % byteCount = 0 →
      ∃ instructions : List Instruction, instructions.flatMap Instruction.toBytes = bytes
  | [], _ => ⟨[], rfl⟩
  | b0 :: b1 :: b2 :: b3 :: b4 :: b5 :: b6 :: b7 :: rest, haligned => by
    have hrest : rest.length % byteCount = 0 := by
      simp only [List.length_cons, byteCount] at haligned ⊢
      omega
    obtain ⟨instructions, heq⟩ := exists_flatMap_toBytes rest hrest
    refine ⟨.ofEightBytes b0 b1 b2 b3 b4 b5 b6 b7 :: instructions, ?_⟩
    rw [List.flatMap_cons, heq, Instruction.toBytes_ofEightBytes]
    rfl
  | [_], h | [_, _], h | [_, _, _], h | [_, _, _, _], h | [_, _, _, _, _], h
  | [_, _, _, _, _, _], h | [_, _, _, _, _, _, _], h => by simp [byteCount] at h

theorem chunk_flatMap (instructions : List Instruction) (index : Nat) :
    Instruction.ofBytes? (chunk (instructions.flatMap Instruction.toBytes) index) =
      instructions[index]? := by
  induction instructions generalizing index with
  | nil => simp [chunk, Instruction.ofBytes?]
  | cons i rest ih =>
    cases index with
    | zero => exact Instruction.ofBytes?_toBytes i
    | succ index =>
      rw [List.getElem?_cons_succ, ← ih, chunk, chunk, List.flatMap_cons, Nat.mul_succ,
        Nat.add_comm, ← List.drop_drop, List.drop_left' (Instruction.length_toBytes i)]

theorem ofBytes_eq_error_iff {bytes : List UInt8} {e : Misaligned} :
    ofBytes bytes = .error e ↔ ¬byteCount ∣ bytes.length ∧ e = ⟨bytes.length⟩ := by
  rw [Nat.dvd_iff_mod_eq_zero, ofBytes]
  split
  next h => simp [h]
  next h => simp [h, eq_comm]

theorem ofBytes_of_dvd {bytes : List UInt8} (h : byteCount ∣ bytes.length) :
    ∃ p, ofBytes bytes = .ok p ∧ p.toBytes = bytes := by
  obtain ⟨instructions, heq⟩ := exists_flatMap_toBytes bytes (Nat.dvd_iff_mod_eq_zero.mp h)
  have hbytes : (ofList instructions).toBytes = bytes := heq
  exact ⟨ofList instructions, hbytes ▸ ofBytes_toBytes _, hbytes⟩

/-- Writing a program and reading it back gives the program, and reading bytes fails exactly if
they are no whole number of instructions; otherwise writing what was read gives the bytes back,
and every instruction is that of the eight bytes in its place. -/
theorem byte_form_one_to_one :
    (∀ p : Program, p.toBytes.length = byteCount * p.size ∧ ofBytes p.toBytes = .ok p) ∧
    ∀ bytes : List UInt8,
      (∀ e, ofBytes bytes = .error e ↔ ¬byteCount ∣ bytes.length ∧ e = ⟨bytes.length⟩) ∧
      (byteCount ∣ bytes.length → ∃ p, ofBytes bytes = .ok p ∧ p.toBytes = bytes ∧
        ∀ index, p.toList[index]? = Instruction.ofBytes? (chunk bytes index)) := by
  refine ⟨fun p => ⟨length_toBytes p, ofBytes_toBytes p⟩, fun bytes => ⟨?_, fun h => ?_⟩⟩
  · exact fun e => ofBytes_eq_error_iff
  · obtain ⟨p, hp, hbytes⟩ := ofBytes_of_dvd h
    refine ⟨p, hp, hbytes, fun index => ?_⟩
    rw [← hbytes]
    exact (chunk_flatMap p.toList index).symm

/-- Bytes whose operation code is not known are an instruction all the same. -/
theorem byte_form_one_to_one_unknown :
    byteCount ∣ (List.replicate 16 (0xFF : UInt8)).length ∧
      ∃ p, ofBytes (List.replicate 16 0xFF) = .ok p ∧ p.toBytes = List.replicate 16 0xFF ∧
        p.toList[1]? = some ⟨0xFFFFFFFFFFFFFFFF⟩ := by
  have haligned : byteCount ∣ (List.replicate 16 (0xFF : UInt8)).length := by decide
  obtain ⟨p, hp, hbytes, hchunks⟩ := (byte_form_one_to_one.2 _).2 haligned
  exact ⟨haligned, p, hp, hbytes, (hchunks 1).trans (by decide)⟩

end Program

end RegisterMachine
