import Mathlib.Data.List.Sort
import RegisterMachine.SystemCall

namespace RegisterMachine

variable {σ : Type}

/-- What is asked of a table. A table that is built up is asked to insert as well as one at
hand, and an invocation brings the spaces it works on. -/
inductive Request (σ : Type) where
  | insert (number : BitVec 32) (call : SystemCall σ)
  | invoke (number : BitVec 32) (registers stack : Space)

namespace Request

/-- A call was inserted under the number, now or earlier. -/
def Inserted (history : List (Request σ)) (number : BitVec 32) : Prop :=
  ∃ call, insert number call ∈ history

/-- The call was inserted under the number, and none was in what came later. -/
def LastInserted (history : List (Request σ)) (number : BitVec 32) (call : SystemCall σ)
    (later : List (Request σ)) : Prop :=
  ∃ before, history = before ++ insert number call :: later ∧ ¬Inserted later number

/-- The spaces that an invocation of the number brings. -/
def spaces? (number : BitVec 32) : Request σ → Option (Space × Space)
  | insert _ _ => none
  | invoke other registers stack => if number = other then some (registers, stack) else none

/-- The numbers that were inserted, each of them once and in increasing order. -/
def ListsInserted (history : List (Request σ)) (numbers : List (BitVec 32)) : Prop :=
  numbers.Pairwise (· < ·) ∧ ∀ number, number ∈ numbers ↔ Inserted history number

variable {history : List (Request σ)} {number : BitVec 32}

theorem inserted_cons {request : Request σ} :
    Inserted (request :: history) number ↔
      (∃ call, request = insert number call) ∨ Inserted history number := by
  simp only [Inserted, List.mem_cons, exists_or, eq_comm]

/-- Of the calls that were inserted under a number one was the last. -/
theorem exists_lastInserted (h : Inserted history number) :
    ∃ call later, LastInserted history number call later := by
  induction history with
  | nil =>
    obtain ⟨call, hmem⟩ := h
    cases hmem
  | cons request history ih =>
    by_cases hrest : Inserted history number
    · obtain ⟨call, later, before, rfl, hlater⟩ := ih hrest
      exact ⟨call, later, request :: before, rfl, hlater⟩
    · obtain ⟨call, rfl⟩ := (inserted_cons.mp h).resolve_right hrest
      exact ⟨call, history, [], rfl, hrest⟩

theorem LastInserted.inserted {call : SystemCall σ} {later : List (Request σ)}
    (h : LastInserted history number call later) : Inserted history number := by
  obtain ⟨before, rfl, _⟩ := h
  exact ⟨call, by simp⟩

end Request

namespace SystemCall

/-- The transition of a call: what it makes of its private state and the spaces, and the fault it
ends with if it does. -/
def outcome (call : SystemCall σ) (registers stack : Space) : Host σ × Option Fault :=
  match call.act ⟨call.state, registers, stack, #[]⟩ with
  | .ok _ host => (host, none)
  | .error fault host => (host, some fault)

/-- The call with the private state that an invocation leaves, with or without a fault. -/
def invoked (call : SystemCall σ) (registers stack : Space) : SystemCall σ :=
  { call with state := (call.outcome registers stack).1.own }

def invokedAll (call : SystemCall σ) (invocations : List (Space × Space)) : SystemCall σ :=
  invocations.foldl (fun call spaces => call.invoked spaces.1 spaces.2) call

end SystemCall

namespace CallTable

def serve (t : CallTable σ) : Request σ → CallTable σ
  | .insert number call => t.insert number call
  | .invoke number registers stack => (t.invoke number registers stack).calls

/-- The table that a history of requests leaves, the first of them asked of an empty table. -/
def after (history : List (Request σ)) : CallTable σ :=
  history.foldl serve .empty

/-- The call was run under the number and nothing else was: what is left behind is what the call
has made of the spaces, its new private state, and all other calls as they were. -/
structure Runs (t : CallTable σ) (number : BitVec 32) (call : SystemCall σ)
    (registers stack : Space) (called : Called σ) : Prop where
  spaces : called.registers = (call.outcome registers stack).1.registers ∧
    called.stack = (call.outcome registers stack).1.stack
  printed : called.printed = (call.outcome registers stack).1.printed
  fault : called.fault = (call.outcome registers stack).2
  own : called.calls.get? number = some (call.invoked registers stack)
  others : ∀ other, other ≠ number → called.calls.get? other = t.get? other

variable {t : CallTable σ} {number : BitVec 32} {call : SystemCall σ}

theorem invoke_of_none (h : t.get? number = none) (registers stack : Space) :
    t.invoke number registers stack = ⟨t, registers, stack, #[], some (.unmappedCall number)⟩ := by
  rw [invoke, h]

theorem invoke_of_some (h : t.get? number = some call) (registers stack : Space) :
    t.invoke number registers stack =
      ⟨t.setState number (call.outcome registers stack).1.own,
        (call.outcome registers stack).1.registers, (call.outcome registers stack).1.stack,
        (call.outcome registers stack).1.printed, (call.outcome registers stack).2⟩ := by
  simp only [invoke, h, SystemCall.outcome]
  cases call.act ⟨call.state, registers, stack, #[]⟩ with
  | ok _ host => rfl
  | error fault host => rfl

theorem runs_invoke (h : t.get? number = some call) (registers stack : Space) :
    Runs t number call registers stack (t.invoke number registers stack) := by
  rw [invoke_of_some h]
  refine ⟨⟨rfl, rfl⟩, rfl, rfl, ?_, fun other hne => ?_⟩
  · rw [get?_setState, h, Option.map_some, if_pos rfl]
    rfl
  · rw [get?_setState]
    simp [hne]

/-- What a request makes of the call under a number. -/
def change (number : BitVec 32) (before : Option (SystemCall σ)) :
    Request σ → Option (SystemCall σ)
  | .insert other call => if number = other then some call else before
  | .invoke other registers stack =>
    if number = other then before.map (·.invoked registers stack) else before

theorem get?_serve (t : CallTable σ) (number : BitVec 32) (request : Request σ) :
    (t.serve request).get? number = change number (t.get? number) request := by
  cases request with
  | insert other call => exact get?_insert t other number call
  | invoke other registers stack =>
    show (t.invoke other registers stack).calls.get? number =
      if number = other then (t.get? number).map (·.invoked registers stack) else t.get? number
    cases hcall : t.get? other with
    | none =>
      rw [invoke_of_none hcall]
      split
      next heq => rw [heq, hcall, Option.map_none]
      next => rfl
    | some call =>
      have hruns := runs_invoke hcall registers stack
      split
      next heq => rw [heq, hcall, hruns.own, Option.map_some]
      next hne => exact hruns.others number hne

theorem get?_after (history : List (Request σ)) (number : BitVec 32) :
    (after history).get? number = history.foldl (change number) none := by
  have hserve : ∀ (t : CallTable σ) request,
      change number (t.get? number) request = (t.serve request).get? number :=
    fun t request => (get?_serve t number request).symm
  exact (List.foldl_hom (get? · number) hserve).symm

/-- Requests that insert nothing under a number invoke its call, or do not concern it. -/
theorem foldl_change_of_not_inserted {later : List (Request σ)}
    (h : ¬Request.Inserted later number) (before : Option (SystemCall σ)) :
    later.foldl (change number) before =
      before.map (·.invokedAll (later.filterMap (Request.spaces? number))) := by
  induction later generalizing before with
  | nil => exact Option.map_id'.symm
  | cons request later ih =>
    rw [Request.inserted_cons, not_or] at h
    obtain ⟨hrequest, hlater⟩ := h
    rw [List.foldl_cons, ih hlater]
    cases request with
    | insert other call =>
      have hne : number ≠ other := fun heq => hrequest ⟨call, by rw [heq]⟩
      rw [change, if_neg hne, List.filterMap_cons_none rfl]
    | invoke other registers stack =>
      by_cases heq : number = other
      · have hspaces : (Request.invoke other registers stack : Request σ).spaces? number =
            some (registers, stack) := if_pos heq
        rw [change, if_pos heq, Option.map_map, List.filterMap_cons_some hspaces]
        rfl
      · have hspaces : (Request.invoke other registers stack : Request σ).spaces? number =
            none := if_neg heq
        rw [change, if_neg heq, List.filterMap_cons_none hspaces]

theorem get?_after_of_lastInserted {history later : List (Request σ)}
    (h : Request.LastInserted history number call later) :
    (after history).get? number =
      some (call.invokedAll (later.filterMap (Request.spaces? number))) := by
  obtain ⟨before, rfl, hlater⟩ := h
  rw [get?_after, List.foldl_append, List.foldl_cons, change, if_pos rfl,
    foldl_change_of_not_inserted hlater, Option.map_some]

theorem get?_after_eq_none_iff {history : List (Request σ)} :
    (after history).get? number = none ↔ ¬Request.Inserted history number := by
  constructor
  · intro hnone hinserted
    obtain ⟨call, later, hlast⟩ := Request.exists_lastInserted hinserted
    rw [get?_after_of_lastInserted hlast] at hnone
    cases hnone
  · intro hnever
    rw [get?_after, foldl_change_of_not_inserted hnever, Option.map_none]

theorem contains_after_iff {history : List (Request σ)} :
    (after history).contains number = true ↔ Request.Inserted history number := by
  rw [contains, ← Option.ne_none_iff_isSome, Ne, get?_after_eq_none_iff, not_not]

theorem mem_numbers_iff (t : CallTable σ) (number : BitVec 32) :
    number ∈ t.numbers ↔ t.contains number = true := by
  rw [contains, get?, List.lookup_isSome_iff, numbers, List.mem_mergeSort, keys, List.mem_map]
  simp only [beq_iff_eq, eq_comm (a := number)]

/-- The numbers are sorted, and as no number comes twice none is equal to the next. -/
theorem numbers_increasing (t : CallTable σ) : t.numbers.Pairwise (· < ·) := by
  have hsorted : t.numbers.Pairwise fun a b => decide (a ≤ b) = true := by
    refine List.pairwise_mergeSort (fun a b c hab hbc => ?_) (fun a b => ?_) t.keys
    · exact decide_eq_true (BitVec.le_trans (of_decide_eq_true hab) (of_decide_eq_true hbc))
    · simpa using BitVec.le_total a b
  have hdistinct : t.numbers.Nodup := (List.mergeSort_perm t.keys _).nodup_iff.mpr t.distinct
  refine (hsorted.and hdistinct).imp ?_
  rintro a b ⟨hle, hne⟩
  have hle' : a.toNat ≤ b.toNat := BitVec.le_def.mp (of_decide_eq_true hle)
  have hne' : a.toNat ≠ b.toNat := fun heq => hne (BitVec.eq_of_toNat_eq heq)
  rw [BitVec.lt_def]
  omega

theorem length_numbers (t : CallTable σ) : t.numbers.length = t.size := by
  rw [numbers, List.length_mergeSort, keys, List.length_map]
  rfl

theorem listsInserted_numbers (history : List (Request σ)) :
    Request.ListsInserted history (after history).numbers :=
  ⟨numbers_increasing _, fun number => (mem_numbers_iff _ number).trans contains_after_iff⟩

/-- Increasing numbers are known by what they are. -/
theorem numbers_eq_of_listsInserted {history : List (Request σ)} {numbers : List (BitVec 32)}
    (h : Request.ListsInserted history numbers) : (after history).numbers = numbers := by
  obtain ⟨hincreasing, hmem⟩ := listsInserted_numbers history
  refine hincreasing.eq_of_mem_iff h.1 fun number => ?_
  rw [hmem, h.2]

/-- After any history of inserts and invocations a number that was inserted has a call inserted
last, and an invocation runs this call in the private state that the invocations of the number
since have left, those that ended with a fault among them, and no other call. A number that was
never inserted has no call, and to invoke it is a fault that changes nothing. The table holds the
numbers that were inserted, each once, and its text lists them in increasing order. -/
theorem calls_follow_history (history : List (Request σ)) :
    (∀ number, Request.Inserted history number ↔
      ∃ call later, Request.LastInserted history number call later) ∧
    (∀ number call later, Request.LastInserted history number call later →
      ∀ registers stack, Runs (after history) number
        (call.invokedAll (later.filterMap (Request.spaces? number))) registers stack
        ((after history).invoke number registers stack)) ∧
    (∀ number, ((after history).get? number = none ↔ ¬Request.Inserted history number) ∧
      (¬Request.Inserted history number → ∀ registers stack,
        (after history).invoke number registers stack =
          ⟨after history, registers, stack, #[], some (.unmappedCall number)⟩) ∧
      (Fault.unmappedCall number).message =
        "Error: No system call is mapped to number " ++ decimal number.toNat ++ ".") ∧
    (∀ number, (after history).contains number = true ↔ Request.Inserted history number) ∧
    (∃ numbers, Request.ListsInserted history numbers) ∧
    ∀ numbers, Request.ListsInserted history numbers →
      (after history).size = numbers.length ∧
      (after history).text = "SystemCallTable \x7b calls: [" ++
        ", ".intercalate (numbers.map (decimal ·.toNat)) ++ "] \x7d" := by
  refine ⟨fun number => ⟨Request.exists_lastInserted, ?_⟩, fun number call later hlast => ?_,
    fun number => ⟨get?_after_eq_none_iff, fun hnever => ?_, rfl⟩, fun number => contains_after_iff,
    ⟨_, listsInserted_numbers history⟩, fun numbers hnumbers => ?_⟩
  · rintro ⟨call, later, hlast⟩
    exact hlast.inserted
  · exact runs_invoke (get?_after_of_lastInserted hlast)
  · exact invoke_of_none (get?_after_eq_none_iff.mpr hnever)
  · rw [← numbers_eq_of_listsInserted hnumbers]
    exact ⟨(length_numbers _).symm, rfl⟩

/-- Counts its invocations, and gives up at each of them. -/
def counting : SystemCall Nat where
  state := 0
  act := do
    modify fun host => { host with own := host.own + 1 }
    throw (.raised "busy")

theorem calls_follow_history_counting :
    let space := Space.zeros 1
    let later := [Request.invoke 7 space space, .insert 3 counting, .invoke 7 space space]
    let history := .insert 7 counting :: .insert 7 counting :: later
    let called := (after history).invoke 7 space space
    called.fault = some (.raised "busy") ∧ (called.calls.get? 7).map (·.state) = some 3 ∧
      (called.calls.get? 3).map (·.state) = some 0 ∧ (after history).size = 2 ∧
      (after history).text = "SystemCallTable \x7b calls: [3, 7] \x7d" := by
  intro space later history called
  have hnever : ∀ call : SystemCall Nat, Request.insert 7 call ∉ later := by
    simp [later]
  have hlast : Request.LastInserted history 7 counting later :=
    ⟨[.insert 7 counting], rfl, fun ⟨call, hmem⟩ => hnever call hmem⟩
  have hlists : Request.ListsInserted history [3, 7] := by
    refine ⟨by decide, fun number => ⟨fun hmem => ⟨counting, ?_⟩, fun ⟨call, hmem⟩ => ?_⟩⟩
    · rcases List.mem_pair.mp hmem with rfl | rfl
      · simp [history, later]
      · simp [history]
    · have hnumber : number = 7 ∧ call = counting ∨ number = 3 ∧ call = counting := by
        simpa [history, later] using hmem
      rcases hnumber with ⟨rfl, _⟩ | ⟨rfl, _⟩
      · decide
      · decide
  obtain ⟨_, hruns, _, _, _, htable⟩ := calls_follow_history history
  obtain ⟨hsize, htext⟩ := htable _ hlists
  have hrun := hruns 7 counting later hlast space space
  refine ⟨hrun.fault, ?_, ?_, hsize, htext.trans ?_⟩
  · rw [hrun.own]
    rfl
  · rw [hrun.others 3 (by decide)]
    rfl
  · decide +kernel

end CallTable

end RegisterMachine
