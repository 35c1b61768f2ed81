import RegisterMachine.Proofs.LabelOffsets
import RegisterMachine.Proofs.OperationGrammar

namespace RegisterMachine

namespace Listing

/-- The lines of a listing without the blanks around them. -/
def texts (listing : String) : List (List Char) :=
  (lines listing.toList).map trim

def labels (listing : String) : List (List Char) :=
  (texts listing).filter (IsLabel ·)

def operations (listing : String) : List (List Char) :=
  (texts listing).filter (IsOperation ·)

/-- An operation of a listing, in which a label stands for its offset. -/
def Reads (listing : String) : List Char → Opcode → List Nat → Prop :=
  Operation.Reads (LabelledAt (texts listing))

/-- The instruction that an operation of a listing becomes. -/
def Encodes (listing : String) (text : List Char) (i : Instruction) : Prop :=
  ∃ op values, Reads listing text op values ∧ i.Carries op values

end Listing

theorem LabelledAt.le {texts : List (List Char)} {name : List Char} {k : Nat}
    (h : LabelledAt texts name k) : k ≤ (texts.filter (IsOperation ·)).length := by
  obtain ⟨before, after, rfl, _, rfl⟩ := h
  simp [List.countP_eq_length_filter]

theorem mapError_eq_ok_iff {ε ε' α : Type} {f : ε → ε'} {x : Except ε α} {a : α} :
    x.mapError f = .ok a ↔ x = .ok a := by
  cases x <;> simp [Except.mapError]

namespace Program

/-- Assembly collects the labels and turns one operation after the other into an instruction. -/
theorem ofListing_eq_ok_iff_labels {listing : String} {p : Program} :
    ofListing listing = .ok p ↔
      ∃ labels, Labels.ofLines (Line.ofListing listing.toList) = .ok labels ∧
        List.Forall₂ (fun text i => Instruction.ofOperation labels text = .ok i)
          (Listing.operations listing) p.toList := by
  have hoperations : ((Line.ofListing listing.toList).filterMap Line.operation?).map Prod.fst =
      Listing.operations listing := Line.operations_numbered 1 (lines listing.toList)
  rw [ofListing, ofLines, bind_eq_ok_iff]
  refine exists_congr fun labels => and_congr_right fun _ => ?_
  rw [bind_eq_ok_iff, ← hoperations, List.forall₂_map_left_iff]
  simp only [mapM_eq_ok_iff, mapError_eq_ok_iff]
  constructor
  · rintro ⟨instructions, h, heq⟩
    cases Except.ok.inj heq
    exact h
  · intro h
    exact ⟨p.toList, h, rfl⟩

end Program

namespace Labels

theorem exists_ofLines_iff {listing : String} :
    (∃ labels, ofLines (Line.ofListing listing.toList) = .ok labels) ↔
      (Listing.labels listing).Nodup := by
  refine Iff.trans exists_extend_iff ?_
  simp [Listing.labels, Listing.texts]

theorem lookup_ofLines {listing : String} {labels : Labels}
    (h : ofLines (Line.ofListing listing.toList) = .ok labels) (name : List Char) (k : Nat) :
    labels.lookup name = some k ↔ LabelledAt (Listing.texts listing) name k := by
  refine (lookup_extend h name k).trans ?_
  simp [Listing.texts]

theorem lookup_eq_labelledAt {listing : String} {labels : Labels}
    (h : ofLines (Line.ofListing listing.toList) = .ok labels) :
    (fun name k => labels.lookup name = some k) = LabelledAt (Listing.texts listing) := by
  funext name k
  exact propext (lookup_ofLines h name k)

theorem lookup_lt {listing : String} {labels : Labels}
    (hsmall : (Listing.operations listing).length < 0x100000000)
    (h : ofLines (Line.ofListing listing.toList) = .ok labels) (name : List Char) (k : Nat)
    (hk : labels.lookup name = some k) : k < 0x100000000 := by
  have hle := ((lookup_ofLines h name k).mp hk).le
  exact Nat.lt_of_le_of_lt hle hsmall

end Labels

theorem exists_forall₂_of_forall {α β : Type} {r : α → β → Prop} {xs : List α}
    (h : ∀ x ∈ xs, ∃ y, r x y) : ∃ ys, List.Forall₂ r xs ys := by
  induction xs with
  | nil => exact ⟨[], .nil⟩
  | cons x xs ih =>
    obtain ⟨y, hy⟩ := h x (by simp)
    obtain ⟨ys, hys⟩ := ih fun z hz => h z (by simp [hz])
    exact ⟨y :: ys, .cons hy hys⟩

theorem forall_of_forall₂ {α β : Type} {r : α → β → Prop} {xs : List α} {ys : List β}
    (h : List.Forall₂ r xs ys) : ∀ x ∈ xs, ∃ y, r x y := by
  induction h with
  | nil => simp
  | cons hxy _ ih => exact List.forall_mem_cons.mpr ⟨⟨_, hxy⟩, ih⟩

namespace Listing

theorem ofOperation_eq_ok_iff_encodes {listing : String} {labels : Labels}
    (hsmall : (operations listing).length < 0x100000000)
    (h : Labels.ofLines (Line.ofListing listing.toList) = .ok labels) {text : List Char}
    {i : Instruction} :
    Instruction.ofOperation labels text = .ok i ↔ Encodes listing text i := by
  rw [Instruction.ofOperation_eq_ok_iff (Labels.lookup_lt hsmall h),
    Labels.lookup_eq_labelledAt h]
  rfl

/-- The program of a listing, if it has one, is the list of the instructions that its operations
become. -/
theorem ofListing_eq_ok_iff {listing : String} {p : Program}
    (hsmall : (operations listing).length < 0x100000000) :
    Program.ofListing listing = .ok p ↔
      (labels listing).Nodup ∧ List.Forall₂ (Encodes listing) (operations listing) p.toList := by
  rw [Program.ofListing_eq_ok_iff_labels]
  constructor
  · rintro ⟨found, hfound, hall⟩
    refine ⟨Labels.exists_ofLines_iff.mp ⟨found, hfound⟩, hall.imp fun text i hi => ?_⟩
    exact (ofOperation_eq_ok_iff_encodes hsmall hfound).mp hi
  · rintro ⟨hnodup, hall⟩
    obtain ⟨found, hfound⟩ := Labels.exists_ofLines_iff.mpr hnodup
    refine ⟨found, hfound, hall.imp fun text i hi => ?_⟩
    exact (ofOperation_eq_ok_iff_encodes hsmall hfound).mpr hi

theorem exists_carries {op : Opcode} {values : List Nat} {offset : List Char → Nat → Prop}
    (hoffset : ∀ name k, offset name k → k < 0x100000000) {text : List Char}
    (h : Operation.Reads offset text op values) : ∃ i : Instruction, i.Carries op values := by
  obtain ⟨mnemonic, args, _, _, hdenotes, hfits⟩ := h
  have hmap := Instruction.map_toNat_of_denotes hoffset hdenotes
  rw [← hmap] at hfits
  obtain ⟨i, hi⟩ := Instruction.ofValues_of_fits hfits
  exact ⟨i, hmap ▸ (Instruction.ofValues_carries hi).2⟩

/-- The grammar of listings and the programs they become. -/
theorem assembles_iff_grammatical (listing : String)
    (hsmall : (operations listing).length < 0x100000000) :
    ((∃ p, Program.ofListing listing = .ok p) ↔
      (labels listing).Nodup ∧
        ∀ text ∈ operations listing, ∃ op values, Reads listing text op values) ∧
    ∀ p, Program.ofListing listing = .ok p ↔
      (labels listing).Nodup ∧
        List.Forall₂ (Encodes listing) (operations listing) p.toList := by
  refine ⟨⟨?_, ?_⟩, fun p => ofListing_eq_ok_iff hsmall⟩
  · rintro ⟨p, hp⟩
    obtain ⟨hnodup, hall⟩ := (ofListing_eq_ok_iff hsmall).mp hp
    refine ⟨hnodup, fun text htext => ?_⟩
    obtain ⟨i, op, values, hreads, _⟩ := forall_of_forall₂ hall text htext
    exact ⟨op, values, hreads⟩
  · rintro ⟨hnodup, hall⟩
    have hencodes : ∀ text ∈ operations listing, ∃ i, Encodes listing text i := by
      intro text htext
      obtain ⟨op, values, hreads⟩ := hall text htext
      obtain ⟨i, hi⟩ := exists_carries
        (fun _ _ hk => Nat.lt_of_le_of_lt (LabelledAt.le hk) hsmall) hreads
      exact ⟨i, op, values, hreads, hi⟩
    obtain ⟨instructions, hinstructions⟩ := exists_forall₂_of_forall hencodes
    exact ⟨.ofList instructions, (ofListing_eq_ok_iff hsmall).mpr ⟨hnodup, hinstructions⟩⟩

theorem assembles_iff_grammatical_loop :
    let listing := "start:\r\n\n# data\n li 1.5f , $gpr1\njmp @start"
    (operations listing).length < 0x100000000 ∧ (labels listing).Nodup ∧
      List.Forall₂ (Encodes listing) (operations listing)
        [.long .li 0x3FC00000 2, .long .jmp 0 0] :=
  ⟨by decide, ((assembles_iff_grammatical _ (by decide)).2
    (.ofList [.long .li 0x3FC00000 2, .long .jmp 0 0])).mp (by decide +kernel)⟩

end Listing

end RegisterMachine
