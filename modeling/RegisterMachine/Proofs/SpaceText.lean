import RegisterMachine.Space
import RegisterMachine.Proofs.PrintedText
import Mathlib.Data.List.Basic

namespace RegisterMachine

theorem Word.text_inj {v w : Word} (h : v.text = w.text) : v = w :=
  congrArg Word.mk (BitVec.eq_of_toNat_eq (hex_inj h))

namespace Space

variable {s t : Space}

/-- The line of a word at an address. -/
def lineText : Word × Nat → List Char
  | (w, address) => (hex address ++ ": " ++ w.text).toList

theorem colon_not_mem_hex (n : Nat) : ':' ∉ (hex n).toList :=
  fun hc => forall_mem_hex (P := (· ≠ ':')) (by decide) (by decide) n _ hc rfl

theorem lineText_eq (w : Word) (address : Nat) :
    lineText (w, address) = (hex address).toList ++ ':' :: ' ' :: w.text.toList := by
  simp [lineText]

theorem lineText_injective : Function.Injective lineText := by
  rintro ⟨v, a⟩ ⟨w, b⟩ h
  have hword : ':' ∉ ' ' :: v.text.toList :=
    List.not_mem_cons_of_ne_of_not_mem (by decide) (colon_not_mem_hex v.bits.toNat)
  rw [lineText_eq, lineText_eq, List.append_cons_inj_of_notMem (colon_not_mem_hex a) hword] at h
  have haddress : a = b := hex_inj (String.toList_inj.mp h.1)
  have htext : v = w := Word.text_inj (String.toList_inj.mp (List.cons.inj h.2.2).2)
  rw [haddress, htext]

theorem isPrintable_lineText (entry : Word × Nat) : IsPrintable (lineText entry) := by
  obtain ⟨w, address⟩ := entry
  rw [lineText_eq]
  exact (isPrintable_hex address).append (.cons (by decide) (.cons (by decide) (isPrintable_hex _)))

theorem lineText_ne_nil (entry : Word × Nat) : lineText entry ≠ [] := by
  obtain ⟨w, address⟩ := entry
  simp [lineText_eq]

theorem lines_text (s : Space) : lines s.text.toList = s.nonzero.map lineText :=
  lines_intercalate_map isPrintable_lineText lineText_ne_nil s.nonzero

theorem mem_nonzero_iff {w : Word} {address : Nat} :
    (w, address) ∈ s.nonzero ↔ s.words[address]? = some w ∧ w ≠ .zero := by
  simp [nonzero, List.mk_mem_zipIdx_iff_getElem?]

theorem nonzero_increasing (s : Space) : s.nonzero.Pairwise (·.2 < ·.2) := by
  have hall : s.words.toList.zipIdx.Pairwise (·.2 < ·.2) := by
    rw [← List.pairwise_map, List.zipIdx_map_snd]
    exact List.pairwise_lt_range' _
  exact hall.filter _

/-- At each address the words are the same: a word that is not zero is listed for both, and where
nothing is listed both are zero. -/
theorem eq_of_nonzero (hsize : s.size = t.size) (h : s.nonzero = t.nonzero) : s = t := by
  have hlisted : ∀ (k : Nat) (w : Word), w ≠ .zero →
      (s.words[k]? = some w ↔ t.words[k]? = some w) := by
    intro k w hw
    have hs : (w, k) ∈ s.nonzero ↔ s.words[k]? = some w := by simp [mem_nonzero_iff, hw]
    have ht : (w, k) ∈ t.nonzero ↔ t.words[k]? = some w := by simp [mem_nonzero_iff, hw]
    rw [← hs, h, ht]
  refine congrArg Space.mk (Array.ext hsize fun k hs ht => ?_)
  by_cases hzero : s.words[k] = .zero
  · by_contra hne
    have hlist := (hlisted k t.words[k] (fun heq => hne (hzero.trans heq.symm))).mpr
      (Array.getElem?_eq_getElem ht)
    exact hne (Option.some.inj ((Array.getElem?_eq_getElem hs).symm.trans hlist))
  · have hlist := (hlisted k s.words[k] hzero).mp (Array.getElem?_eq_getElem hs)
    exact Option.some.inj (hlist.symm.trans (Array.getElem?_eq_getElem ht))

theorem text_eq_empty_iff : s.text = "" ↔ s.nonzero = [] := by
  constructor
  · intro h
    have hlines := s.lines_text
    rw [h] at hlines
    exact List.map_eq_nil_iff.mp hlines.symm
  · intro h
    rw [text, h]
    rfl

theorem nonzero_eq_nil_iff : s.nonzero = [] ↔ ∀ w ∈ s.words, w = .zero := by
  constructor
  · intro h w hw
    by_contra hne
    obtain ⟨k, hk⟩ := Array.mem_iff_getElem?.mp hw
    have hmem := mem_nonzero_iff.mpr ⟨hk, hne⟩
    rw [h] at hmem
    cases hmem
  · intro h
    refine List.eq_nil_iff_forall_not_mem.mpr ?_
    rintro ⟨w, address⟩ hmem
    obtain ⟨hk, hne⟩ := mem_nonzero_iff.mp hmem
    exact hne (h w (Array.mem_of_getElem? hk))

/-- Among spaces of one size the text determines the space. It has one line for each word that is
not zero, by increasing address, and so it is empty exactly if all words are zero. -/
theorem dump_determines_space :
    (∀ s t : Space, s.size = t.size → (s.text = t.text ↔ s = t)) ∧
    ∀ s : Space,
      lines s.text.toList = s.nonzero.map lineText ∧
      s.nonzero.Pairwise (·.2 < ·.2) ∧
      (∀ w address, (w, address) ∈ s.nonzero ↔ s.words[address]? = some w ∧ w ≠ .zero) ∧
      (s.text = "" ↔ ∀ w ∈ s.words, w = .zero) := by
  refine ⟨fun s t hsize => ⟨fun h => ?_, congrArg text⟩, fun s => ?_⟩
  · have hlines := congrArg (fun text => lines text.toList) h
    simp only [lines_text] at hlines
    exact eq_of_nonzero hsize (List.map_injective_iff.mpr lineText_injective hlines)
  · refine ⟨s.lines_text, s.nonzero_increasing, fun _ _ => mem_nonzero_iff, ?_⟩
    exact text_eq_empty_iff.trans nonzero_eq_nil_iff

/-- The same word at another address is another line. -/
theorem dump_determines_space_moved :
    (⟨#[.zero, ⟨5⟩]⟩ : Space).size = (⟨#[⟨5⟩, .zero]⟩ : Space).size ∧
      (⟨#[.zero, ⟨5⟩]⟩ : Space).text ≠ (⟨#[⟨5⟩, .zero]⟩ : Space).text := by
  have hsize : (⟨#[.zero, ⟨5⟩]⟩ : Space).size = (⟨#[⟨5⟩, .zero]⟩ : Space).size := rfl
  refine ⟨hsize, fun h => ?_⟩
  have heq := (dump_determines_space.1 _ _ hsize).mp h
  exact absurd heq (by decide)

end Space

end RegisterMachine
