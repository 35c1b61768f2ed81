import RegisterMachine.Store
import RegisterMachine.Proofs.WordTables

namespace RegisterMachine

/-- Named arrays of words that are copied at once, and the classes of names that share storage in a
store that copies lazily. -/
structure EagerStore where
  /-- The words that a name has for itself. -/
  words? : String → Option (List Word)
  /-- Whether two names are in one class. -/
  together : String → String → Bool

namespace EagerStore

def empty : EagerStore := ⟨fun _ => none, fun _ _ => false⟩

/-- The words under a name; a name not in use has none. -/
def words (e : EagerStore) (name : String) : List Word :=
  (e.words? name).getD []

/-- Gives a name words and a class of its own. -/
def own (e : EagerStore) (name : String) (words : List Word) : EagerStore where
  words? other := if other = name then some words else e.words? other
  together a b := if a = name ∨ b = name then a = b else e.together a b

/-- Gives a name the words of `source` and puts it into the class of `source`. -/
def copy (e : EagerStore) (name source : String) : EagerStore :=
  match e.words? source with
  | some words =>
    { words? := fun other => if other = name then some words else e.words? other
      together := fun a b =>
        e.together (if a = name then source else a) (if b = name then source else b) }
  | none => e

/-- One line for each word that is not zero, the first word being that at `address`. -/
def dumpLines (address : Nat) : List Word → List String
  | [] => []
  | w :: rest =>
    if w = .zero then dumpLines (address + 1) rest
    else (hex address ++ ": " ++ hex w.bits.toNat) :: dumpLines (address + 1) rest

/-- Carries out a command on the words under a name. A write puts one word in its place and a name
that is written leaves its class; a write outside changes nothing. -/
def perform (e : EagerStore) (name : String) : Store.Command → Store.Reply × EagerStore
  | .create size => (.done, e.own name (List.replicate size .zero))
  | .copy source => (.done, e.copy name source)
  | .write address w =>
    if address.toNat < (e.words name).length then
      (.done, e.own name ((e.words name).set address.toNat w))
    else (.fault (.addressOutside address (e.words name).length), e)
  | .read address =>
    match (e.words name)[address.toNat]? with
    | some w => (.word w, e)
    | none => (.fault (.addressOutside address (e.words name).length), e)
  | .get address => ((e.words name)[address.toNat]?.elim .absent .word, e)
  | .size => (.number (e.words name).length, e)
  | .text => (.text ("\n".intercalate (dumpLines 0 (e.words name))), e)
  | .table label count =>
    (.text (Table.ofWords "Address" (Space.addressLabel label) ((e.words name).take count)).text, e)
  | .registerTable =>
    (.text (Table.ofWords "Register" (Space.registerLabel · ++ " =") (e.words name)).text, e)
  | .shares other => (.flag (e.together name other), e)
  | .equals other => (.flag (e.words name == e.words other), e)

end EagerStore

namespace Space

theorem write_of_lt {s : Space} {address : BitVec 16} (h : address.toNat < s.size) (w : Word) :
    s.write address w = .ok (s.set address w h) :=
  dif_pos h

theorem write_of_not_lt {s : Space} {address : BitVec 16} (h : ¬address.toNat < s.size) (w : Word) :
    s.write address w = .error (.addressOutside address s.size) :=
  dif_neg h

theorem toList_set {s : Space} {address : BitVec 16} (h : address.toNat < s.size) (w : Word) :
    (s.set address w h).words.toList = s.words.toList.set address.toNat w :=
  Array.toList_set s.words address.toNat w h

theorem get?_eq (s : Space) (address : BitVec 16) :
    s.get? address = s.words.toList[address.toNat]? :=
  Array.getElem?_toList.symm

theorem text_eq_dumpLines (s : Space) :
    s.text = "\n".intercalate (EagerStore.dumpLines 0 s.words.toList) := by
  have hlines : ∀ (words : List Word) (address : Nat),
      ((words.zipIdx address).filter (·.1 ≠ .zero)).map
        (fun entry => hex entry.2 ++ ": " ++ entry.1.text) =
          EagerStore.dumpLines address words := by
    intro words
    induction words with
    | nil => exact fun _ => rfl
    | cons w rest ih =>
      intro address
      rw [List.zipIdx_cons, List.filter_cons, EagerStore.dumpLines, ← ih]
      by_cases hw : w = .zero
      · simp [hw]
      · simp [hw, Word.text]
  exact congrArg ("\n".intercalate ·) (hlines s.words.toList 0)

theorem beq_eq (s t : Space) : (s == t) = (s.words.toList == t.words.toList) := by
  rw [Bool.eq_iff_iff, beq_iff_eq, beq_iff_eq, Array.toList_inj]
  exact ⟨congrArg words, congrArg Space.mk⟩

end Space

namespace Store

/-- The replies to commands carried out one after the other, and what they leave behind. -/
def runAll {S : Type} (perform : S → String → Command → Reply × S) (s : S) :
    List (String × Command) → List Reply × S
  | [] => ([], s)
  | (name, command) :: rest =>
    let done := perform s name command
    let later := runAll perform done.2 rest
    (done.1 :: later.1, later.2)

theorem block?_ne_of_not_shared {s : Store} {name other : String} {block : Nat}
    (h : s.isShared name block = false) (hne : other ≠ name) : s.block? other ≠ some block := by
  intro hblock
  obtain ⟨before, after, hnames, _⟩ := List.lookup_eq_some_iff.mp hblock
  have hmem : (other, block) ∈ s.names := by
    rw [hnames]
    exact List.mem_append_right _ (List.mem_cons_self ..)
  have hnone := List.any_eq_false.mp h (other, block) hmem
  simp [hne] at hnone

theorem shares_iff {s : Store} {a b : String} :
    s.shares a b ↔ ∃ block, s.block? a = some block ∧ s.block? b = some block := by
  unfold shares
  split
  next x y hx hy =>
    rw [hx, hy]
    constructor
    · intro heq
      exact ⟨x, rfl, by rw [of_decide_eq_true heq]⟩
    · rintro ⟨block, hx, hy⟩
      cases hx
      cases hy
      exact decide_eq_true rfl
  next hnone =>
    constructor
    · intro h
      cases h
    · rintro ⟨block, hx, hy⟩
      exact absurd hy (hnone block block hx)

theorem shares_comm (s : Store) (a b : String) : s.shares a b = s.shares b a := by
  rw [Bool.eq_iff_iff, shares_iff, shares_iff]
  simp only [and_comm]

theorem shares_alone {s : Store} {name : String} {block : Nat}
    (hblock : s.block? name = some block)
    (halone : ∀ other, other ≠ name → s.block? other ≠ some block) (other : String) :
    s.shares name other ↔ name = other := by
  rw [shares_iff]
  constructor
  · rintro ⟨k, hk, hother⟩
    rw [hblock] at hk
    cases hk
    by_cases hname : other = name
    · exact hname.symm
    · exact absurd hother (halone other hname)
  · rintro rfl
    exact ⟨block, hblock, hblock⟩

/-- The store holds for each name the words that the name has for itself, in blocks that tell
the classes apart. -/
structure Represents (s : Store) (e : EagerStore) : Prop where
  valid : ∀ name block, s.block? name = some block → block < s.blocks.size
  words? : ∀ name,
    ((s.block? name).bind (s.blocks[·]?)).map (·.words.toList) = e.words? name
  together : ∀ a b, s.shares a b ↔ e.together a b

namespace Represents

variable {s t : Store} {e : EagerStore}

theorem empty : Represents .empty .empty where
  valid _ _ h := by cases h
  words? _ := rfl
  together _ _ := Iff.rfl

theorem words (h : Represents s e) (name : String) :
    (s.space name).words.toList = e.words name := by
  rw [Store.space, EagerStore.words, ← h.words?]
  cases (s.block? name).bind (s.blocks[·]?) with
  | none => rfl
  | some space => rfl

theorem words?_eq (h : Represents s e) {name : String} {block : Nat}
    (hblock : s.block? name = some block) :
    s.blocks[block]?.map (·.words.toList) = e.words? name := by
  have hwords := h.words? name
  rwa [hblock, Option.bind_some] at hwords

theorem size (h : Represents s e) (name : String) :
    (s.space name).size = (e.words name).length := by
  rw [← h.words]
  rfl

theorem get? (h : Represents s e) (name : String) (address : BitVec 16) :
    (s.space name).get? address = (e.words name)[address.toNat]? := by
  rw [Space.get?_eq, h.words]

/-- A name has got a block that no other name uses, and the rest is as before. -/
theorem own (h : Represents s e) {name : String} {space : Space} {block : Nat}
    (hblock : t.block? name = some block)
    (hwords : t.blocks[block]? = some space)
    (halone : ∀ other, other ≠ name → t.block? other ≠ some block)
    (hothers : ∀ other, other ≠ name → t.block? other = s.block? other)
    (hkept : ∀ k, k ≠ block → k < s.blocks.size → t.blocks[k]? = s.blocks[k]?) :
    Represents t (e.own name space.words.toList) where
  valid other k hk := by
    by_cases hname : other = name
    · rw [hname, hblock] at hk
      cases hk
      exact (Array.getElem?_eq_some_iff.mp hwords).1
    · have hne : k ≠ block := by
        rintro rfl
        exact halone other hname hk
      rw [hothers other hname] at hk
      have hlt := h.valid other k hk
      have hsame := hkept k hne hlt
      rw [Array.getElem?_eq_getElem hlt] at hsame
      exact (Array.getElem?_eq_some_iff.mp hsame).1
  words? other := by
    show _ = if other = name then some space.words.toList else e.words? other
    by_cases hname : other = name
    · rw [if_pos hname, hname, hblock, Option.bind_some, hwords, Option.map_some]
    · rw [if_neg hname, ← h.words? other, hothers other hname]
      cases hk : s.block? other with
      | none => rfl
      | some k =>
        have hne : k ≠ block := by
          rintro rfl
          exact halone other hname ((hothers other hname).trans hk)
        rw [Option.bind_some, Option.bind_some, hkept k hne (h.valid other k hk)]
  together a b := by
    show _ ↔ (if a = name ∨ b = name then decide (a = b) else e.together a b) = true
    by_cases hname : a = name ∨ b = name
    · rw [if_pos hname, decide_eq_true_iff]
      rcases hname with rfl | rfl
      · exact shares_alone hblock halone b
      · rw [shares_comm, shares_alone hblock halone a, eq_comm]
    · obtain ⟨ha, hb⟩ := not_or.mp hname
      rw [if_neg hname, ← h.together, shares_iff, shares_iff, hothers a ha, hothers b hb]

theorem insert (h : Represents s e) (name : String) (space : Space) :
    Represents (s.insert name space) (e.own name space.words.toList) := by
  have hfind : ∀ other, (s.insert name space).block? other =
      if other = name then some s.blocks.size else s.block? other :=
    fun other => lookup_assign s.names name s.blocks.size other
  have hname : (s.insert name space).block? name = some s.blocks.size := by
    rw [hfind, if_pos rfl]
  apply h.own hname
  · exact Array.getElem?_push_size
  · intro other hne hblock
    rw [hfind, if_neg hne] at hblock
    have hlt := h.valid other _ hblock
    omega
  · intro other hne
    rw [hfind, if_neg hne]
  · intro k hne _
    exact Array.getElem?_push.trans (if_neg hne)

theorem overwrite (h : Represents s e) {name : String} {block : Nat}
    (hblock : s.block? name = some block)
    (halone : ∀ other, other ≠ name → s.block? other ≠ some block) (space : Space) :
    Represents { s with blocks := s.blocks.setIfInBounds block space }
      (e.own name space.words.toList) := by
  have hlt := h.valid name block hblock
  have hwords : (s.blocks.setIfInBounds block space)[block]? = some space :=
    Array.getElem?_setIfInBounds_self_of_lt hlt
  refine h.own hblock hwords halone (fun _ _ => rfl) ?_
  intro k hne _
  exact Array.getElem?_setIfInBounds_ne (Ne.symm hne)

/-- A write inside is done in place or in a copy, as others use the block or not. -/
theorem write (h : Represents s e) {name : String} {address : BitVec 16}
    (hlt : address.toNat < (e.words name).length) (w : Word) :
    ∃ written, s.write name address w = .ok written ∧
      Represents written (e.own name ((e.words name).set address.toNat w)) := by
  have hinside : address.toNat < (s.space name).size := by rwa [h.size]
  have hset : ((s.space name).set address w hinside).words.toList =
      (e.words name).set address.toNat w := by
    rw [Space.toList_set, h.words]
  rw [← hset]
  unfold Store.write
  rw [Space.write_of_lt hinside]
  cases hblock : s.block? name with
  | none => exact ⟨_, rfl, h.insert name _⟩
  | some block =>
    refine ⟨_, rfl, ?_⟩
    cases hshared : s.isShared name block with
    | true => exact h.insert name _
    | false =>
      exact h.overwrite hblock (fun _ hne => block?_ne_of_not_shared hshared hne) _

theorem write_outside (h : Represents s e) {name : String} {address : BitVec 16}
    (hge : ¬address.toNat < (e.words name).length) (w : Word) :
    s.write name address w = .error (.addressOutside address (e.words name).length) := by
  rw [← h.size] at hge ⊢
  unfold Store.write
  rw [Space.write_of_not_lt hge]

theorem copy (h : Represents s e) (name source : String) :
    Represents (s.copy name source) (e.copy name source) := by
  unfold Store.copy EagerStore.copy
  cases hblock : s.block? source with
  | none =>
    have hnone := h.words? source
    rw [hblock, Option.bind_none, Option.map_none] at hnone
    rw [← hnone]
    exact h
  | some block =>
    have hlt := h.valid source block hblock
    have hwords := h.words?_eq hblock
    rw [Array.getElem?_eq_getElem hlt, Option.map_some] at hwords
    rw [← hwords]
    have hfind : ∀ other, (assign s.names name block).lookup other =
        s.block? (if other = name then source else other) := by
      intro other
      rw [lookup_assign]
      by_cases hname : other = name
      · rw [if_pos hname, if_pos hname, hblock]
      · rw [if_neg hname, if_neg hname, block?]
    refine ⟨?_, ?_, ?_⟩
    · intro other k hk
      exact h.valid _ k ((hfind other).symm.trans hk)
    · intro other
      show (((assign s.names name block).lookup other).bind _).map _ =
        if other = name then _ else _
      rw [hfind, h.words?]
      by_cases hname : other = name
      · rw [if_pos hname, if_pos hname, hwords]
      · rw [if_neg hname, if_neg hname]
    · intro a b
      show _ ↔ e.together (if a = name then source else a) (if b = name then source else b) = true
      rw [← h.together, shares_iff, shares_iff, ← hfind, ← hfind]
      rfl

/-- One command is answered alike and keeps the correspondence. -/
theorem perform (h : Represents s e) (name : String) (command : Command) :
    (s.perform name command).1 = (e.perform name command).1 ∧
      Represents (s.perform name command).2 (e.perform name command).2 := by
  cases command with
  | create size =>
    have hzeros : (Space.zeros size).words.toList = List.replicate size .zero :=
      Array.toList_replicate
    have hcreated := h.insert name (.zeros size)
    rw [hzeros] at hcreated
    exact ⟨rfl, hcreated⟩
  | copy source => exact ⟨rfl, h.copy name source⟩
  | write address w =>
    unfold Store.perform EagerStore.perform
    by_cases hlt : address.toNat < (e.words name).length
    · obtain ⟨written, hwritten, hrepresents⟩ := h.write hlt w
      simp only [hwritten, if_pos hlt]
      exact ⟨trivial, hrepresents⟩
    · simp only [h.write_outside hlt, if_neg hlt]
      exact ⟨trivial, h⟩
  | read address =>
    simp only [Store.perform, EagerStore.perform, Space.read, h.get?, Space.outside, h.size]
    cases (e.words name)[address.toNat]? with
    | some w => exact ⟨rfl, h⟩
    | none => exact ⟨rfl, h⟩
  | get address => exact ⟨by rw [Store.perform, EagerStore.perform, h.get?], h⟩
  | size => exact ⟨by rw [Store.perform, EagerStore.perform, h.size], h⟩
  | text =>
    exact ⟨by rw [Store.perform, EagerStore.perform, Space.text_eq_dumpLines, h.words], h⟩
  | table label count =>
    exact ⟨by rw [Store.perform, EagerStore.perform, Space.table_eq, h.words], h⟩
  | registerTable =>
    exact ⟨by rw [Store.perform, EagerStore.perform, Space.registerTable_eq, h.words], h⟩
  | shares other =>
    have hshares : s.shares name other = e.together name other :=
      Bool.eq_iff_iff.mpr (h.together name other)
    exact ⟨by rw [Store.perform, EagerStore.perform, hshares], h⟩
  | equals other =>
    exact ⟨by rw [Store.perform, EagerStore.perform, Space.beq_eq, h.words, h.words], h⟩

theorem runAll (h : Represents s e) (commands : List (String × Command)) :
    (Store.runAll Store.perform s commands).1 = (Store.runAll EagerStore.perform e commands).1 ∧
      Represents (Store.runAll Store.perform s commands).2
        (Store.runAll EagerStore.perform e commands).2 := by
  induction commands generalizing s e with
  | nil => exact ⟨rfl, h⟩
  | cons first rest ih =>
    obtain ⟨name, command⟩ := first
    obtain ⟨hreply, hnext⟩ := h.perform name command
    obtain ⟨hreplies, hlast⟩ := ih hnext
    refine ⟨?_, hlast⟩
    show _ :: _ = _ :: _
    rw [hreply, hreplies]

theorem together_self_iff (h : Represents s e) (name : String) :
    e.together name name ↔ (e.words? name).isSome := by
  rw [← h.together, shares_iff, ← h.words?]
  cases hblock : s.block? name with
  | none => simp
  | some block =>
    have hlt := h.valid name block hblock
    simp [hlt]

theorem together_symm (h : Represents s e) {a b : String} (hab : e.together a b) :
    e.together b a := by
  rw [← h.together] at hab ⊢
  rwa [shares_comm]

theorem together_trans (h : Represents s e) {a b c : String} (hab : e.together a b)
    (hbc : e.together b c) : e.together a c := by
  rw [← h.together, shares_iff] at hab hbc ⊢
  obtain ⟨k, ha, hb⟩ := hab
  obtain ⟨l, hb', hc⟩ := hbc
  rw [hb] at hb'
  cases hb'
  exact ⟨k, ha, hc⟩

end Represents

/-- Whatever the commands, the replies are those of arrays copied at once, and so are the words of
every name. Two names use one block exactly if they are in one class. -/
theorem lazy_copies_unobservable (commands : List (String × Command)) :
    let lazy := runAll perform empty commands
    let eager := runAll EagerStore.perform EagerStore.empty commands
    lazy.1 = eager.1 ∧ (∀ name, (lazy.2.space name).words.toList = eager.2.words name) ∧
      (∀ a b, lazy.2.shares a b ↔ eager.2.together a b) ∧
      (∀ name, eager.2.together name name ↔ (eager.2.words? name).isSome) ∧
      (∀ a b, eager.2.together a b → eager.2.together b a) ∧
      ∀ a b c, eager.2.together a b → eager.2.together b c → eager.2.together a c := by
  intro lazy eager
  obtain ⟨hreplies, h⟩ := Represents.empty.runAll commands
  exact ⟨hreplies, h.words, h.together, h.together_self_iff, fun _ _ => h.together_symm,
    fun _ _ _ => h.together_trans⟩

/-- Three spaces in one class, of which one is written, once inside and once outside. -/
def sharedRun : List (String × Command) :=
  [("a", .create 2), ("b", .copy "a"), ("c", .copy "b"), ("b", .write 1 ⟨5⟩), ("c", .write 2 ⟨6⟩),
    ("a", .read 1), ("b", .read 1), ("b", .text), ("a", .equals "c"), ("a", .equals "b"),
    ("c", .shares "a"), ("b", .shares "a"), ("c", .get 2)]

theorem lazy_copies_unobservable_shared :
    (runAll perform empty sharedRun).1 =
        [.done, .done, .done, .done, .fault (.addressOutside 2 2), .word .zero, .word ⟨5⟩,
          .text "0x1: 0x5", .flag true, .flag false, .flag true, .flag false, .absent] ∧
      ((runAll perform empty sharedRun).2.space "b").words.toList = [.zero, ⟨5⟩] ∧
      (runAll perform empty sharedRun).2.shares "a" "c" := by
  obtain ⟨hreplies, hwords, hshares, _⟩ := lazy_copies_unobservable sharedRun
  refine ⟨hreplies.trans ?_, (hwords "b").trans ?_, (hshares "a" "c").mpr ?_⟩
  · decide +kernel
  · decide +kernel
  · decide +kernel

end Store

end RegisterMachine
