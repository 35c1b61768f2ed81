import RegisterMachine.Proofs.Layout

namespace RegisterMachine

/-- The text with `inner` in the place of what is between its outer blanks. -/
def refill (text inner : List Char) : List Char :=
  text.takeWhile isBlank ++ (inner ++ (trimLeft text).drop (trim text).length)

/-- The first character, if there is one, is neither a blank nor a number sign. -/
def StartsPlainly (text : List Char) : Prop :=
  ∀ c ∈ text.head?, ¬isBlank c ∧ c ≠ '#'

/-- The last character, if there is one, is neither a blank nor a colon. -/
def EndsPlainly (text : List Char) : Prop :=
  ∀ c ∈ text.getLast?, ¬isBlank c ∧ c ≠ ':'

-- One character is looked at and not all there are, which an instance found by itself might do.
instance : DecidablePred StartsPlainly := fun text => Option.decidableForallMem text.head?

instance : DecidablePred EndsPlainly := fun text => Option.decidableForallMem text.getLast?

/-- A text that a line and an argument can both have as the name of a label. It may be empty, and
it may look like anything else. -/
structure IsName (name : List Char) : Prop where
  feed : '\n' ∉ name
  comma : ',' ∉ name
  head : StartsPlainly name
  last : EndsPlainly name

instance : DecidablePred IsName := fun name =>
  decidable_of_iff ('\n' ∉ name ∧ ',' ∉ name ∧ StartsPlainly name ∧ EndsPlainly name)
    ⟨fun h => ⟨h.1, h.2.1, h.2.2.1, h.2.2.2⟩, fun h => ⟨h.feed, h.comma, h.head, h.last⟩⟩

namespace Argument

/-- The name of the label that an argument refers to. -/
def reference? : List Char → Option (List Char)
  | '@' :: name => some name
  | _ => none

def relabelled (f : List Char → List Char) : List Char → List Char
  | '@' :: name => '@' :: f name
  | text => text

end Argument

namespace Operation

def relabelledTail (f : List Char → List Char) (tail : List Char) : List Char :=
  [','].intercalate ((tail.splitOn ',').map fun piece =>
    refill piece (Argument.relabelled f (trim piece)))

/-- The operation with other names behind each `@` that starts an argument. -/
def relabelled (f : List Char → List Char) (text : List Char) : List Char :=
  (splitAtBlank text).1 ++ relabelledTail f (splitAtBlank text).2

end Operation

namespace Statement

def names : Statement → List (List Char)
  | label name => [name]
  | operation text => (Operation.arguments text).filterMap Argument.reference?

/-- How a statement is written in a line. -/
def text : Statement → List Char
  | label name => name ++ [':']
  | operation text => text

def relabelled (f : List Char → List Char) : Statement → Statement
  | label name => label (f name)
  | operation text => operation (Operation.relabelled f text)

end Statement

def Line.relabelled (f : List Char → List Char) (line : Line) : Line :=
  { line with statement := line.statement.relabelled f }

namespace Listing

/-- The names of labels in a listing, defined or not. -/
def names (listing : String) : List (List Char) :=
  (Line.ofListing listing.toList).flatMap fun line => line.statement.names

def relabelledLine (f : List Char → List Char) (line : List Char) : List Char :=
  match Statement.ofLine? line with
  | none => line
  | some statement => refill line (statement.relabelled f).text

/-- The listing with other names in the lines of labels and in the arguments. Nothing else
changes, blanks included. -/
def relabelled (f : List Char → List Char) (listing : String) : String :=
  String.ofList (['\n'].intercalate ((listing.toList.splitOn '\n').map (relabelledLine f)))

end Listing

variable {f : List Char → List Char}

theorem exists_refill (text : List Char) :
    ∃ lead trail, AllBlank lead ∧ AllBlank trail ∧ lead ++ (trim text ++ trail) = text ∧
      ∀ inner, refill text inner = lead ++ (inner ++ trail) := by
  obtain ⟨trail, htrail, happend⟩ := exists_trimRight_append (trimLeft text)
  have hdrop : (trimLeft text).drop (trim text).length = trail := by
    rw [← happend, trim, List.drop_left]
  refine ⟨text.takeWhile isBlank, trail, fun c hc => List.mem_takeWhile_imp hc, htrail, ?_, ?_⟩
  · rw [trim, happend, trimLeft, List.takeWhile_append_dropWhile]
  · intro inner
    rw [refill, hdrop]

theorem trim_refill (text inner : List Char) : trim (refill text inner) = trim inner := by
  obtain ⟨lead, trail, hlead, htrail, _, hrefill⟩ := exists_refill text
  rw [hrefill, trim_append_left hlead, trim_append_right htrail]

theorem refill_trim (text : List Char) : refill text (trim text) = text := by
  obtain ⟨lead, trail, _, _, htext, hrefill⟩ := exists_refill text
  rw [hrefill, htext]

theorem mem_of_mem_refill {c : Char} {text inner : List Char} (h : c ∈ refill text inner) :
    c ∈ text ∨ c ∈ inner := by
  obtain ⟨lead, trail, _, _, htext, hrefill⟩ := exists_refill text
  rw [hrefill, List.mem_append, List.mem_append] at h
  rw [← htext, List.mem_append, List.mem_append]
  tauto

theorem endsPlainly_append {before after : List Char} (hne : after ≠ []) :
    EndsPlainly (before ++ after) ↔ EndsPlainly after := by
  unfold EndsPlainly
  rw [List.getLast?_append_of_ne_nil _ hne]

theorem endsPlainly_append_comma {before after : List Char} :
    EndsPlainly (before ++ [','] ++ after) ↔ EndsPlainly after := by
  cases after with
  | nil =>
    rw [List.append_nil, endsPlainly_append (List.cons_ne_nil ',' [])]
    exact iff_of_true (by decide) (by decide)
  | cons c rest => exact endsPlainly_append (List.cons_ne_nil c rest)

/-- A comma is a plain end, so that only the last piece matters. -/
theorem endsPlainly_intercalate {pieces : List (List Char)} {g : List Char → List Char}
    (hg : ∀ piece ∈ pieces, EndsPlainly piece → EndsPlainly (g piece))
    (h : EndsPlainly ([','].intercalate pieces)) :
    EndsPlainly ([','].intercalate (pieces.map g)) := by
  induction pieces with
  | nil => exact h
  | cons first rest ih =>
    cases rest with
    | nil =>
      rw [List.intercalate_singleton] at h
      simpa using hg first List.mem_cons_self h
    | cons second rest =>
      rw [List.intercalate_cons_cons, endsPlainly_append_comma] at h
      rw [List.map_cons, List.map_cons, List.intercalate_cons_cons, endsPlainly_append_comma]
      exact ih (fun piece hpiece => hg piece (List.mem_cons_of_mem _ hpiece)) h

theorem endsPlainly_reference {name : List Char} (h : EndsPlainly name) :
    EndsPlainly ('@' :: name) := by
  cases name with
  | nil => decide
  | cons c rest =>
    rwa [← List.singleton_append, endsPlainly_append (List.cons_ne_nil c rest)]

namespace Argument

theorem relabelled_cases (f : List Char → List Char) (text : List Char) :
    (∃ name, text = '@' :: name ∧ reference? text = some name ∧
        relabelled f text = '@' :: f name) ∨
      text.head? ≠ some '@' ∧ reference? text = none ∧ relabelled f text = text := by
  unfold relabelled reference?
  split
  next name => exact .inl ⟨name, rfl, rfl, rfl⟩
  next hat =>
    refine .inr ⟨fun hhead => ?_, rfl, rfl⟩
    obtain ⟨name, rfl⟩ := List.head?_eq_some_iff.mp hhead
    exact hat name rfl

theorem reference?_relabelled (f : List Char → List Char) (text : List Char) :
    reference? (relabelled f text) = (reference? text).map f := by
  rcases relabelled_cases f text with ⟨name, _, href, hrel⟩ | ⟨_, href, hrel⟩
  · rw [hrel, href]
    rfl
  · rw [hrel, href]
    rfl

section

variable {piece : List Char} (h : ∀ name, reference? (trim piece) = some name → IsName (f name))

include h

theorem trim_relabelled : trim (refill piece (relabelled f (trim piece))) =
    relabelled f (trim piece) := by
  rw [trim_refill]
  rcases relabelled_cases f (trim piece) with ⟨name, _, href, hrel⟩ | ⟨_, _, hrel⟩
  · rw [hrel]
    exact trim_reference fun c hc => ((h name href).last c hc).1
  · rw [hrel, trim_trim]

theorem mem_of_mem_relabelled {c : Char} (hat : c ≠ '@')
    (hfree : ∀ name, IsName name → c ∉ name)
    (hc : c ∈ refill piece (relabelled f (trim piece))) : c ∈ piece := by
  rcases relabelled_cases f (trim piece) with ⟨name, _, href, hrel⟩ | ⟨_, _, hrel⟩
  · rw [hrel] at hc
    rcases mem_of_mem_refill hc with hc | hc
    · exact hc
    · rcases List.mem_cons.mp hc with hc | hc
      · exact absurd hc hat
      · exact absurd hc (hfree _ (h name href))
  · rwa [hrel, refill_trim] at hc

theorem endsPlainly_relabelled (hpiece : EndsPlainly piece) :
    EndsPlainly (refill piece (relabelled f (trim piece))) := by
  rcases relabelled_cases f (trim piece) with ⟨name, _, href, hrel⟩ | ⟨_, _, hrel⟩
  · obtain ⟨lead, trail, _, _, htext, hrefill⟩ := exists_refill piece
    rw [← htext, ← List.append_assoc] at hpiece
    rw [hrel, hrefill]
    -- Blanks behind the argument would be the end before as well as afterwards.
    by_cases htrail : trail = []
    · subst htrail
      rw [List.append_nil, endsPlainly_append (List.cons_ne_nil _ _)]
      exact endsPlainly_reference (h name href).last
    · rw [endsPlainly_append htrail] at hpiece
      rwa [← List.append_assoc, endsPlainly_append htrail]
  · rwa [hrel, refill_trim]

end

end Argument

namespace Operation

theorem isName_of_piece {text piece : List Char}
    (h : ∀ name ∈ (arguments text).filterMap Argument.reference?, IsName (f name))
    (hpiece : piece ∈ (splitAtBlank text).2.splitOn ',') (name : List Char)
    (hname : Argument.reference? (trim piece) = some name) : IsName (f name) := by
  refine h name (List.mem_filterMap.mpr ⟨trim piece, ?_, hname⟩)
  unfold arguments
  split
  -- Behind a mnemonic that stands alone there is one piece, which is empty.
  next hnil =>
    rw [hnil, List.splitOn_nil, List.mem_singleton] at hpiece
    subst hpiece
    cases hname
  next => exact List.mem_map_of_mem hpiece

theorem exists_cons_relabelledTail (f : List Char → List Char) {b : Char} (hb : isBlank b)
    (rest : List Char) : ∃ rest', relabelledTail f (b :: rest) = b :: rest' := by
  have hcomma : b ≠ ',' := fun heq => not_isBlank_comma (heq ▸ hb)
  obtain ⟨first, others, heq⟩ := List.exists_cons_of_ne_nil (List.splitOn_ne_nil ',' rest)
  have hsplit : (b :: rest).splitOn ',' = (b :: first) :: others := by
    rw [List.splitOn_cons_eq_if_modifyHead, if_neg (by simpa using hcomma), heq,
      List.modifyHead_cons]
  rw [relabelledTail, hsplit, List.map_cons, refill, List.takeWhile_cons_of_pos hb]
  cases others with
  | nil => exact ⟨_, by rw [List.map_nil, List.intercalate_singleton]; rfl⟩
  | cons second others => exact ⟨_, by rw [List.map_cons, List.intercalate_cons_cons]; rfl⟩

section

variable {tail : List Char} (h : ∀ piece ∈ tail.splitOn ',', ∀ name,
  Argument.reference? (trim piece) = some name → IsName (f name))

include h

theorem map_trim_splitOn_relabelledTail :
    ((relabelledTail f tail).splitOn ',').map trim =
      ((tail.splitOn ',').map trim).map (Argument.relabelled f) := by
  have hfree : ∀ piece ∈ (tail.splitOn ',').map fun piece =>
      refill piece (Argument.relabelled f (trim piece)), ',' ∉ piece := by
    intro piece hmem hc
    obtain ⟨old, hold, rfl⟩ := List.mem_map.mp hmem
    exact not_mem_of_mem_splitOn hold
      (Argument.mem_of_mem_relabelled (h old hold) (by decide) (fun _ hname => hname.comma) hc)
  rw [relabelledTail, List.splitOn_intercalate ',' hfree (by simp [List.splitOn_ne_nil]),
    List.map_map, List.map_map]
  exact List.map_congr_left fun piece hpiece => Argument.trim_relabelled (h piece hpiece)

theorem endsPlainly_relabelledTail (htail : EndsPlainly tail) :
    EndsPlainly (relabelledTail f tail) := by
  have hjoin : [','].intercalate (tail.splitOn ',') = tail := List.intercalate_splitOn ','
  rw [← hjoin] at htail
  exact endsPlainly_intercalate
    (fun piece hpiece => Argument.endsPlainly_relabelled (h piece hpiece)) htail

theorem mem_of_mem_relabelledTail {c : Char} (hat : c ≠ '@') (hcomma : c ≠ ',')
    (hfree : ∀ name, IsName name → c ∉ name) (hc : c ∈ relabelledTail f tail) : c ∈ tail := by
  rcases mem_of_mem_intercalate hc with hc | ⟨piece, hmem, hc⟩
  · exact absurd (List.mem_singleton.mp hc) hcomma
  · obtain ⟨old, hold, rfl⟩ := List.mem_map.mp hmem
    exact mem_of_mem_splitOn hold (Argument.mem_of_mem_relabelled (h old hold) hat hfree hc)

end

variable {text : List Char}

/-- The mnemonic is no argument, whatever it looks like, and the first blank stays behind it. -/
theorem splitAtBlank_relabelled (f : List Char → List Char) (text : List Char) :
    splitAtBlank (relabelled f text) =
      ((splitAtBlank text).1, relabelledTail f (splitAtBlank text).2) := by
  refine splitAtBlank_mnemonic (fun _ => not_isBlank_of_mem_mnemonic) _ fun c hc => ?_
  cases htail : (splitAtBlank text).2 with
  | nil =>
    rw [htail] at hc
    cases hc
  | cons b rest =>
    have hb : isBlank b := isBlank_of_tail htail
    obtain ⟨rest', heq⟩ := exists_cons_relabelledTail f hb rest
    rw [htail, heq] at hc
    cases Option.some.inj hc
    exact hb

section

variable (h : ∀ name ∈ (arguments text).filterMap Argument.reference?, IsName (f name))

include h

theorem arguments_relabelled :
    arguments (relabelled f text) = (arguments text).map (Argument.relabelled f) := by
  have hpieces := map_trim_splitOn_relabelledTail fun _ => isName_of_piece h
  simp only [arguments, splitAtBlank_relabelled]
  cases htail : (splitAtBlank text).2 with
  | nil => rfl
  | cons b rest =>
    obtain ⟨rest', heq⟩ := exists_cons_relabelledTail f (isBlank_of_tail htail) rest
    rw [htail, heq] at hpieces
    rw [heq, if_neg (List.cons_ne_nil b rest'), if_neg (List.cons_ne_nil b rest), hpieces]

theorem parts_relabelled : Parts (relabelled f text) (splitAtBlank text).1
    ((arguments text).map (Argument.relabelled f)) :=
  parts_iff.mpr ⟨by rw [splitAtBlank_relabelled], arguments_relabelled h⟩

theorem mem_of_mem_relabelled {c : Char} (hat : c ≠ '@') (hcomma : c ≠ ',')
    (hfree : ∀ name, IsName name → c ∉ name) (hc : c ∈ relabelled f text) : c ∈ text := by
  rw [← splitAtBlank_append text]
  rcases List.mem_append.mp hc with hc | hc
  · exact List.mem_append_left _ hc
  · exact List.mem_append_right _
      (mem_of_mem_relabelledTail (fun _ => isName_of_piece h) hat hcomma hfree hc)

theorem endsPlainly_relabelled (htext : EndsPlainly text) : EndsPlainly (relabelled f text) := by
  have happend := splitAtBlank_append text
  have htail' := endsPlainly_relabelledTail fun _ => isName_of_piece h
  rw [relabelled]
  cases htail : (splitAtBlank text).2 with
  | nil =>
    rw [htail] at happend
    exact happend.symm ▸ htext
  | cons b rest =>
    obtain ⟨rest', heq⟩ := exists_cons_relabelledTail f (isBlank_of_tail htail) rest
    rw [htail] at htail' happend
    rw [← happend, endsPlainly_append (List.cons_ne_nil b rest)] at htext
    rw [heq] at htail' ⊢
    rw [endsPlainly_append (List.cons_ne_nil b rest')]
    exact htail' htext

/-- An operation stays one, and has no outer blanks if it had none. -/
theorem isOperation_relabelled (htrim : trim text = text) (hop : IsOperation text) :
    IsOperation (relabelled f text) ∧ trim (relabelled f text) = relabelled f text := by
  have hlast : EndsPlainly (relabelled f text) := endsPlainly_relabelled h fun c hc =>
    ⟨trim_last_not_isBlank (htrim.symm ▸ hc), fun heq => hop.2.2 (heq ▸ hc)⟩
  obtain ⟨c, rest, rfl⟩ := List.exists_cons_of_ne_nil hop.1
  have hblank : ¬isBlank c := trim_head_not_isBlank (congrArg List.head? htrim)
  have hmnemonic : (splitAtBlank (c :: rest)).1 = c :: rest.takeWhile (!isBlank ·) := by
    simp [splitAtBlank, hblank]
  have hhead : (relabelled f (c :: rest)).head? = some c := by
    rw [relabelled, hmnemonic]
    rfl
  refine ⟨⟨fun hnil => ?_, ?_, fun hcolon => (hlast ':' hcolon).2 rfl⟩, ?_⟩
  · rw [hnil] at hhead
    cases hhead
  · rw [hhead]
    exact hop.2.1
  · refine trim_eq_self (fun d hd => ?_) fun d hd => (hlast d hd).1
    rw [hhead] at hd
    cases Option.some.inj hd
    exact hblank

end

end Operation

namespace Statement

theorem isLabel_of_isName {name : List Char} (h : IsName name) :
    IsLabel (name ++ [':']) ∧ trim (name ++ [':']) = name ++ [':'] := by
  have hcolon : ¬isBlank ':' := by decide
  have hhead : ∀ c, (name ++ [':']).head? = some c → ¬isBlank c ∧ c ≠ '#' := by
    intro c hc
    cases name with
    | nil =>
      cases Option.some.inj hc
      decide
    | cons d rest => exact h.head c hc
  refine ⟨⟨by simp, fun hc => (hhead '#' hc).2 rfl, List.getLast?_concat⟩, ?_⟩
  refine trim_eq_self (fun c hc => (hhead c hc).1) fun c hc => ?_
  rw [List.getLast?_concat] at hc
  cases Option.some.inj hc
  exact hcolon

theorem names_relabelled {statement : Statement}
    (h : ∀ name ∈ statement.names, IsName (f name)) :
    (statement.relabelled f).names = statement.names.map f := by
  cases statement with
  | label name => rfl
  | operation text =>
    have hreference : Argument.reference? ∘ Argument.relabelled f =
        fun text => (Argument.reference? text).map f :=
      funext (Argument.reference?_relabelled f)
    rw [relabelled, names, Operation.arguments_relabelled h, List.filterMap_map, hreference, names,
      List.map_filterMap]

section

variable {line : List Char} {statement : Statement} (hline : ofLine? line = some statement)
  (h : ∀ name ∈ statement.names, IsName (f name))

include hline h

theorem ofLine?_text_relabelled :
    ofLine? (statement.relabelled f).text = some (statement.relabelled f) := by
  cases statement with
  | label name =>
    obtain ⟨hlabel, htrim⟩ := isLabel_of_isName (h name (List.mem_singleton.mpr rfl))
    rw [← htrim] at hlabel
    refine (ofLine?_of_isLabel hlabel).trans ?_
    rw [htrim, List.dropLast_concat]
    rfl
  | operation text =>
    obtain ⟨rfl, hop⟩ := operation_of_ofLine? hline
    obtain ⟨hop', htrim⟩ := Operation.isOperation_relabelled h (trim_trim line) hop
    rw [← htrim] at hop'
    refine (ofLine?_of_isOperation hop').trans ?_
    rw [htrim]
    rfl

theorem feed_not_mem_text_relabelled (hfeed : '\n' ∉ line) :
    '\n' ∉ (statement.relabelled f).text := by
  intro hc
  cases statement with
  | label name =>
    rcases List.mem_append.mp hc with hc | hc
    · exact (h name (List.mem_singleton.mpr rfl)).feed hc
    · exact absurd (List.mem_singleton.mp hc) (by decide)
  | operation text =>
    obtain ⟨rfl, _⟩ := operation_of_ofLine? hline
    exact hfeed (mem_of_mem_trim (Operation.mem_of_mem_relabelled h (by decide) (by decide)
      (fun _ hname => hname.feed) hc))

end

end Statement

namespace Listing

section

variable {line : List Char}
  (h : ∀ s, Statement.ofLine? line = some s → ∀ name ∈ s.names, IsName (f name))

include h

theorem ofLine?_relabelledLine : Statement.ofLine? (relabelledLine f line) =
    (Statement.ofLine? line).map (Statement.relabelled f) := by
  unfold relabelledLine
  cases hline : Statement.ofLine? line with
  | none => exact hline
  | some s =>
    have htrim := trim_refill line (s.relabelled f).text
    exact (Statement.ofLine?_congr htrim).trans
      (Statement.ofLine?_text_relabelled hline (h s hline))

theorem feed_not_mem_relabelledLine (hfeed : '\n' ∉ line) : '\n' ∉ relabelledLine f line := by
  unfold relabelledLine
  cases hline : Statement.ofLine? line with
  | none => exact hfeed
  | some s =>
    intro hc
    rcases mem_of_mem_refill hc with hc | hc
    · exact hfeed hc
    · exact Statement.feed_not_mem_text_relabelled hline (h s hline) hfeed hc

end

end Listing

namespace Line

theorem exists_mem_numbered {line : List Char} {statement : Statement}
    (hline : Statement.ofLine? line = some statement) {raw : List (List Char)} (hmem : line ∈ raw)
    (first : Nat) : ∃ said ∈ numbered first raw, said.statement = statement := by
  induction raw generalizing first with
  | nil => cases hmem
  | cons other raw ih =>
    rw [numbered_cons]
    rcases List.mem_cons.mp hmem with rfl | hmem
    · rw [hline]
      exact ⟨⟨first, statement⟩, List.mem_cons_self, rfl⟩
    · obtain ⟨said, hsaid, heq⟩ := ih hmem (first + 1)
      exact ⟨said, List.mem_append_right _ hsaid, heq⟩

theorem numbered_relabelled {raw : List (List Char)}
    (h : ∀ line ∈ raw, ∀ s, Statement.ofLine? line = some s → ∀ name ∈ s.names, IsName (f name))
    (first : Nat) :
    numbered first (raw.map (Listing.relabelledLine f)) =
      (numbered first raw).map (relabelled f) := by
  induction raw generalizing first with
  | nil => rfl
  | cons line raw ih =>
    obtain ⟨hline, hraw⟩ := List.forall_mem_cons.mp h
    rw [List.map_cons, numbered_cons, numbered_cons, Listing.ofLine?_relabelledLine hline,
      ih hraw, List.map_append]
    cases Statement.ofLine? line <;> rfl

theorem ofListing_relabelled {listing : String}
    (h : ∀ name ∈ Listing.names listing, IsName (f name)) :
    ofListing (Listing.relabelled f listing).toList =
      (ofListing listing.toList).map (relabelled f) := by
  have hnames : ∀ line ∈ listing.toList.splitOn '\n', ∀ s, Statement.ofLine? line = some s →
      ∀ name ∈ s.names, IsName (f name) := by
    intro line hmem s hline name hname
    obtain ⟨said, hsaid, rfl⟩ := exists_mem_numbered hline hmem 1
    rw [← ofListing_eq_numbered] at hsaid
    exact h name (List.mem_flatMap.mpr ⟨said, hsaid, hname⟩)
  have hfeed : ∀ line ∈ (listing.toList.splitOn '\n').map (Listing.relabelledLine f),
      '\n' ∉ line := by
    intro line hmem
    obtain ⟨old, hold, rfl⟩ := List.mem_map.mp hmem
    exact Listing.feed_not_mem_relabelledLine (hnames old hold) (not_mem_of_mem_splitOn hold)
  rw [Listing.relabelled, String.toList_ofList, ofListing_eq_numbered,
    List.splitOn_intercalate '\n' hfeed (by simp [List.splitOn_ne_nil]),
    numbered_relabelled hnames, ← ofListing_eq_numbered]

end Line

theorem Listing.names_relabelled {listing : String} (h : ∀ name ∈ names listing, IsName (f name)) :
    names (relabelled f listing) = (names listing).map f := by
  rw [names, Line.ofListing_relabelled h, List.flatMap_map, names, List.map_flatMap]
  refine List.flatMap_congr fun line hline => Statement.names_relabelled fun name hname => ?_
  exact h name (List.mem_flatMap.mpr ⟨line, hline, hname⟩)

end RegisterMachine
