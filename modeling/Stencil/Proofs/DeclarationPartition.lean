import Stencil.Proofs.BalancedBlock
import Stencil.Proofs.Cursor
import Stencil.Proofs.DeclarationSeams

/-!
# The declarations of a text

Collecting declarations cuts a text into declarations and the gaps between them.
A declaration begins with a keyword that no name byte stands in front of, followed by
white space and a block, and by a second block if another opener follows.  The gaps
hold everything else: no declaration begins inside one.

The collector searches for the keyword again and again.  `Collects` is this search
without any bound, so that a derivation is a search that comes to an end.  It does
unless the keyword and a delimiter are empty: then a declaration may take no text.
`Located` is the same search by the offsets of the whole text.
-/

namespace Stencil.Declaration

/-- The search for declarations, turn by turn.  `before` is the byte in front of the
text that is left. -/
inductive Collects (keyword : Bytes) (symbols : Symbols) :
    Option UInt8 → Bytes → List Piece → Prop where
  | done {before : Option UInt8} : Collects keyword symbols before [] []
  | last {before : Option UInt8} {text : Bytes} :
      text ≠ [] → Bytes.splitAtFirst keyword text = none →
      Collects keyword symbols before text [.kept text]
  | passed {before : Option UInt8} {text gap found : Bytes} {later : List Piece} :
      text ≠ [] → Bytes.splitAtFirst keyword text = some (gap, found) →
      ((gap.getLast?.or before).any Bytes.isIdent = true ∨ blocks? keyword symbols found = none) →
      Collects keyword symbols found.head? found.tail later →
      Collects keyword symbols before text (.kept (gap ++ found.take 1) :: later)
  | declared {before : Option UInt8} {text gap found own pattern rest : Bytes}
      {replacement : Option Bytes} {later : List Piece} :
      text ≠ [] → Bytes.splitAtFirst keyword text = some (gap, found) →
      (gap.getLast?.or before).any Bytes.isIdent = false →
      blocks? keyword symbols found = some (pattern, replacement, rest) → found = own ++ rest →
      Collects keyword symbols (own.getLast?.or (gap.getLast?.or before)) rest later →
      Collects keyword symbols before text
        (.kept gap :: .declared ⟨own, pattern, replacement⟩ :: later)

section Search

variable {keyword : Bytes} {symbols : Symbols}

/-- A declaration takes its keyword and both of its openers, so it is not empty. -/
theorem blocks?_shorter
    (progress : keyword ≠ [] ∨ symbols.opener ≠ [] ∧ symbols.closer ≠ [])
    {text pattern rest : Bytes} {replacement : Option Bytes} (begins : keyword <+: text)
    (found : blocks? keyword symbols text = some (pattern, replacement, rest)) :
    rest.length < text.length := by
  rcases progress with nonempty | ⟨opener, closer⟩
  · have positive := List.length_pos_iff.mpr nonempty
    have fits := begins.length_le
    have short := (blocks?_suffix found).length_le
    rw [List.length_drop] at short
    omega
  · exact (blocks?_rest opener closer found).2

theorem collects_piecesFrom
    (progress : keyword ≠ [] ∨ symbols.opener ≠ [] ∧ symbols.closer ≠ [])
    (before : Option UInt8) (text : Bytes) :
    Collects keyword symbols before text (piecesFrom keyword symbols before text) := by
  fun_induction piecesFrom keyword symbols before text with
  | case1 => exact .done
  | case2 before text more absent => exact .last more absent
  | case3 before text more gap found split _ previous undeclared =>
      rename_i ih
      refine .passed more split ?_ ih
      split at undeclared
      · next attached => exact .inl attached
      · exact .inr undeclared
  | case4 before text more gap found split _ previous pattern replacement rest read own shorter =>
      rename_i ih
      split at read
      · cases read
      next free =>
        obtain ⟨taken, whole⟩ := (blocks?_suffix read).trans (List.drop_suffix _ _)
        have parts : found = own ++ rest := by
          simp [own, ← whole]
        exact .declared more split (by simpa using free) read parts ih
  | case5 before text more gap found split _ previous pattern replacement rest read =>
      rename_i stuck
      split at read
      · cases read
      obtain ⟨cut, begins⟩ := Bytes.splitAtFirst_eq_some split
      have shorter := blocks?_shorter progress begins read
      rw [cut, List.length_append] at stuck
      omega

/-- Without a keyword, blocks that cannot be read are found at one place forever. -/
theorem not_collects (unusable : symbols.opener = [] ∨ symbols.closer = []) {b : UInt8}
    (visible : Bytes.isSpace b = false) {tail : Bytes} (opens : symbols.opener <+: b :: tail)
    {before : Option UInt8} (free : before.any Bytes.isIdent = false) (pieces : List Piece) :
    ¬ Collects [] symbols before (b :: tail) pieces := by
  have nothing : ∀ {text : Bytes}, blockOrNothing symbols text = ([], text) := by
    intro text
    have absent : Block.read? symbols.opener symbols.closer text = none := by
      rcases unusable with empty | empty <;> simp [Block.read?, empty]
    simp [blockOrNothing, absent]
  have stands : blocks? [] symbols (b :: tail) = some ([], some [], b :: tail) := by
    simp [blocks?, visible, List.isPrefixOf_iff_prefix.mpr opens, nothing]
  have first : Bytes.splitAtFirst [] (b :: tail) = some ([], b :: tail) := rfl
  generalize whole : b :: tail = text
  intro collects
  induction collects with
  | done => cases whole
  | last _ absent =>
      subst whole
      rw [first] at absent
      cases absent
  | passed _ split undeclared _ _ =>
      subst whole
      obtain ⟨rfl, rfl⟩ := Prod.mk.inj (Option.some.inj (first.symm.trans split))
      rcases undeclared with attached | absent
      · simp [free] at attached
      · rw [stands] at absent
        cases absent
  | declared _ split _ read parts _ ih =>
      subst whole
      obtain ⟨rfl, rfl⟩ := Prod.mk.inj (Option.some.inj (first.symm.trans split))
      rw [stands] at read
      obtain ⟨rfl, rfl, rfl⟩ := by simpa using read
      have empty := List.append_left_eq_self.mp parts.symm
      subst empty
      exact ih free rfl

end Search

/-- A block that is found at one offset of a text and ends at another. -/
structure ExtractedAt (symbols : Symbols) (text : Bytes) (start : Nat) (block : Block)
    (stop : Nat) : Prop where
  found : Block.extract text start symbols.opener symbols.closer = .ok (.found block)
  rest : block.rest = text.drop stop
  ordered : start ≤ stop
  inside : stop ≤ text.length

/-- A keyword that begins a declaration.  All the white space behind it is skipped, so
an opener that begins with white space is never found. -/
structure HeadAt (keyword : Bytes) (symbols : Symbols) (text : Bytes) (place : Nat) : Prop where
  begins : keyword <+: text.drop place
  free : ∀ b ∈ (text.take place).getLast?, Bytes.isIdent b = false
  opens : ∃ first, SpaceRun text (place + keyword.length) first ∧
    symbols.opener <+: text.drop first

/-- A declaration that stands between two offsets of a text. -/
structure DeclaredAt (keyword : Bytes) (symbols : Symbols) (text : Bytes) (start : Nat)
    (declaration : Declaration) (stop : Nat) : Prop where
  head : HeadAt keyword symbols text start
  ordered : start ≤ stop
  inside : stop ≤ text.length
  own : declaration.text = text.between start stop
  blocks : ∃ first block behind next,
    SpaceRun text (start + keyword.length) first ∧
      ExtractedAt symbols text first block behind ∧ declaration.pattern = block.inner ∧
      SpaceRun text behind next ∧
      (symbols.opener <+: text.drop next →
        ∃ second, ExtractedAt symbols text next second stop ∧
          declaration.replacement = some second.inner) ∧
      (¬ symbols.opener <+: text.drop next → declaration.replacement = none ∧ stop = behind)

/-- The search for declarations by offsets.  Every turn finds the next keyword. -/
inductive Located (keyword : Bytes) (symbols : Symbols) (text : Bytes) :
    Nat → List Piece → Prop where
  | done : Located keyword symbols text text.length []
  | last {start : Nat} :
      start < text.length → Bytes.splitAtFirst keyword (text.drop start) = none →
      Located keyword symbols text start [.kept (text.drop start)]
  | passed {start place : Nat} {later : List Piece} :
      start ≤ place → place < text.length →
      Bytes.splitAtFirst keyword (text.drop start) =
        some (text.between start place, text.drop place) →
      ¬ HeadAt keyword symbols text place →
      Located keyword symbols text (place + 1) later →
      Located keyword symbols text start (.kept (text.between start (place + 1)) :: later)
  | declared {start place stop : Nat} {declaration : Declaration} {later : List Piece} :
      start < text.length → start ≤ place →
      Bytes.splitAtFirst keyword (text.drop start) =
        some (text.between start place, text.drop place) →
      DeclaredAt keyword symbols text place declaration stop →
      Located keyword symbols text stop later →
      Located keyword symbols text start
        (.kept (text.between start place) :: .declared declaration :: later)

/-- The text from an offset on is a gap and then declarations, each with the gap behind
it.  No declaration begins inside a gap. -/
inductive Parted (keyword : Bytes) (symbols : Symbols) (text : Bytes) :
    Nat → Bytes → List (Declaration × Bytes) → Prop where
  | last {start : Nat} :
      (∀ place, start ≤ place → place < text.length → ¬ HeadAt keyword symbols text place) →
      Parted keyword symbols text start (text.drop start) []
  | next {start found stop : Nat} {gap : Bytes} {declaration : Declaration}
      {parts : List (Declaration × Bytes)} :
      start ≤ found →
      (∀ place, start ≤ place → place < found → ¬ HeadAt keyword symbols text place) →
      DeclaredAt keyword symbols text found declaration stop →
      Parted keyword symbols text stop gap parts →
      Parted keyword symbols text start (text.between start found) ((declaration, gap) :: parts)

/-- The declarations among a list of pieces. -/
def declarationsOf (pieces : List Piece) : List Declaration :=
  pieces.filterMap fun
    | .kept _ => none
    | .declared declaration => some declaration

/-- A declaration of a rule: it has both blocks, and the first is not blank. -/
def isRule (declaration : Declaration) : Bool :=
  declaration.replacement.isSome && !declaration.pattern.trim.isEmpty

section Partition

variable {keyword : Bytes} {symbols : Symbols} {text : Bytes}

theorem Parted.text_eq {start : Nat} {gap : Bytes} {parts : List (Declaration × Bytes)}
    (parted : Parted keyword symbols text start gap parts) :
    text.drop start = gap ++ parts.flatMap fun part => part.1.text ++ part.2 := by
  induction parted with
  | last _ => simp
  | next before _ declared _ ih =>
      rw [List.flatMap_cons, List.append_assoc, ← ih, declared.own,
        Bytes.between_append_drop declared.ordered, Bytes.between_append_drop before]

/-- Text in which no declaration begins belongs to the gap behind it. -/
theorem Parted.extend {start later : Nat} {gap : Bytes} {parts : List (Declaration × Bytes)}
    (parted : Parted keyword symbols text later gap parts) (ordered : start ≤ later)
    (free : ∀ place, start ≤ place → place < later → ¬ HeadAt keyword symbols text place) :
    Parted keyword symbols text start (text.between start later ++ gap) parts := by
  cases parted with
  | last none =>
      rw [Bytes.between_append_drop ordered]
      apply Parted.last
      intro place atLeast inside
      by_cases early : place < later
      · exact free place atLeast early
      · exact none place (by omega) inside
  | next before none declared parted =>
      rw [Bytes.between_append_between ordered before]
      refine .next (Nat.le_trans ordered before) ?_ declared parted
      intro place atLeast inside
      by_cases early : place < later
      · exact free place atLeast early
      · exact none place (by omega) inside

theorem ExtractedAt.lt {start stop : Nat} {block : Block}
    (extracted : ExtractedAt symbols text start block stop) : start < stop := by
  have shorter := Block.read?_length (Block.read?_of_extract extracted.found)
  rw [extracted.rest, List.length_drop, List.length_drop] at shorter
  omega

/-- A declaration is not empty: it has at least one block. -/
theorem DeclaredAt.lt {start stop : Nat} {declaration : Declaration}
    (declared : DeclaredAt keyword symbols text start declaration stop) : start < stop := by
  obtain ⟨first, block, behind, next, gap, extracted, -, space, paired, single⟩ := declared.blocks
  have moves := extracted.lt
  have gapOrdered := gap.ordered
  have spaceOrdered := space.ordered
  by_cases again : symbols.opener <+: text.drop next
  · obtain ⟨second, last, -⟩ := paired again
    have lastMoves := last.lt
    omega
  · have ended := (single again).2
    omega

section Blocks

variable (opener : symbols.opener ≠ []) (closer : symbols.closer ≠ [])

include opener closer

theorem exists_extractedAt {start : Nat} (inside : start ≤ text.length)
    (opens : symbols.opener <+: text.drop start) :
    ∃ block stop, ExtractedAt symbols text start block stop ∧
      blockOrNothing symbols (text.drop start) = (block.inner, text.drop stop) := by
  cases read : Block.read? symbols.opener symbols.closer (text.drop start) with
  | none => exact absurd opens ((Block.read?_eq_none_iff opener closer).mp read)
  | some block =>
      obtain ⟨taken, split⟩ := Block.read?_suffix read
      have rest := (Bytes.drop_eq_append split.symm).2
      refine ⟨block, start + taken.length,
        ⟨Block.extract_of_read? opener closer inside read, rest, Nat.le_add_right _ _,
          Bytes.stop_le_of_split inside split.symm⟩, ?_⟩
      simp [blockOrNothing, read, rest]

theorem declaredAt_of_blocks? {place : Nat} (inside : place ≤ text.length)
    (begins : keyword <+: text.drop place)
    (free : ∀ b ∈ (text.take place).getLast?, Bytes.isIdent b = false) {pattern rest : Bytes}
    {replacement : Option Bytes}
    (read : blocks? keyword symbols (text.drop place) = some (pattern, replacement, rest)) :
    ∃ stop, rest = text.drop stop ∧
      DeclaredAt keyword symbols text place ⟨text.between place stop, pattern, replacement⟩
        stop := by
  have named : place + keyword.length ≤ text.length := by
    have fits := begins.length_le
    rw [List.length_drop] at fits
    omega
  obtain ⟨first, gap⟩ : ∃ first, SpaceRun text (place + keyword.length) first :=
    ⟨_, spaceRun_takeWhile named⟩
  simp only [blocks?, List.drop_drop, gap.dropWhile_eq] at read
  split at read
  case isFalse => cases read
  case isTrue opens =>
    have opens := List.isPrefixOf_iff_prefix.mp opens
    obtain ⟨block, behind, extracted, taken⟩ := exists_extractedAt opener closer gap.inside opens
    obtain ⟨next, space⟩ : ∃ next, SpaceRun text behind next :=
      ⟨_, spaceRun_takeWhile extracted.inside⟩
    have head : HeadAt keyword symbols text place := ⟨begins, free, first, gap, opens⟩
    have before := Nat.le_trans (Nat.le_of_add_right_le gap.ordered) extracted.ordered
    simp only [taken, space.dropWhile_eq] at read
    split at read
    case isTrue again =>
      have again := List.isPrefixOf_iff_prefix.mp (Bool.and_eq_true_iff.mp again).2
      obtain ⟨second, stop, last, took⟩ := exists_extractedAt opener closer space.inside again
      simp only [took, Option.some.injEq, Prod.mk.injEq] at read
      obtain ⟨rfl, rfl, rfl⟩ := read
      have ordered := Nat.le_trans before (Nat.le_trans space.ordered last.ordered)
      refine ⟨stop, rfl, head, ordered, last.inside, rfl, first, block, behind, next, gap,
        extracted, rfl, space, fun _ => ⟨second, last, rfl⟩, fun absent => absurd again absent⟩
    case isFalse single =>
      simp only [Option.some.injEq, Prod.mk.injEq] at read
      obtain ⟨rfl, rfl, rfl⟩ := read
      have alone : ¬ symbols.opener <+: text.drop next := by
        intro again
        apply single
        simp [List.isPrefixOf_iff_prefix.mpr again, again.ne_nil opener]
      exact ⟨behind, rfl, head, before, extracted.inside, rfl, first, block, behind, next, gap,
        extracted, rfl, space, fun again => absurd again alone, fun _ => ⟨rfl, rfl⟩⟩

end Blocks

theorem not_headAt_of_blocks? {place : Nat}
    (absent : blocks? keyword symbols (text.drop place) = none) :
    ¬ HeadAt keyword symbols text place := by
  rintro ⟨-, -, first, gap, opens⟩
  simp only [blocks?, List.drop_drop, gap.dropWhile_eq, List.isPrefixOf_iff_prefix.mpr opens,
    if_true] at absent
  split at absent <;> cases absent

theorem not_headAt_before {start place : Nat} (ordered : start ≤ place)
    (split : Bytes.splitAtFirst keyword (text.drop start) =
      some (text.between start place, text.drop place)) {other : Nat} (atLeast : start ≤ other)
    (before : other < place) (inside : place ≤ text.length) :
    ¬ HeadAt keyword symbols text other := by
  intro head
  rw [← Bytes.between_append_drop atLeast] at split
  have early := Bytes.splitAtFirst_le split head.begins
  rw [Bytes.length_between inside, Bytes.length_between (by omega)] at early
  omega

theorem getLast?_take {start stop : Nat} (ordered : start ≤ stop) :
    (text.take stop).getLast? =
      (text.between start stop).getLast?.or (text.take start).getLast? := by
  have sum : start + (stop - start) = stop := by omega
  rw [← List.getLast?_append, Bytes.between, ← List.take_add, sum]

theorem getLast?_take_succ {place : Nat} (inside : place < text.length) :
    (text.take (place + 1)).getLast? = text[place]? := by
  rw [List.take_add_one, List.getElem?_eq_getElem inside, Option.toList_some,
    List.getLast?_concat]

theorem lt_of_drop {start : Nat} (more : text.drop start ≠ []) : start < text.length :=
  Nat.lt_of_not_le fun beyond => more (List.drop_eq_nil_of_le beyond)

theorem Collects.located (opener : symbols.opener ≠ []) (closer : symbols.closer ≠ [])
    {before : Option UInt8} {rest : Bytes} {pieces : List Piece}
    (collects : Collects keyword symbols before rest pieces) {start : Nat}
    (inside : start ≤ text.length) (front : (text.take start).getLast? = before)
    (here : text.drop start = rest) : Located keyword symbols text start pieces := by
  induction collects generalizing start with
  | done =>
      have ended := List.drop_eq_nil_iff.mp here
      obtain rfl : start = text.length := Nat.le_antisymm inside ended
      exact .done
  | @last before rest more absent =>
      subst here
      exact .last (lt_of_drop more) absent
  | @passed before rest gap found later more split undeclared collects ih =>
      subst here front
      have nonempty := Bytes.splitAtFirst_ne_nil more split
      obtain ⟨whole, -⟩ := Bytes.splitAtFirst_eq_some split
      obtain ⟨front, behind⟩ := Bytes.drop_eq_append whole
      have ordered := Nat.le_add_right start gap.length
      generalize start + gap.length = place at front behind ordered
      subst front behind
      have remains := lt_of_drop nonempty
      have byte : (text.drop place).take 1 = text.between place (place + 1) := by
        simp [Bytes.between]
      have last : (text.take (place + 1)).getLast? = (text.drop place).head? := by
        rw [getLast?_take_succ remains, List.head?_drop]
      rw [byte, Bytes.between_append_between ordered (Nat.le_succ place)]
      refine .passed ordered remains split ?_ (ih remains last (by simp))
      intro head
      rcases undeclared with attached | absent
      · rw [← getLast?_take ordered, Option.any_eq_true] at attached
        obtain ⟨b, member, ident⟩ := attached
        simp [head.free b member] at ident
      · exact not_headAt_of_blocks? absent head
  | @declared before rest gap found own pattern behind replacement later more split free read
      whole collects ih =>
      subst here front
      obtain ⟨cut, begins⟩ := Bytes.splitAtFirst_eq_some split
      obtain ⟨front, rest⟩ := Bytes.drop_eq_append cut
      have within := Bytes.stop_le_of_split inside cut
      have ordered := Nat.le_add_right start gap.length
      generalize start + gap.length = place at front rest within ordered
      subst front rest
      rw [← getLast?_take ordered] at free ih
      have bare : ∀ b ∈ (text.take place).getLast?, Bytes.isIdent b = false := by
        intro b member
        rwa [Option.mem_def.mp member] at free
      obtain ⟨stop, rfl, declared⟩ :=
        declaredAt_of_blocks? opener closer within begins bare read
      rw [← Bytes.between_append_drop declared.ordered] at whole
      obtain rfl := List.append_cancel_right whole
      exact .declared (lt_of_drop more) ordered split declared
        (ih declared.inside (getLast?_take declared.ordered) rfl)

theorem Located.parted {start : Nat} {pieces : List Piece}
    (located : Located keyword symbols text start pieces) :
    ∃ gap parts, Parted keyword symbols text start gap parts ∧
      restOf pieces = gap ++ parts.flatMap Prod.snd ∧
      declarationsOf pieces = parts.map Prod.fst := by
  induction located with
  | done =>
      refine ⟨text.drop text.length, [], .last ?_, by simp, rfl⟩
      intro place atLeast inside
      omega
  | @last start more absent =>
      refine ⟨text.drop start, [], .last ?_, by simp, rfl⟩
      intro place atLeast inside head
      rw [← Bytes.between_append_drop atLeast] at absent
      exact Bytes.splitAtFirst_eq_none absent head.begins
  | @passed start place later ordered remains split undeclared located ih =>
      obtain ⟨gap, parts, parted, kept, declared⟩ := ih
      refine ⟨_, parts, parted.extend (Nat.le_succ_of_le ordered) ?_, ?_, declared⟩
      · intro other atLeast before
        rcases Nat.lt_succ_iff_lt_or_eq.mp before with earlier | rfl
        · exact not_headAt_before ordered split atLeast earlier (Nat.le_of_lt remains)
        · exact undeclared
      · rw [restOf_kept, kept, List.append_assoc]
  | @declared start place stop declaration later more ordered split declared located ih =>
      obtain ⟨gap, parts, parted, kept, others⟩ := ih
      refine ⟨_, _, .next ordered ?_ declared parted, ?_, ?_⟩
      · intro other atLeast before
        exact not_headAt_before ordered split atLeast before
          (Nat.le_trans declared.ordered declared.inside)
      · simp [kept]
      · rw [List.map_cons, ← others]
        rfl

end Partition

theorem meaning?_eq (declaration : Declaration) :
    declaration.meaning? =
      if declaration.isRule then
        some (declaration.pattern.trim, (declaration.replacement.getD []).trim)
      else none := by
  obtain ⟨text, pattern, replacement⟩ := declaration
  cases replacement with
  | none => rfl
  | some replacement => by_cases blank : pattern.trim.isEmpty <;> simp [meaning?, isRule, blank]

theorem filterMap_meaning? (pieces : List Piece) :
    (pieces.filterMap fun
      | .kept _ => none
      | .declared declaration => declaration.meaning?) =
      ((declarationsOf pieces).filter isRule).map fun declaration =>
        (declaration.pattern.trim, (declaration.replacement.getD []).trim) := by
  rw [← List.filterMap_eq_map, List.filterMap_filter, declarationsOf, List.filterMap_filterMap]
  congr 1
  funext piece
  cases piece with
  | kept text => rfl
  | declared declaration => exact declaration.meaning?_eq

theorem rulesOf_eq (pieces : List Piece) :
    rulesOf pieces =
      ((declarationsOf pieces).filter isRule).mapIdx fun index declaration =>
        { name := bytes "inline#" ++ Bytes.ofNat index
          pattern := declaration.pattern.trim
          replacement := (declaration.replacement.getD []).trim } := by
  refine (congrArg (List.mapIdx _) (filterMap_meaning? pieces)).trans ?_
  simp [List.mapIdx_eq_zipIdx_map, List.zipIdx_map]

/-- The search for declarations ends when a declaration cannot be empty.  When blocks
can be read, it cuts the text exactly into the declarations and the gaps between them.
What remains is the gaps, and the rules are those of the declarations, in order. -/
theorem collect_partitions {keyword : Bytes} {symbols : Symbols}
    (progress : keyword ≠ [] ∨ symbols.opener ≠ [] ∧ symbols.closer ≠ []) (text : Bytes) :
    Collects keyword symbols none text (pieces keyword symbols text) ∧
      (symbols.opener ≠ [] → symbols.closer ≠ [] →
        ∃ gap parts, Parted keyword symbols text 0 gap parts ∧
          text = gap ++ parts.flatMap (fun part => part.1.text ++ part.2) ∧
          (collect keyword symbols text).2 = gap ++ parts.flatMap Prod.snd ∧
          (collect keyword symbols text).1 =
            ((parts.map Prod.fst).filter isRule).mapIdx fun index declaration =>
              { name := bytes "inline#" ++ Bytes.ofNat index
                pattern := declaration.pattern.trim
                replacement := (declaration.replacement.getD []).trim }) := by
  have collects : Collects keyword symbols none text (pieces keyword symbols text) :=
    collects_piecesFrom progress none text
  refine ⟨collects, fun opener closer => ?_⟩
  obtain ⟨gap, parts, parted, kept, declared⟩ :=
    (collects.located opener closer (Nat.zero_le _) rfl rfl).parted
  exact ⟨gap, parts, parted, parted.text_eq, kept, declared ▸ rulesOf_eq _⟩

/-- The text `xrule{a} rule {p} rule{ }{b} rule{ c } {d}` holds a longer word, a
declaration without a second block, one with a blank pattern and one of a rule. -/
theorem collect_partitions_mixed :
    bytes "rule" ≠ [] ∧
      ∃ gap parts,
        Parted (bytes "rule") .standard
          (bytes "xrule{a} rule {p} rule{ }{b} rule{ c } {d}") 0
          gap parts ∧
        gap ++ parts.flatMap Prod.snd = bytes "xrule{a}   " ∧
        collect (bytes "rule") .standard
          (bytes "xrule{a} rule {p} rule{ }{b} rule{ c } {d}") =
          ([⟨bytes "inline#0", bytes "c", bytes "d"⟩], bytes "xrule{a}   ") := by
  have nonempty : bytes "rule" ≠ [] := by decide
  have valid : Symbols.standard.Valid := Symbols.fault?_eq_none_iff.mp (by decide)
  obtain ⟨gap, parts, parted, -, kept, -⟩ :=
    (collect_partitions (.inl nonempty)
      (bytes "xrule{a} rule {p} rule{ }{b} rule{ c } {d}")).2
      valid.opener valid.closer
  have collected : collect (bytes "rule") .standard
      (bytes "xrule{a} rule {p} rule{ }{b} rule{ c } {d}") =
      ([⟨bytes "inline#0", bytes "c", bytes "d"⟩], bytes "xrule{a}   ") := by
    decide +kernel
  rw [collected] at kept
  exact ⟨nonempty, gap, parts, parted, kept.symm, collected⟩

end Stencil.Declaration
