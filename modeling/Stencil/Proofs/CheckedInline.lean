import Stencil.Proofs.CheckedEngine
import Stencil.Proofs.DeclarationPartition

/-!
# Checked declarations

Declarations are collected by offsets into the text, and their rules are applied pass
by pass.  With this the whole library is written with offsets, and no access of any of
it lies outside of the text it reads.
-/

namespace Stencil.Checked

/-- Whether a name byte stands in front of an offset. -/
def attachedAt (text : Bytes) (place : Int) : Run Bool :=
  if 0 < place then do
    return Bytes.isIdent (← byteAt text (place - 1))
  else
    pure false

/-- The inside of a second block behind an offset, and the offset behind the declaration. -/
def secondAt (symbols : Symbols) (text : Bytes) (offset : Int) : Run (Option Bytes × Int) := do
  let next ← skipWhile Bytes.isSpace text offset
  if next < text.length then
    if ← startsAt text next symbols.opener then
      let (replacement, stop, _) ← blockAt text next symbols.opener symbols.closer
      return (some replacement.text, stop)
    else
      return (none, offset)
  else
    return (none, offset)

/-- The declaration whose keyword stands at an offset, and the offset behind it. -/
def declarationAt (keyword : Bytes) (symbols : Symbols) (text : Bytes) (place : Int) :
    Run (Option (Declaration × Int)) := do
  if ← attachedAt text place then
    return none
  else
    let first ← skipWhile Bytes.isSpace text (place + keyword.length)
    if ← startsAt text first symbols.opener then
      let (pattern, behind, _) ← blockAt text first symbols.opener symbols.closer
      let (replacement, stop) ← secondAt symbols text behind
      let own ← cut text place stop
      return some (⟨own, pattern.text, replacement⟩, stop)
    else
      return none

/-- The declarations from an offset on, and the text without them. -/
def collectFrom (keyword : Bytes) (symbols : Symbols) (text : Bytes) (offset : Int) :
    Run (List Declaration × Bytes) :=
  if offset < text.length then do
    match Bytes.splitAtFirst keyword (← behind text offset) with
    | none => return ([], ← behind text offset)
    | some (gap, _) =>
        let place := offset + gap.length
        match ← declarationAt keyword symbols text place with
        | none =>
            let passed ← cut text offset (place + 1)
            goOn text offset (place + 1) fun _ => do
              let (declarations, rest) ← collectFrom keyword symbols text (place + 1)
              return (declarations, passed ++ rest)
        | some (declaration, stop) =>
            let kept ← cut text offset place
            goOn text offset stop fun _ => do
              let (declarations, rest) ← collectFrom keyword symbols text stop
              return (declaration :: declarations, kept ++ rest)
  else do
    return ([], ← behind text offset)
termination_by (text.length - offset).toNat
decreasing_by all_goals omega

/-- The rules a text declares, and the text without the declarations. -/
def collect (keyword : Bytes) (symbols : Symbols) (text : Bytes) : Run (List Rule × Bytes) := do
  let (declarations, rest) ← collectFrom keyword symbols text 0
  return (Declaration.rulesOf (declarations.map .declared), rest)

/-- Collects and applies declared rules until nothing is declared or the passes are
used up. -/
def inlinePasses (find : Anchor.Search) (keyword : Bytes) (options : Options) :
    Nat → Bytes → Run (Except Symbols.Fault Bytes)
  | 0, text => pure (.ok text)
  | passes + 1, text => do
      match ← collect keyword options.symbols text with
      | ([], rest) => return .ok rest
      | (rules, rest) =>
          match ← compileEngine rules options with
          | .error fault => return .error fault
          | .ok engine =>
              let (output, _) ← processStats find engine rest
              inlinePasses find keyword options passes output

/-- Applies the rules a text declares to the text itself. -/
def processInline (find : Anchor.Search) (text : Bytes) (inline : InlineOptions) :
    Run (Except Symbols.Fault Bytes) :=
  let inline := inline.normalized
  match inline.options.symbols.fault? with
  | some fault => pure (.error fault)
  | none => inlinePasses find inline.keyword inline.options inline.passes.toNat text

/-! ## Declarations -/

section Declarations

variable {keyword : Bytes} {symbols : Symbols} {text : Bytes}

theorem attachedAt_eq {place : Nat} (inside : place ≤ text.length) :
    attachedAt text place = pure ((text.take place).getLast?.any Bytes.isIdent) := by
  cases place with
  | zero => rfl
  | succ before =>
      have here := List.getElem?_eq_getElem (Nat.lt_of_succ_le inside)
      rw [attachedAt, if_pos (by omega), Int.natCast_succ, Int.add_sub_cancel, byteAt_eq here,
        pure_bind, Declaration.getLast?_take_succ inside, here]
      rfl

theorem blockAt_extracted {start stop : Nat} {block : Block}
    (extracted : Declaration.ExtractedAt symbols text start block stop) :
    blockAt text start symbols.opener symbols.closer =
      pure (⟨start + symbols.opener.length, block.inner⟩, (stop : Int), block.closed) := by
  have inside := Nat.le_trans extracted.ordered extracted.inside
  exact blockAt_eq inside (Block.read?_of_extract extracted.found) extracted.inside extracted.rest

theorem secondAt_none {offset next : Nat} (inside : offset ≤ text.length)
    (space : SpaceRun text offset next) (alone : ¬ symbols.opener <+: text.drop next) :
    secondAt symbols text offset = pure (none, (offset : Int)) := by
  rw [secondAt, skipWhile_space inside space, pure_bind, startsAt_eq space.inside, pure_bind]
  rw [if_neg (mt List.isPrefixOf_iff_prefix.mp alone), ite_self]

theorem secondAt_some (nonempty : symbols.opener ≠ []) {offset next stop : Nat} {block : Block}
    (inside : offset ≤ text.length) (space : SpaceRun text offset next)
    (again : symbols.opener <+: text.drop next)
    (extracted : Declaration.ExtractedAt symbols text next block stop) :
    secondAt symbols text offset = pure (some block.inner, (stop : Int)) := by
  have more := Declaration.lt_of_drop (again.ne_nil nonempty)
  rw [secondAt, skipWhile_space inside space, pure_bind, if_pos (by omega),
    startsAt_eq space.inside, pure_bind, if_pos (List.isPrefixOf_iff_prefix.mpr again),
    blockAt_extracted extracted, pure_bind]

theorem not_attached {place : Nat} (inside : place ≤ text.length)
    (head : Declaration.HeadAt keyword symbols text place) :
    attachedAt text place = pure false := by
  rw [attachedAt_eq inside]
  cases last : (text.take place).getLast? with
  | none => rfl
  | some b => exact congrArg pure (head.free b last)

theorem declarationAt_some (nonempty : symbols.opener ≠ []) {place stop : Nat}
    {declaration : Declaration}
    (declared : Declaration.DeclaredAt keyword symbols text place declaration stop) :
    declarationAt keyword symbols text place = pure (some (declaration, (stop : Int))) := by
  obtain ⟨own, pattern, replacement⟩ := declaration
  obtain ⟨head, ordered, inside, rfl, first, block, behind, next, gap, extracted, rfl, space,
    paired, single⟩ := declared
  have named := Nat.le_trans gap.ordered gap.inside
  have opens : symbols.opener.isPrefixOf (text.drop first) = true := by
    obtain ⟨other, run, opens⟩ := head.opens
    obtain rfl : other = first := run.stop_eq.symm.trans gap.stop_eq
    exact List.isPrefixOf_iff_prefix.mpr opens
  have second : secondAt symbols text behind = pure (replacement, (stop : Int)) := by
    by_cases again : symbols.opener <+: text.drop next
    · obtain ⟨other, last, rfl⟩ := paired again
      exact secondAt_some nonempty extracted.inside space again last
    · obtain ⟨rfl, rfl⟩ := single again
      exact secondAt_none extracted.inside space again
  rw [declarationAt, not_attached (Nat.le_trans ordered inside) head, pure_bind,
    if_neg Bool.false_ne_true, ← Int.natCast_add, skipWhile_space named gap, pure_bind,
    startsAt_eq gap.inside, pure_bind, if_pos opens, blockAt_extracted extracted, pure_bind]
  simp only [second, cut_eq ordered inside, pure_bind]

theorem declarationAt_none {place : Nat} (inside : place ≤ text.length)
    (begins : keyword <+: text.drop place)
    (undeclared : ¬ Declaration.HeadAt keyword symbols text place) :
    declarationAt keyword symbols text place = pure none := by
  rw [declarationAt, attachedAt_eq inside, pure_bind]
  split
  · rfl
  next free =>
    obtain ⟨rest, split⟩ := begins
    have named := Bytes.stop_le_of_split inside split.symm
    obtain ⟨first, gap⟩ : ∃ first, SpaceRun text (place + keyword.length) first :=
      ⟨_, spaceRun_takeWhile named⟩
    have closed : ¬ symbols.opener.isPrefixOf (text.drop first) = true := by
      intro opens
      refine undeclared ⟨⟨rest, split⟩, ?_, first, gap, List.isPrefixOf_iff_prefix.mp opens⟩
      intro b last
      rw [Option.mem_def.mp last] at free
      simpa using free
    rw [← Int.natCast_add, skipWhile_space named gap, pure_bind, startsAt_eq gap.inside,
      pure_bind, if_neg closed]

theorem add_length_between {start place : Nat} (ordered : start ≤ place)
    (inside : place ≤ text.length) :
    (start : Int) + (text.between start place).length = place := by
  rw [Bytes.length_between inside]
  omega

/-- The search by offsets reads nothing outside of the text. -/
theorem collectFrom_eq (nonempty : symbols.opener ≠ []) {start : Nat}
    {pieces : List Declaration.Piece}
    (located : Declaration.Located keyword symbols text start pieces) :
    collectFrom keyword symbols text start =
      pure (Declaration.declarationsOf pieces, Declaration.restOf pieces) := by
  induction located with
  | done =>
      rw [collectFrom, if_neg (by omega), behind_eq (Nat.le_refl _), pure_bind, List.drop_length]
      rfl
  | @last start more absent =>
      rw [collectFrom, if_pos (by omega), behind_eq (Nat.le_of_lt more), pure_bind, absent]
      simp only [pure_bind]
      simp [Declaration.declarationsOf]
  | @passed start place later ordered remains split undeclared located ih =>
      have inside := Nat.le_of_lt remains
      have begins := (Bytes.splitAtFirst_eq_some split).2
      have reached := add_length_between ordered inside
      rw [collectFrom, if_pos (by omega), behind_eq (Nat.le_trans ordered inside), pure_bind, split]
      simp only [reached, declarationAt_none inside begins undeclared, pure_bind,
        ← Int.natCast_succ, cut_eq (Nat.le_succ_of_le ordered) remains, ih]
      rw [goOn_eq (by omega) (by omega)]
      rfl
  | @declared start place stop declaration later more ordered split declared located ih =>
      have inside := Nat.le_trans declared.ordered declared.inside
      have reached := add_length_between ordered inside
      rw [collectFrom, if_pos (by omega), behind_eq (Nat.le_of_lt more), pure_bind, split]
      have moves := Nat.lt_of_le_of_lt ordered declared.lt
      simp only [reached, declarationAt_some nonempty declared, pure_bind, cut_eq ordered inside,
        goOn_eq (Int.ofNat_lt.mpr moves) (Int.ofNat_le.mpr declared.inside), ih]
      rfl

theorem rulesOf_declared (pieces : List Declaration.Piece) :
    Declaration.rulesOf ((Declaration.declarationsOf pieces).map .declared) =
      Declaration.rulesOf pieces := by
  have same : Declaration.declarationsOf ((Declaration.declarationsOf pieces).map .declared) =
      Declaration.declarationsOf pieces := by
    rw [Declaration.declarationsOf, List.filterMap_map]
    exact List.filterMap_some
  rw [Declaration.rulesOf_eq, same, ← Declaration.rulesOf_eq]

/-- Collecting declarations reads nothing outside of the text. -/
theorem collect_eq (valid : symbols.Valid) (keyword text : Bytes) :
    collect keyword symbols text = pure (Declaration.collect keyword symbols text) := by
  have collects : Declaration.Collects keyword symbols none text _ :=
    Declaration.collects_piecesFrom (.inr ⟨valid.opener, valid.closer⟩) none text
  have located := collects.located valid.opener valid.closer (Nat.zero_le _) rfl List.drop_zero
  have read := collectFrom_eq valid.opener located
  rw [Int.natCast_zero] at read
  rw [collect, read]
  simp only [pure_bind, rulesOf_declared]
  rfl

end Declarations

/-! ## Passes -/

section Passes

variable {find : Anchor.Search} (lawful : find.Lawful)

include lawful

theorem inlinePasses_eq (keyword : Bytes) {options : Options} (valid : options.symbols.Valid)
    (passes : Nat) (text : Bytes) :
    inlinePasses find keyword options passes text =
      pure (Stencil.inlinePasses keyword options passes text) := by
  induction passes generalizing text with
  | zero => rfl
  | succ passes ih =>
      rcases collected : Declaration.collect keyword options.symbols text with ⟨rules, rest⟩
      rw [inlinePasses, Stencil.inlinePasses, collect_eq valid, pure_bind, collected]
      cases rules with
      | nil => rfl
      | cons first others =>
          simp only [compileEngine_eq, pure_bind]
          cases compiled : Engine.compile (first :: others) options with
          | error fault => rfl
          | ok engine =>
              simp only [processStats_eq lawful compiled, pure_bind, ih]
              rfl

/-- Applying declared rules reads nothing outside of the text of any pass. -/
theorem processInline_eq (text : Bytes) (inline : InlineOptions) :
    processInline find text inline = pure (Stencil.processInline text inline) := by
  unfold processInline Stencil.processInline
  cases faulty : inline.normalized.options.symbols.fault? with
  | some fault => simp only [faulty]
  | none =>
      simp only [faulty]
      exact inlinePasses_eq lawful _ (Symbols.fault?_eq_none_iff.mp faulty) _ text

end Passes

/-- No access lies outside of the text that is read: compiling, matching at any offset,
searching, reading a match, expanding a template, applying rules and collecting
declarations all come to an end without a fault.  A match lies inside of the text and
begins at the offset it was asked for.  It has one capture for every name of the pattern,
in order.  The captured values lie inside of the match and do not overlap, and the parts
of a value lie inside of it. -/
theorem reads_stay_inside {find : Anchor.Search} (lawful : find.Lawful) {symbols : Symbols}
    (valid : symbols.Valid) (source text : Bytes) :
    (∃ pattern, Pattern.compile source symbols = .ok pattern ∧
      compile source symbols = pure (.ok pattern) ∧
      (∀ strict start,
        matchAt pattern strict text start = pure (pattern.matchAt? strict text start)) ∧
      findAll pattern text = pure (pattern.findAll text) ∧
      (∀ found ∈ pattern.findAll text,
        ∃ start : Nat, pattern.matchAt? false text start = some found) ∧
      ∀ strict start found, pattern.matchAt? strict text start = some found →
        found.Lies text start ∧ found.captures.map (·.name) = pattern.names ∧
          textOf text found = pure found.matched.text ∧
          (∀ name, lookupIn text found name = pure (found.lookup? name)) ∧
          (∀ name, partsIn text found name = pure (found.parts? name)) ∧
          ∀ sigil template,
            expand sigil template text found = pure (Template.expand sigil template found)) ∧
    (∀ rules options, options.normalized.symbols.Valid →
      ∃ engine, Engine.compile rules options = .ok engine ∧
        compileEngine rules options = pure (.ok engine) ∧
        processStats find engine text = pure (engine.processStats text)) ∧
    (∀ keyword, collect keyword symbols text = pure (Declaration.collect keyword symbols text)) ∧
    ∀ inline, processInline find text inline = pure (Stencil.processInline text inline) := by
  refine ⟨?_, ?_, fun keyword => collect_eq valid keyword text, processInline_eq lawful text⟩
  · obtain ⟨pattern, compiled⟩ : ∃ pattern, Pattern.compile source symbols = .ok pattern :=
      ⟨_, Pattern.compile_eq_ok_iff.mpr ⟨valid, rfl⟩⟩
    refine ⟨pattern, compiled, compiled ▸ compile_eq source symbols,
      fun strict start => matchAt_eq compiled strict text start,
      findFrom_eq compiled (Nat.zero_le _), ?_, ?_⟩
    · intro found member
      exact matchAt?_of_mem_findFrom compiled (Nat.zero_le _) member
    · intro strict start found matched
      obtain ⟨lies, names⟩ :=
        Pattern.lies_of_matchAt? (Pattern.wellFormed_of_compile compiled) matched
      exact ⟨lies, names, textOf_eq lies, lookupIn_eq lies, partsIn_eq lies, expand_eq lies⟩
  · intro rules options usable
    obtain ⟨engine, compiled⟩ : ∃ engine, Engine.compile rules options = .ok engine :=
      ⟨_, Engine.compile_eq_ok_iff.mpr ⟨usable, rfl⟩⟩
    exact ⟨engine, compiled, compiled ▸ compileEngine_eq rules options,
      processStats_eq lawful compiled text⟩

/-- The second block of the sequence in `g (a)(b (c` is not closed. -/
theorem reads_stay_inside_unclosed :
    Anchor.Search.Lawful Anchor.firstEnd? ∧ Symbols.standard.Valid ∧
      ∃ pattern found engine,
        Pattern.compile (bytes "$f $$\x7b(\x7d\x7b)\x7dxs") .standard = .ok pattern ∧
        pattern.matchAt? false (bytes "g (a)(b (c") 0 = some found ∧
        found.Lies (bytes "g (a)(b (c") 0 ∧
        found.captures.map (·.name) = [bytes "f", bytes "xs"] ∧
        partsIn (bytes "g (a)(b (c") found (bytes "xs") = pure (some [bytes "a", bytes "b (c"]) ∧
        Engine.compile [⟨[], bytes "(a", bytes "[$f"⟩] {} = .ok engine ∧
        processStats Anchor.firstEnd? engine (bytes "g (a)(b (c") =
          pure (engine.processStats (bytes "g (a)(b (c")) := by
  have valid : Symbols.standard.Valid := Symbols.fault?_eq_none_iff.mp (by decide)
  obtain ⟨⟨pattern, compiled, -, -, -, -, reads⟩, engines, -⟩ :=
    reads_stay_inside Anchor.firstEnd?_lawful valid (bytes "$f $$\x7b(\x7d\x7b)\x7dxs")
      (bytes "g (a)(b (c")
  obtain ⟨engine, built, -, processed⟩ := engines [⟨[], bytes "(a", bytes "[$f"⟩] {}
    (Symbols.fault?_eq_none_iff.mp (by decide))
  have answer : ((Pattern.compile (bytes "$f $$\x7b(\x7d\x7b)\x7dxs") .standard).toOption.bind
      fun pattern => (pattern.matchAt? false (bytes "g (a)(b (c") 0).bind fun found =>
        (found.parts? (bytes "xs")).map fun parts => (pattern.names, parts)) =
      some ([bytes "f", bytes "xs"], [bytes "a", bytes "b (c"]) := by
    decide +kernel
  simp only [compiled, Except.toOption, Option.bind_some, Option.bind_eq_some_iff,
    Option.map_eq_some_iff, Prod.mk.injEq] at answer
  obtain ⟨found, matched, parts, captured, named, rfl⟩ := answer
  obtain ⟨lies, names, -, -, read, -⟩ := reads false 0 found matched
  exact ⟨Anchor.firstEnd?_lawful, valid, pattern, found, engine, compiled, matched, lies,
    names.trans named, by rw [read, captured], built, processed⟩

end Stencil.Checked
