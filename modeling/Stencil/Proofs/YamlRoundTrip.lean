import Stencil.Proofs.TomlRoundTrip
import Stencil.Proofs.YamlNodes
import Stencil.Proofs.YamlStyle

/-!
# Rule files in YAML read back

A rule file is written as lines of entries whose tokens the lexer finds again,
and from the tokens the nodes are read that hold the fields of the file.  What is
lost is lost in single texts: a literal block that begins with a line break or a
tab is read differently, and so is one that begins with a space inside a rule,
where its header names a step that is not the one taken.
-/

namespace Stencil

namespace RuleFile.Yaml

open Stencil.Yaml

/-! ## Fields -/

/-- The token of a text. -/
def textToken (text : Bytes) : Yaml.Token :=
  .scalar (Style.ofText (Utf8.chars text) == .plain) (Utf8.chars text)

/-- The node of a text. -/
def textNode (text : Bytes) : Node :=
  .scalar (Tag.ofScalar (Style.ofText (Utf8.chars text) == .plain) (Utf8.chars text))
    (Utf8.chars text)

/-- Entries with texts. -/
def fieldEntries (fields : List (String × Bytes)) : List (List Char × List Yaml.Token × Node) :=
  fields.map fun (key, text) => (key.toList, [textToken text], textNode text)

/-- A text that is read back from an entry at a column, whose further lines are indented. -/
structure Readable (indent column : Nat) (text : Bytes) : Prop where
  valid : Utf8.Valid text
  recoverable : Style.Recoverable (column + 4 == indent) (Utf8.chars text)

/-- Lines with one entry each, but for the indentation of the first. -/
def fieldLines (indent column : Nat) : List (String × Bytes) → List Char
  | [] => []
  | (key, text) :: fields =>
      entry indent key text ++
        fields.flatMap fun (key, text) => List.replicate column ' ' ++ entry indent key text

section Fields

variable {indent column count : Nat} {next : List Char} {frame : Frame}

theorem entry_eq {text : Bytes} (valid : Utf8.Valid text) (key : String) :
    entry indent key text =
      key.toList ++ ':' :: ' ' ::
        endLine (styled indent (Style.ofText (Utf8.chars text)) (Utf8.chars text)) := by
  have decoded : Utf8.decode? text = some (Utf8.chars text) := by
    obtain ⟨chars, rfl⟩ := valid
    rw [Utf8.chars, Utf8.decode?_encode, Option.getD_some]
  rw [entry, scalarLine, decoded, List.append_assoc]
  rfl

theorem reads_field {key : String} {text : Bytes} (isKey : Lexer.Key key.toList)
    (readable : Readable indent column text) (further : column < indent) (outside : count ≤ column)
    (begins : Lexer.Begins next) (inside : (frame.leave column).indent ≤ column) :
    Reads (entry indent key text ++ (List.replicate count ' ' ++ next)) column frame next count
      (((frame.leave column).enter column .mappingStart).emit
        (entryTokens (fieldEntries [(key, text)]))) := by
  rw [entry_eq readable.valid, List.append_assoc]
  exact (scalarLine_styled further readable.recoverable).reads_entry isKey outside begins
    (by simp) inside

theorem begins_fieldLines {fields : List (String × Bytes)} (filled : fields ≠ [])
    (keys : ∀ field ∈ fields, Lexer.Key field.1.toList)
    (readable : ∀ field ∈ fields, Readable indent column field.2) (text : List Char) :
    Lexer.Begins (fieldLines indent column fields ++ text) := by
  obtain ⟨⟨key, content⟩, fields, rfl⟩ := List.exists_cons_of_ne_nil filled
  obtain ⟨isKey, -⟩ := List.forall_mem_cons.mp keys
  obtain ⟨first, -⟩ := List.forall_mem_cons.mp readable
  rw [fieldLines, entry_eq first.valid]
  simpa only [List.append_assoc] using isKey.begins _

/-- Entries at one column are read one after the other. -/
theorem reads_fields {fields : List (String × Bytes)} (filled : fields ≠ [])
    (keys : ∀ field ∈ fields, Lexer.Key field.1.toList)
    (readable : ∀ field ∈ fields, Readable indent column field.2) (further : column < indent)
    (outside : count ≤ column) (begins : Lexer.Begins next)
    (inside : (frame.leave column).indent ≤ column) :
    Reads (fieldLines indent column fields ++ (List.replicate count ' ' ++ next)) column frame next
      count (((frame.leave column).enter column .mappingStart).emit
        (entryTokens (fieldEntries fields))) := by
  induction fields generalizing frame with
  | nil => exact absurd rfl filled
  | cons field fields ih =>
      obtain ⟨key, text⟩ := field
      obtain ⟨isKey, laterKeys⟩ := List.forall_mem_cons.mp keys
      obtain ⟨first, laterReadable⟩ := List.forall_mem_cons.mp readable
      cases fields with
      | nil =>
          rw [fieldLines, List.flatMap_nil, List.append_nil]
          exact reads_field isKey first further outside begins inside
      | cons second fields =>
          have starts := begins_fieldLines (List.cons_ne_nil second fields) laterKeys laterReadable
            (List.replicate count ' ' ++ next)
          -- The first entry enters the mapping, and the others find it entered.
          have here := reads_field isKey first further (Nat.le_refl column) starts inside
          have settled : (((frame.leave column).enter column .mappingStart).emit
              (entryTokens (fieldEntries [(key, text)]))).indent = column :=
            Frame.indent_enter inside .mappingStart
          have left := Frame.leave_of_indent settled
          have later := ih (List.cons_ne_nil _ _) laterKeys laterReadable
            (Int.le_of_eq ((congrArg Frame.indent left).trans settled))
          rw [left, Frame.enter_of_indent settled] at later
          simpa [fieldLines, fieldEntries, entryTokens, Frame.emit] using here.trans later

end Fields

/-! ## Entries of a rule file -/

/-- The mapping at the top goes on, or begins, at the start of the next line. -/
structure AtTop (frame : Frame) (read : List Yaml.Token) : Prop where
  inside : (frame.leave 0).indent ≤ 0
  entered : (frame.leave 0).enter 0 .mappingStart = ⟨0, [-1], read⟩

theorem atTop_start : AtTop {} [.mappingStart] :=
  ⟨by decide, rfl⟩

theorem atTop_of_leave {frame : Frame} {read : List Yaml.Token}
    (closed : frame.leave 0 = ⟨0, [-1], read⟩) : AtTop frame read :=
  ⟨Int.le_of_eq (congrArg Frame.indent closed),
    congrArg (fun frame => frame.enter 0 .mappingStart) closed⟩

/-- Lines that are read as entries of the mapping at the top. -/
structure TopLines (text : List Char) (tokens : List Yaml.Token) : Prop where
  begins : ∀ next, Lexer.Begins (text ++ next)
  reads : ∀ {next : List Char} {frame : Frame} {read : List Yaml.Token}, Lexer.Begins next →
    AtTop frame read → ∃ after : Frame, after.leave 0 = ⟨0, [-1], read ++ tokens⟩ ∧
      Reads (text ++ next) 0 frame next 0 after

theorem TopLines.append {first second : List Char} {tokens others : List Yaml.Token}
    (left : TopLines first tokens) (right : TopLines second others) :
    TopLines (first ++ second) (tokens ++ others) := by
  constructor
  · intro next
    rw [List.append_assoc]
    exact left.begins _
  · intro next frame read begins top
    obtain ⟨middle, closed, firstReads⟩ := left.reads (right.begins next) top
    obtain ⟨after, ends, secondReads⟩ := right.reads begins (atTop_of_leave closed)
    rw [List.append_assoc] at ends
    refine ⟨after, ends, ?_⟩
    rw [List.append_assoc]
    exact firstReads.trans secondReads

/-- Lines that may be left out. -/
theorem TopLines.behind {first second : List Char} {tokens others : List Yaml.Token}
    (right : TopLines second others) (left : first = [] ∧ tokens = [] ∨ TopLines first tokens) :
    TopLines (first ++ second) (tokens ++ others) := by
  rcases left with ⟨rfl, rfl⟩ | left
  · exact right
  · exact left.append right

theorem TopLines.of_key {word body : List Char} {tokens : List Yaml.Token} (key : Lexer.Key word)
    (reads : ∀ {next : List Char} {frame : Frame} {read : List Yaml.Token}, Lexer.Begins next →
      AtTop frame read → ∃ after : Frame, after.leave 0 = ⟨0, [-1], read ++ tokens⟩ ∧
        Reads (word ++ body ++ next) 0 frame next 0 after) : TopLines (word ++ body) tokens := by
  refine ⟨?_, reads⟩
  intro next
  rw [List.append_assoc]
  exact key.begins _

/-- A key with a scalar at the top. -/
theorem topLines_entry {word body : List Char} {token : Yaml.Token} (key : Lexer.Key word)
    (scalar : Lexer.ScalarLine 0 body token) (goesOn : token ≠ .streamEnd) :
    TopLines (word ++ ':' :: ' ' :: body) [.key, .scalar true word, .value, token] := by
  apply TopLines.of_key key
  intro next frame read begins top
  have line : Reads _ 0 frame next 0 _ :=
    scalar.reads_entry key (Nat.le_refl 0) begins goesOn top.inside
  rw [Int.ofNat_zero, top.entered] at line
  exact ⟨_, rfl, by simpa using line⟩

/-- The tokens of a mapping with texts. -/
def fieldTokens (fields : List (String × Bytes)) : List Yaml.Token :=
  .mappingStart :: (entryTokens (fieldEntries fields) ++ [.blockEnd])

/-- The fields of symbols. -/
def symbolFields (symbols : Symbols) : List (String × Bytes) :=
  [("sigil", symbols.sigil), ("open", symbols.opener), ("close", symbols.closer)]

/-- The fields of a rule. -/
def ruleFields (rule : Rule) : List (String × Bytes) :=
  (if rule.name.isEmpty then [] else [("name", rule.name)]) ++
    [("pattern", rule.pattern), ("replacement", rule.replacement)]

/-- The names of all fields. -/
def fieldNames : List String :=
  ["name", "symbols", "strict_blocks", "rules", "sigil", "open", "close", "pattern", "replacement"]

instance (word : List Char) : Decidable (Lexer.Key word) :=
  decidable_of_iff (word ≠ [] ∧ word.length ≤ 1024 ∧ word.all Lexer.isKeyLetter = true)
    ⟨fun ⟨filled, short, letters⟩ => ⟨filled, short, List.all_eq_true.mp letters⟩,
      fun key => ⟨key.filled, key.short, List.all_eq_true.mpr key.letters⟩⟩

theorem isKey_of_fieldNames : ∀ name ∈ fieldNames, Lexer.Key name.toList := by
  decide

theorem clean_of_fieldNames : ∀ name ∈ fieldNames, Clean name.toList := by
  decide

theorem tag_of_fieldNames : ∀ name ∈ fieldNames, Tag.ofScalar true name.toList = .string := by
  decide +kernel

/-- Fields with known names, all of them different. -/
structure Listed {α : Type} (fields : List (String × α)) : Prop where
  known : ∀ field ∈ fields, field.1 ∈ fieldNames
  distinct : (fields.map (·.1)).Nodup

theorem Listed.isKey {α : Type} {fields : List (String × α)} (listed : Listed fields) :
    ∀ field ∈ fields, Lexer.Key field.1.toList := by
  intro field member
  exact isKey_of_fieldNames field.1 (listed.known field member)

theorem listed_of_names {α : Type} {fields : List (String × α)} (names : List String)
    (same : fields.map (·.1) = names)
    (known : names.Nodup ∧ names.all fieldNames.contains = true) : Listed fields := by
  subst same
  refine ⟨fun field member => ?_, known.1⟩
  simpa using List.all_eq_true.mp known.2 field.1 (List.mem_map_of_mem member)

theorem listed_symbolFields (symbols : Symbols) : Listed (symbolFields symbols) :=
  listed_of_names ["sigil", "open", "close"] rfl (by decide)

theorem listed_ruleFields (rule : Rule) : Listed (ruleFields rule) := by
  unfold ruleFields
  split
  · exact listed_of_names ["pattern", "replacement"] rfl (by decide)
  · exact listed_of_names ["name", "pattern", "replacement"] rfl (by decide)

section Texts

variable {holds : Bytes → Prop}

theorem forall_symbolFields {symbols : Symbols} (sigil : holds symbols.sigil)
    (opener : holds symbols.opener) (closer : holds symbols.closer) :
    ∀ field ∈ symbolFields symbols, holds field.2 := by
  simp only [symbolFields, List.forall_mem_cons]
  exact ⟨sigil, opener, closer, by simp⟩

theorem forall_ruleFields {rule : Rule} (name : holds rule.name) (pattern : holds rule.pattern)
    (replacement : holds rule.replacement) : ∀ field ∈ ruleFields rule, holds field.2 := by
  intro field member
  rcases List.mem_append.mp member with named | others
  · split at named
    · cases named
    · obtain rfl := List.mem_singleton.mp named
      exact name
  · simp only [List.mem_cons, List.not_mem_nil, or_false] at others
    rcases others with rfl | rfl
    · exact pattern
    · exact replacement

theorem valid_symbolFields {symbols : Symbols} (texts : symbols.ValidTexts) :
    ∀ field ∈ symbolFields symbols, Utf8.Valid field.2 :=
  forall_symbolFields texts.sigil texts.opener texts.closer

theorem valid_ruleFields {rule : Rule} (texts : rule.ValidTexts) :
    ∀ field ∈ ruleFields rule, Utf8.Valid field.2 :=
  forall_ruleFields texts.name texts.pattern texts.replacement

end Texts

theorem writeSymbols_eq (symbols : Symbols) :
    writeSymbols symbols =
      "symbols".toList ++ ':' :: '\n' :: (List.replicate 4 ' ' ++
        fieldLines 8 4 (symbolFields symbols)) := by
  have opening : "symbols:\n    ".toList =
      "symbols".toList ++ ':' :: '\n' :: List.replicate 4 ' ' := by
    decide
  have spaces : "    ".toList = List.replicate 4 ' ' := by
    decide
  unfold writeSymbols
  rw [opening, spaces]
  generalize "symbols".toList = word
  simp [symbolFields, fieldLines]

theorem topLines_symbols {symbols : Symbols}
    (readable : ∀ field ∈ symbolFields symbols, Readable 8 4 field.2) :
    TopLines (writeSymbols symbols)
      ([.key, .scalar true "symbols".toList, .value] ++ fieldTokens (symbolFields symbols)) := by
  rw [writeSymbols_eq]
  have key : Lexer.Key "symbols".toList := isKey_of_fieldNames _ (by decide)
  apply TopLines.of_key key
  intro next frame read begins top
  have filled : symbolFields symbols ≠ [] := List.cons_ne_nil _ _
  have starts := begins_fieldLines filled (listed_symbolFields symbols).isKey readable
    (List.replicate 0 ' ' ++ next)
  have opening : Reads _ 0 frame _ 4 _ := key.reads_opening starts top.inside
  rw [Int.ofNat_zero, top.entered] at opening
  have fields : Reads _ 4 (Frame.emit ⟨0, [-1], read⟩
      [.key, .scalar true "symbols".toList, .value]) next 0 _ :=
    reads_fields filled (listed_symbolFields symbols).isKey readable (by decide) (by decide)
      begins (show (0 : Int) ≤ 4 by decide)
  generalize "symbols".toList = word at opening fields ⊢
  refine ⟨_, ?_, by simpa using opening.trans fields⟩
  simp [Frame.leave, Frame.leaveAll, Frame.enter, Frame.emit, fieldTokens]

/-- The items of rules, but for the indentation of the first. -/
def itemLines : List Rule → List Char
  | [] => []
  | rule :: rules =>
      '-' :: ' ' :: (fieldLines 8 6 (ruleFields rule) ++ rules.flatMap writeRule)

theorem writeRule_eq (rule : Rule) :
    writeRule rule =
      List.replicate 4 ' ' ++ '-' :: ' ' :: fieldLines 8 6 (ruleFields rule) := by
  have dash : "    - ".toList = List.replicate 4 ' ' ++ ['-', ' '] := by
    decide
  have spaces : "      ".toList = List.replicate 6 ' ' := by
    decide
  unfold writeRule ruleFields
  rw [dash, spaces]
  split <;> simp [fieldLines]

theorem flatMap_writeRule {rules : List Rule} (filled : rules ≠ []) :
    rules.flatMap writeRule = List.replicate 4 ' ' ++ itemLines rules := by
  obtain ⟨rule, rules, rfl⟩ := List.exists_cons_of_ne_nil filled
  rw [List.flatMap_cons, writeRule_eq, itemLines]
  simp

/-- The tokens and the node of a rule. -/
def ruleItem (rule : Rule) : List Yaml.Token × Node :=
  (fieldTokens (ruleFields rule), .mapping false (entryNodes (fieldEntries (ruleFields rule))))

theorem ruleFields_ne_nil (rule : Rule) : ruleFields rule ≠ [] := by
  simp [ruleFields]

theorem begins_itemLines {rules : List Rule} (filled : rules ≠ []) (text : List Char) :
    Lexer.Begins (itemLines rules ++ text) := by
  obtain ⟨rule, rules, rfl⟩ := List.exists_cons_of_ne_nil filled
  exact Lexer.begins_cons rfl (by decide) _

/-- One rule: a dash, and entries behind it. -/
theorem reads_rule {rule : Rule} {count : Nat} {next : List Char} {frame : Frame}
    {read : List Yaml.Token} (readable : ∀ field ∈ ruleFields rule, Readable 8 6 field.2)
    (outside : count ≤ 6) (begins : Lexer.Begins next)
    (entered : (frame.leave 4).enter 4 .sequenceStart = ⟨4, [0, -1], read⟩) :
    Reads ('-' :: ' ' :: (fieldLines 8 6 (ruleFields rule) ++ (List.replicate count ' ' ++ next))) 4
      frame next count ⟨6, [4, 0, -1], read ++ (.item :: .mappingStart ::
        entryTokens (fieldEntries (ruleFields rule)))⟩ := by
  have starts := begins_fieldLines (ruleFields_ne_nil rule) (listed_ruleFields rule).isKey readable
    (List.replicate count ' ' ++ next)
  have dash : Reads _ 4 frame _ 6 (((frame.leave 4).enter 4 .sequenceStart).emit [.item]) :=
    reads_item starts
  rw [entered] at dash
  have fields : Reads _ 6 (Frame.emit ⟨4, [0, -1], read⟩ [.item]) next count _ :=
    reads_fields (ruleFields_ne_nil rule) (listed_ruleFields rule).isKey readable (by decide)
      outside begins (show (4 : Int) ≤ 6 by decide)
  have whole := dash.trans fields
  simpa [Frame.leave, Frame.leaveAll, Frame.enter, Frame.emit] using whole

theorem reads_rules {rules : List Rule} (filled : rules ≠ []) {next : List Char} {frame : Frame}
    {read : List Yaml.Token}
    (readable : ∀ rule ∈ rules, ∀ field ∈ ruleFields rule, Readable 8 6 field.2)
    (begins : Lexer.Begins next)
    (entered : (frame.leave 4).enter 4 .sequenceStart = ⟨4, [0, -1], read⟩) :
    ∃ after : Frame,
      after.leave 0 = ⟨0, [-1], read ++ (itemTokens (rules.map ruleItem) ++ [.blockEnd])⟩ ∧
        Reads (itemLines rules ++ next) 4 frame next 0 after := by
  induction rules generalizing frame read with
  | nil => exact absurd rfl filled
  | cons rule rules ih =>
      obtain ⟨here, later⟩ := List.forall_mem_cons.mp readable
      by_cases last : rules = []
      · subst last
        have line : Reads _ 4 frame next 0 _ := reads_rule here (by decide) begins entered
        refine ⟨_, ?_, by simpa [itemLines] using line⟩
        simp [Frame.leave, Frame.leaveAll, itemTokens, ruleItem, fieldTokens]
      · have line : Reads _ 4 frame (itemLines rules ++ next) 4 _ :=
          reads_rule here (by decide) (begins_itemLines last next) entered
        -- The next dash closes the mapping of this rule, but not the sequence.
        have between : (Frame.leave ⟨6, [4, 0, -1], read ++ (.item :: .mappingStart ::
            entryTokens (fieldEntries (ruleFields rule)))⟩ 4).enter 4 .sequenceStart =
              ⟨4, [0, -1], read ++ (.item :: fieldTokens (ruleFields rule))⟩ := by
          simp [Frame.leave, Frame.leaveAll, Frame.enter, fieldTokens]
        obtain ⟨after, closed, reads⟩ := ih last later between
        refine ⟨after, ?_, ?_⟩
        · rw [closed]
          simp [itemTokens, ruleItem]
        · rw [itemLines, flatMap_writeRule last]
          simpa using line.trans reads

/-- The lines of the rules. -/
def rulesLines (rules : List Rule) : List Char :=
  if rules.isEmpty then "rules: []\n".toList else "rules:\n".toList ++ rules.flatMap writeRule

/-- The tokens of the rules. -/
def rulesTokens (rules : List Rule) : List Yaml.Token :=
  if rules.isEmpty then [.flowSequenceStart, .flowSequenceEnd]
  else .sequenceStart :: (itemTokens (rules.map ruleItem) ++ [.blockEnd])

theorem topLines_rules {rules : List Rule}
    (readable : ∀ rule ∈ rules, ∀ field ∈ ruleFields rule, Readable 8 6 field.2) :
    TopLines (rulesLines rules)
      ([.key, .scalar true "rules".toList, .value] ++ rulesTokens rules) := by
  have key : Lexer.Key "rules".toList := isKey_of_fieldNames _ (by decide)
  unfold rulesLines rulesTokens
  split
  · have written : "rules: []\n".toList =
        "rules".toList ++ [':', ' ', '[', ']', '\n'] := by
      decide
    rw [written]
    generalize "rules".toList = word at key ⊢
    apply TopLines.of_key key
    intro next frame read begins top
    have line : Reads _ 0 frame next 0 _ := key.reads_empty begins top.inside
    rw [Int.ofNat_zero, top.entered] at line
    exact ⟨_, rfl, by simpa using line⟩
  · next filled =>
      have written : "rules:\n".toList = "rules".toList ++ [':', '\n'] := by
        decide
      have given : rules ≠ [] := by simpa using filled
      rw [written, flatMap_writeRule given, List.append_assoc]
      generalize "rules".toList = word at key ⊢
      apply TopLines.of_key key
      intro next frame read begins top
      have opening : Reads _ 0 frame _ 4 _ :=
        key.reads_opening (begins_itemLines given next) top.inside
      rw [Int.ofNat_zero, top.entered] at opening
      have entered :
          ((Frame.emit ⟨0, [-1], read⟩ [.key, .scalar true word, .value]).leave 4).enter 4
            .sequenceStart =
          ⟨4, [0, -1], read ++ [.key, .scalar true word, .value] ++ [.sequenceStart]⟩ := by
        simp [Frame.leave, Frame.leaveAll, Frame.enter, Frame.emit]
      obtain ⟨after, closed, items⟩ := reads_rules given readable begins entered
      refine ⟨after, ?_, by simpa using opening.trans items⟩
      rw [closed]
      simp

/-! ## Reading fields -/

/-- The entries of a mapping with plain keys. -/
def namedNodes (fields : List (String × Node)) : List (Node × Node) :=
  fields.map fun field => (.scalar (Tag.ofScalar true field.1.toList) field.1.toList, field.2)

section Named

variable {document : Document} {fields : List (String × Node)}

theorem bytes_injective {first second : String} (same : bytes first = bytes second) :
    first = second := by
  rw [Utf8.bytes_eq_encode, Utf8.bytes_eq_encode] at same
  have decoded := congrArg Utf8.decode? same
  rw [Utf8.decode?_encode, Utf8.decode?_encode] at decoded
  exact String.toList_inj.mp (Option.some.inj decoded)

theorem distinctKeys_namedNodes (distinct : (fields.map (·.1)).Nodup) :
    distinctKeys (namedNodes fields) = true := by
  induction fields with
  | nil => rfl
  | cons field fields ih =>
      obtain ⟨fresh, later⟩ := List.nodup_cons.mp distinct
      have apart : (namedNodes fields).any (fun other =>
          sameKey (.scalar (Tag.ofScalar true field.1.toList) field.1.toList) other.1) = false := by
        rw [List.any_eq_false]
        intro entry member
        obtain ⟨other, listed, rfl⟩ := List.mem_map.mp member
        simp only [sameKey, beq_iff_eq]
        intro same
        exact fresh (List.mem_map.mpr ⟨other, listed, (String.toList_inj.mp same).symm⟩)
      have step : distinctKeys (namedNodes (field :: fields)) =
          (!(namedNodes fields).any (fun other =>
            sameKey (.scalar (Tag.ofScalar true field.1.toList) field.1.toList) other.1) &&
              distinctKeys (namedNodes fields)) := rfl
      rw [step, apart, ih later]
      rfl

theorem named?_namedNodes (known : ∀ field ∈ fields, field.1 ∈ fieldNames) :
    named? document (namedNodes fields) =
      some (fields.map fun field => (bytes field.1, field.2)) := by
  induction fields with
  | nil => rfl
  | cons field fields ih =>
      obtain ⟨here, later⟩ := List.forall_mem_cons.mp known
      have step : namedNodes (field :: fields) =
          (.scalar .string field.1.toList, field.2) :: namedNodes fields := by
        rw [← tag_of_fieldNames _ here]
        rfl
      rw [step, named?, ih later, List.map_cons, Utf8.bytes_eq_encode]
      rfl

theorem find?_isMerge_namedNodes (known : ∀ field ∈ fields, field.1 ∈ fieldNames) :
    (namedNodes fields).find? (fun (key, _) => isMerge key) = none := by
  rw [List.find?_eq_none]
  intro entry member
  obtain ⟨field, listed, rfl⟩ := List.mem_map.mp member
  simp [tag_of_fieldNames _ (known field listed), isMerge]

theorem length_filter_name (distinct : (fields.map (·.1)).Nodup) (name : String) :
    ((fields.map fun field => (bytes field.1, field.2)).filter (·.1 == bytes name)).length ≤ 1 := by
  induction fields with
  | nil => exact Nat.zero_le 1
  | cons field fields ih =>
      obtain ⟨fresh, later⟩ := List.nodup_cons.mp distinct
      by_cases same : field.1 = name
      · have others : (fields.map fun field => (bytes field.1, field.2)).filter
            (·.1 == bytes name) = [] := by
          rw [List.filter_eq_nil_iff]
          intro entry member
          obtain ⟨other, listed, rfl⟩ := List.mem_map.mp member
          rw [beq_iff_eq]
          intro equal
          exact fresh (List.mem_map.mpr ⟨other, listed, (bytes_injective equal).trans same.symm⟩)
        rw [List.map_cons, List.filter_cons_of_pos (by simpa using congrArg bytes same), others]
        exact Nat.le_refl 1
      · rw [List.map_cons, List.filter_cons_of_neg]
        · exact ih later
        · rw [beq_iff_eq]
          exact fun equal => same (bytes_injective equal)

theorem entries?_namedNodes (listed : Listed fields) (names : List String) :
    entries? document names (namedNodes fields) =
      some (fields.map fun field => (bytes field.1, field.2)) := by
  have single : (guard (names.all fun name => ((fields.map fun field =>
      (bytes field.1, field.2)).filter (·.1 == bytes name)).length ≤ 1) : Option Unit) =
        some () := by
    apply if_pos
    rw [List.all_eq_true]
    intro name _
    rw [decide_eq_true_eq]
    exact length_filter_name listed.distinct name
  rw [entries?, distinctKeys_namedNodes listed.distinct, named?_namedNodes listed.known,
    find?_isMerge_namedNodes listed.known]
  exact congrArg (fun checked : Option Unit => checked.bind fun _ => some _) single

theorem field?_namedNodes (name : String) :
    field? name (fields.map fun field => (bytes field.1, field.2)) = fields.lookup name := by
  induction fields with
  | nil => rfl
  | cons field fields ih =>
      have same : (bytes name == bytes field.1) = (name == field.1) := by
        rw [Bool.eq_iff_iff, beq_iff_eq, beq_iff_eq]
        exact ⟨bytes_injective, congrArg bytes⟩
      rw [field?] at ih ⊢
      rw [List.map_cons, List.lookup_cons, List.lookup_cons, same, ih]

end Named

theorem text?_textNode {document : Document} {text : Bytes} (valid : Utf8.Valid text) :
    text? document (textNode text) = some text := by
  have tag : Tag.ofScalar (Style.ofText (Utf8.chars text) == .plain) (Utf8.chars text) = .string ∨
      Tag.ofScalar (Style.ofText (Utf8.chars text) == .plain) (Utf8.chars text) = .merge := by
    rcases Style.ofText_cases (Utf8.chars text) with ⟨style, reads, -⟩ | ⟨style, -⟩ | style |
      ⟨style, -⟩
    · simp only [Style.readsAsString, Bool.and_eq_true, beq_iff_eq] at reads
      rw [style, beq_self_eq_true, Tag.ofScalar, reads.1.1]
      simp only [Bool.not_true, Bool.false_eq_true, if_false]
      split
      · exact .inr rfl
      · exact .inl rfl
    all_goals
      rw [style]
      exact .inl rfl
  have encoded := valid.encode_chars
  rw [textNode]
  rcases tag with tag | tag
  · rw [tag]
    exact congrArg some encoded
  · rw [tag]
    exact congrArg some encoded

/-- The nodes of texts. -/
def textNodes (fields : List (String × Bytes)) : List (String × Node) :=
  fields.map fun field => (field.1, textNode field.2)

theorem entryNodes_fieldEntries (fields : List (String × Bytes)) :
    entryNodes (fieldEntries fields) = namedNodes (textNodes fields) := by
  simp [entryNodes, fieldEntries, namedNodes, textNodes, textNode, Function.comp_def]

theorem textField?_eq {document : Document} {fields : List (String × Bytes)}
    (valid : ∀ field ∈ fields, Utf8.Valid field.2) (name : String) :
    textField? document name ((textNodes fields).map fun field => (bytes field.1, field.2)) =
      some ((fields.lookup name).getD []) := by
  have found : (textNodes fields).lookup name = (fields.lookup name).map textNode := by
    induction fields with
    | nil => rfl
    | cons field fields ih =>
        rw [textNodes, List.map_cons, List.lookup_cons, List.lookup_cons]
        split
        · rfl
        · exact ih (List.forall_mem_cons.mp valid).2
  rw [textField?, field?_namedNodes, found]
  cases given : fields.lookup name with
  | none => rfl
  | some text =>
      obtain ⟨front, behind, rfl, -⟩ := List.lookup_eq_some_iff.mp given
      exact text?_textNode (valid (name, text) (by simp))

theorem listed_textNodes {fields : List (String × Bytes)} (listed : Listed fields) :
    Listed (textNodes fields) := by
  have names : (textNodes fields).map (·.1) = fields.map (·.1) := by
    simp [textNodes, Function.comp_def]
  refine ⟨fun field member => ?_, names ▸ listed.distinct⟩
  obtain ⟨source, given, rfl⟩ := List.mem_map.mp member
  exact listed.known source given

theorem symbols?_eq {document : Document} {symbols : Symbols} (texts : symbols.ValidTexts) :
    symbols? document (.mapping false (entryNodes (fieldEntries (symbolFields symbols)))) =
      some (some symbols) := by
  have listed := listed_textNodes (listed_symbolFields symbols)
  rw [symbols?, entryNodes_fieldEntries]
  simp only [Document.resolve?, Option.bind_eq_bind, Option.bind_some,
    entries?_namedNodes listed, textField?_eq (valid_symbolFields texts)]
  rfl

theorem rule?_eq {document : Document} {rule : Rule} (texts : rule.ValidTexts) :
    rule? document (ruleItem rule).2 = some (some rule) := by
  have listed := listed_textNodes (listed_ruleFields rule)
  have name : ((ruleFields rule).lookup "name").getD [] = rule.name := by
    unfold ruleFields
    split
    · next empty => exact (List.isEmpty_iff.mp empty).symm
    · rfl
  have pattern : ((ruleFields rule).lookup "pattern").getD [] = rule.pattern := by
    unfold ruleFields
    split <;> rfl
  have replacement : ((ruleFields rule).lookup "replacement").getD [] = rule.replacement := by
    unfold ruleFields
    split <;> rfl
  rw [rule?, ruleItem, entryNodes_fieldEntries]
  simp only [Document.resolve?, Option.bind_eq_bind, Option.bind_some,
    entries?_namedNodes listed, textField?_eq (valid_ruleFields texts), name, pattern, replacement]
  rfl

theorem rules?_eq {document : Document} {rules : List Rule}
    (texts : ∀ rule ∈ rules, rule.ValidTexts) :
    rules? document (.sequence ((rules.map ruleItem).map (·.2))) = some rules := by
  have each : ((rules.map ruleItem).map (·.2)).mapM (rule? document) =
      some (rules.map some) := by
    induction rules with
    | nil => rfl
    | cons rule rules ih =>
        obtain ⟨first, later⟩ := List.forall_mem_cons.mp texts
        rw [List.map_cons, List.map_cons, List.mapM_cons, rule?_eq first, ih later]
        rfl
  rw [rules?]
  simp only [Document.resolve?, Option.bind_eq_bind, Option.bind_some, each]
  simp

/-! ## Rule files -/

/-- The entries of a rule file. -/
def fileEntries (file : RuleFile) : List (String × List Yaml.Token × Node) :=
  (if file.name.isEmpty then [] else [("name", [textToken file.name], textNode file.name)]) ++
    (file.symbols.toList.map fun symbols =>
      ("symbols", fieldTokens (symbolFields symbols),
        .mapping false (entryNodes (fieldEntries (symbolFields symbols))))) ++
    (if file.strictBlocks then
      [("strict_blocks", [.scalar true "true".toList], .scalar .boolean "true".toList)] else []) ++
    [("rules", rulesTokens file.rules, .sequence ((file.rules.map ruleItem).map (·.2)))]

/-- The characters a rule file is written in. -/
def fileLines (file : RuleFile) : List Char :=
  (if file.name.isEmpty then [] else entry 4 "name" file.name) ++
    (match file.symbols with
      | none => []
      | some symbols => writeSymbols symbols) ++
    (if file.strictBlocks then "strict_blocks: true\n".toList else []) ++ rulesLines file.rules

theorem write_eq (file : RuleFile) : write file = Utf8.encode (fileLines file) :=
  rfl

/-- Every text of a rule file is read back from where it is written. -/
structure ReadableTexts (file : RuleFile) : Prop where
  name : Readable 4 0 file.name
  symbols : ∀ symbols ∈ file.symbols, ∀ field ∈ symbolFields symbols, Readable 8 4 field.2
  rules : ∀ rule ∈ file.rules, ∀ field ∈ ruleFields rule, Readable 8 6 field.2

/-- Entries under the characters of their names. -/
def spelled (entries : List (String × List Yaml.Token × Node)) :
    List (List Char × List Yaml.Token × Node) :=
  entries.map fun entry => (entry.1.toList, entry.2)

section File

variable {file : RuleFile}

theorem topLines_name (readable : ReadableTexts file) :
    TopLines (entry 4 "name" file.name)
      [.key, .scalar true "name".toList, .value, textToken file.name] := by
  rw [entry_eq readable.name.valid]
  exact topLines_entry (isKey_of_fieldNames "name" (by decide))
    (scalarLine_styled (by decide) readable.name.recoverable) nofun

theorem topLines_strict :
    TopLines "strict_blocks: true\n".toList
      [.key, .scalar true "strict_blocks".toList, .value, .scalar true "true".toList] := by
  have written : "strict_blocks: true\n".toList =
      "strict_blocks".toList ++ ':' :: ' ' :: ("true".toList ++ ['\n']) := by
    decide
  rw [written]
  exact topLines_entry (isKey_of_fieldNames "strict_blocks" (by decide))
    (Lexer.scalarLine_plain (by decide) (by decide)) (by simp)

theorem topLines_file (readable : ReadableTexts file) :
    TopLines (fileLines file) (entryTokens (spelled (fileEntries file))) := by
  have rules : TopLines (rulesLines file.rules) (entryTokens (spelled
      [("rules", rulesTokens file.rules, .sequence ((file.rules.map ruleItem).map (·.2)))])) := by
    simpa [entryTokens, spelled] using topLines_rules readable.rules
  unfold fileLines fileEntries
  simp only [spelled, entryTokens, List.map_append, List.flatMap_append, List.append_assoc]
  refine ((TopLines.behind rules ?_).behind ?_).behind ?_
  · split
    · exact .inr topLines_strict
    · exact .inl ⟨rfl, rfl⟩
  · cases given : file.symbols with
    | none => exact .inl ⟨rfl, rfl⟩
    | some symbols =>
        right
        simpa using topLines_symbols (readable.symbols symbols given)
  · split
    · exact .inl ⟨rfl, rfl⟩
    · right
      simpa using topLines_name readable

theorem readAs_text (text : Bytes) : ReadAs [textToken text] (textNode text) :=
  readAs_scalar _ _

theorem readAs_fields (fields : List (String × Bytes)) :
    ReadAs (fieldTokens fields) (.mapping false (entryNodes (fieldEntries fields))) := by
  apply readAs_mapping
  intro entry member
  obtain ⟨field, -, rfl⟩ := List.mem_map.mp member
  exact readAs_text field.2

theorem readAs_rules (rules : List Rule) :
    ReadAs (rulesTokens rules) (.sequence ((rules.map ruleItem).map (·.2))) := by
  unfold rulesTokens
  split
  · next empty =>
      rw [List.isEmpty_iff.mp empty]
      exact readAs_empty
  · apply readAs_sequence
    intro item member
    obtain ⟨rule, -, rfl⟩ := List.mem_map.mp member
    exact readAs_fields (ruleFields rule)

theorem readAs_fileEntries {entry : String × List Yaml.Token × Node}
    (member : entry ∈ fileEntries file) : ReadAs entry.2.1 entry.2.2 := by
  have strict : Tag.ofScalar true "true".toList = .boolean := by
    decide +kernel
  simp only [fileEntries, List.mem_append, List.mem_singleton] at member
  rcases member with ((named | given) | strictly) | rfl
  · split at named
    · cases named
    · obtain rfl := List.mem_singleton.mp named
      exact readAs_text file.name
  · obtain ⟨symbols, -, rfl⟩ := List.mem_map.mp given
    exact readAs_fields (symbolFields symbols)
  · split at strictly
    · obtain rfl := List.mem_singleton.mp strictly
      rw [← strict]
      exact readAs_scalar true "true".toList
    · cases strictly
  · exact readAs_rules file.rules

theorem document?_fileEntries (file : RuleFile) :
    document? (.mappingStart :: (entryTokens (spelled (fileEntries file)) ++ [.blockEnd]) ++
        [.streamEnd]) =
      some (some { root := .mapping false (entryNodes (spelled (fileEntries file)))
                   anchored := [] }) := by
  apply document?_eq
  apply readAs_mapping
  intro entry member
  obtain ⟨source, listed, rfl⟩ := List.mem_map.mp member
  exact readAs_fileEntries listed

/-- The nodes of a rule file. -/
def fileNodes (file : RuleFile) : List (String × Node) :=
  (fileEntries file).map fun entry => (entry.1, entry.2.2)

theorem entryNodes_fileEntries (file : RuleFile) :
    entryNodes (spelled (fileEntries file)) = namedNodes (fileNodes file) := by
  simp [entryNodes, spelled, namedNodes, fileNodes, Function.comp_def]

theorem listed_fileNodes (file : RuleFile) : Listed (fileNodes file) := by
  obtain ⟨name, symbols, strictBlocks, rules⟩ := file
  cases name <;> cases symbols <;> cases strictBlocks
  · exact listed_of_names ["rules"] rfl (by decide)
  · exact listed_of_names ["strict_blocks", "rules"] rfl (by decide)
  · exact listed_of_names ["symbols", "rules"] rfl (by decide)
  · exact listed_of_names ["symbols", "strict_blocks", "rules"] rfl (by decide)
  · exact listed_of_names ["name", "rules"] rfl (by decide)
  · exact listed_of_names ["name", "strict_blocks", "rules"] rfl (by decide)
  · exact listed_of_names ["name", "symbols", "rules"] rfl (by decide)
  · exact listed_of_names ["name", "symbols", "strict_blocks", "rules"] rfl (by decide)

theorem lookup_name (file : RuleFile) :
    (fileNodes file).lookup "name" =
      if file.name.isEmpty then none else some (textNode file.name) := by
  obtain ⟨name, symbols, strictBlocks, rules⟩ := file
  cases name <;> cases symbols <;> cases strictBlocks <;> rfl

theorem lookup_symbols (file : RuleFile) :
    (fileNodes file).lookup "symbols" = file.symbols.map fun symbols =>
      .mapping false (entryNodes (fieldEntries (symbolFields symbols))) := by
  obtain ⟨name, symbols, strictBlocks, rules⟩ := file
  cases name <;> cases symbols <;> cases strictBlocks <;> rfl

theorem lookup_strictBlocks (file : RuleFile) :
    (fileNodes file).lookup "strict_blocks" =
      if file.strictBlocks then some (.scalar .boolean "true".toList) else none := by
  obtain ⟨name, symbols, strictBlocks, rules⟩ := file
  cases name <;> cases symbols <;> cases strictBlocks <;> rfl

theorem lookup_rules (file : RuleFile) :
    (fileNodes file).lookup "rules" =
      some (.sequence ((file.rules.map ruleItem).map (·.2))) := by
  obtain ⟨name, symbols, strictBlocks, rules⟩ := file
  cases name <;> cases symbols <;> cases strictBlocks <;> rfl

theorem boolean?_true (document : Document) :
    boolean? document (.scalar .boolean "true".toList) = some true := by
  have admitted : scalarText? .boolean "true".toList = some (some (bytes "true")) := by
    decide +kernel
  have yes : ["true", "True", "TRUE"].contains (String.ofList "true".toList) = true := by
    decide +kernel
  rw [boolean?]
  simp only [Document.resolve?, Option.bind_eq_bind, Option.bind_some, admitted, yes]
  rfl

theorem textField?_name (texts : file.ValidTexts) (document : Document) :
    textField? document "name" ((fileNodes file).map fun field => (bytes field.1, field.2)) =
      some file.name := by
  rw [textField?, field?_namedNodes, lookup_name]
  cases empty : file.name.isEmpty with
  | true => exact congrArg some (List.isEmpty_iff.mp empty).symm
  | false => exact text?_textNode texts.name

theorem file?_eq (texts : file.ValidTexts) :
    file? { root := .mapping false (entryNodes (spelled (fileEntries file))), anchored := [] } =
      some file := by
  rw [file?, entryNodes_fileEntries]
  simp only [entries?_namedNodes (listed_fileNodes file), textField?_name texts,
    field?_namedNodes, lookup_symbols, lookup_strictBlocks, lookup_rules, rules?_eq texts.rules,
    Option.bind_eq_bind, Option.bind_some]
  obtain ⟨name, symbols, strictBlocks, rules⟩ := file
  cases symbols with
  | none =>
      cases strictBlocks with
      | false => rfl
      | true =>
          simp only [Option.map_none, if_true, boolean?_true, Option.bind_some]
          rfl
  | some symbols =>
      simp only [Option.map_some, symbols?_eq (texts.symbols symbols rfl), Option.bind_some]
      cases strictBlocks with
      | false => rfl
      | true =>
          simp only [if_true, boolean?_true, Option.bind_some]
          rfl

theorem clean_entry {text : Bytes} (valid : Utf8.Valid text) (indent : Nat) {key : String}
    (clean : Clean key.toList) : Clean (entry indent key text) := by
  rw [entry_eq valid]
  exact clean.append (((clean_styled indent (Utf8.chars text)).cons rfl).cons rfl)

theorem clean_fieldLines (indent column : Nat) {fields : List (String × Bytes)}
    (known : ∀ field ∈ fields, field.1 ∈ fieldNames)
    (valid : ∀ field ∈ fields, Utf8.Valid field.2) : Clean (fieldLines indent column fields) := by
  have each : ∀ field ∈ fields, Clean (entry indent field.1 field.2) := by
    intro field member
    exact clean_entry (valid field member) indent (clean_of_fieldNames field.1 (known field member))
  cases fields with
  | nil => exact nofun
  | cons field fields =>
      obtain ⟨first, later⟩ := List.forall_mem_cons.mp each
      apply first.append
      intro char member
      obtain ⟨other, listed, inside⟩ := List.mem_flatMap.mp member
      exact (clean_replicate column).append (later other listed) char inside

theorem clean_fileLines (texts : file.ValidTexts) : Clean (fileLines file) := by
  have name : Clean (if file.name.isEmpty then [] else entry 4 "name" file.name) := by
    split
    · exact nofun
    · exact clean_entry texts.name 4 (by decide)
  have symbols : Clean (match file.symbols with
      | none => []
      | some symbols => writeSymbols symbols) := by
    cases given : file.symbols with
    | none => exact nofun
    | some symbols =>
        have fields := clean_fieldLines 8 4 (listed_symbolFields symbols).known
          (valid_symbolFields (texts.symbols symbols given))
        have key : Clean "symbols".toList := by decide
        simp only [writeSymbols_eq]
        exact key.append ((((clean_replicate 4).append fields).cons rfl).cons rfl)
  have strict : Clean (if file.strictBlocks then "strict_blocks: true\n".toList else []) := by
    split
    · decide
    · exact nofun
  have rules : Clean (rulesLines file.rules) := by
    unfold rulesLines
    split
    · decide
    · have opening : Clean "rules:\n".toList := by decide
      apply opening.append
      intro char member
      obtain ⟨rule, listed, inside⟩ := List.mem_flatMap.mp member
      have fields := clean_fieldLines 8 6 (listed_ruleFields rule).known
        (valid_ruleFields (texts.rules rule listed))
      rw [writeRule_eq] at inside
      exact (clean_replicate 4).append ((fields.cons rfl).cons rfl) char inside
  exact ((name.append symbols).append strict).append rules

/-- A rule file begins with the name of a field. -/
theorem fileLines_cons (file : RuleFile) :
    ∃ letter lines, fileLines file = letter :: lines ∧ letter.toNat < 0x80 := by
  obtain ⟨name, symbols, strictBlocks, rules⟩ := file
  cases name with
  | cons => exact ⟨'n', _, rfl, by decide⟩
  | nil =>
      cases symbols with
      | some => exact ⟨'s', _, rfl, by decide⟩
      | none =>
          cases strictBlocks with
          | true => exact ⟨'s', _, rfl, by decide⟩
          | false =>
              cases rules with
              | nil => exact ⟨'r', _, rfl, by decide⟩
              | cons => exact ⟨'r', _, rfl, by decide⟩

theorem tokens_fileLines (readable : ReadableTexts file) :
    tokens (fileLines file) =
      .mappingStart :: (entryTokens (spelled (fileEntries file)) ++ [.blockEnd]) ++
        [.streamEnd] := by
  have lines := topLines_file readable
  have begins : Lexer.Begins (fileLines file) := by simpa using lines.begins []
  obtain ⟨after, closed, reads⟩ := lines.reads Lexer.begins_nil atTop_start
  rw [List.append_nil] at reads
  rw [reads.tokens_eq begins, closed]
  rfl

theorem read?_write (texts : file.ValidTexts) (readable : ReadableTexts file) :
    read? (write file) = some file := by
  have source : source? (write file) = some (fileLines file) := by
    -- A stream that begins in ASCII is not taken for one with a byte order mark.
    obtain ⟨letter, lines, starts, ascii⟩ := fileLines_cons file
    have clean := clean_fileLines texts
    rw [write_eq, starts] at *
    exact source?_encode ascii clean
  rw [read?, source]
  simp only [Option.bind_eq_bind, Option.bind_some, tokens_fileLines readable,
    document?_fileEntries, file?_eq texts]

end File

end RuleFile.Yaml

/-- The texts of a rule file are read back from their styles: those outside of the rules are
indented by the step that the header of a literal names, those of the rules by less. -/
structure RuleFile.RecoverableTexts (file : RuleFile) : Prop where
  name : Yaml.Style.Recoverable true (Utf8.chars file.name)
  symbols : ∀ symbols ∈ file.symbols, ∀ text ∈ [symbols.sigil, symbols.opener, symbols.closer],
    Yaml.Style.Recoverable true (Utf8.chars text)
  rules : ∀ rule ∈ file.rules, ∀ text ∈ [rule.name, rule.pattern, rule.replacement],
    Yaml.Style.Recoverable false (Utf8.chars text)

namespace RuleFile

theorem readableTexts {file : RuleFile} (texts : file.ValidTexts)
    (recoverable : file.RecoverableTexts) : Yaml.ReadableTexts file := by
  refine ⟨⟨texts.name, recoverable.name⟩, ?_, ?_⟩
  · intro symbols given
    have valid := texts.symbols symbols given
    have kept := recoverable.symbols symbols given
    exact Yaml.forall_symbolFields ⟨valid.sigil, kept _ (by simp)⟩ ⟨valid.opener, kept _ (by simp)⟩
      ⟨valid.closer, kept _ (by simp)⟩
  · intro rule given
    have valid := texts.rules rule given
    have kept := recoverable.rules rule given
    exact Yaml.forall_ruleFields ⟨valid.name, kept _ (by simp)⟩ ⟨valid.pattern, kept _ (by simp)⟩
      ⟨valid.replacement, kept _ (by simp)⟩

/-- A rule file that passes its check and whose texts are well-formed is written in YAML as a
text that is read as the same rule file, if no text of it is a literal that begins with a line
break or a tab, or, in a rule, with a space. -/
theorem parse_encode_yaml {file : RuleFile} (sound : file.fault? = none)
    (texts : file.ValidTexts) (recoverable : file.RecoverableTexts) :
    parse .yaml (encode .yaml file) = .ok file := by
  have read := Yaml.read?_write texts (readableTexts texts recoverable)
  have checked : file.validated = .ok file := by
    rw [validated, sound]
  simp only [parse, encode, read, checked]

/-- Texts in every style: a literal that begins with a space in the name, spaces and line breaks
around texts, and texts that are marks, booleans or escapes. -/
theorem parse_encode_yaml_styles :
    ∃ file : RuleFile,
      file.name = bytes " two\n\nlines\n" ∧
        file.symbols = some ⟨bytes "§", bytes "<<", bytes " #\n\n"⟩ ∧ file.strictBlocks = true ∧
        file.rules = [⟨bytes "true", bytes "a\n\n  b\n\n", bytes " 'x' \n "⟩,
          ⟨[], bytes "😀: - ", bytes "\n\u2028\x01\\"⟩, ⟨bytes "- '", bytes "a: b", []⟩] ∧
        parse .yaml (encode .yaml file) = .ok file := by
  have valid (text : String) : Utf8.Valid (bytes text) := ⟨_, Utf8.bytes_eq_encode text⟩
  refine ⟨⟨_, _, _, _⟩, rfl, rfl, rfl, rfl,
    parse_encode_yaml (by decide) ⟨valid _, ?_, ?_⟩ ⟨by decide +kernel, ?_, ?_⟩⟩
  · rintro symbols ⟨⟩
    exact ⟨valid _, valid _, valid _⟩
  · simp only [List.forall_mem_cons]
    exact ⟨⟨valid _, valid _, valid _⟩, ⟨Utf8.valid_nil, valid _, valid _⟩,
      ⟨valid _, valid _, Utf8.valid_nil⟩, by simp⟩
  · rintro symbols ⟨⟩
    decide +kernel
  · decide +kernel

/-- A sound rule with a pattern of two lines that begins with a space cannot be read back, and
neither can one with a tab in its place.  A name that begins with a line break is read without
it. -/
theorem parse_encode_yaml_loses_first :
    ∃ spaced tabbed broken : RuleFile,
      spaced.rules = [⟨[], bytes " a\nb", bytes "c"⟩] ∧
        tabbed.rules = [⟨[], bytes "\ta\nb", bytes "c"⟩] ∧ broken.name = bytes "\na\nb" ∧
        (spaced.fault? = none ∧ tabbed.fault? = none ∧ broken.fault? = none) ∧
        (spaced.ValidTexts ∧ tabbed.ValidTexts ∧ broken.ValidTexts) ∧
        parse .yaml (encode .yaml spaced) = .error (.because .malformedYaml) ∧
        parse .yaml (encode .yaml tabbed) = .error (.because .malformedYaml) ∧
        parse .yaml (encode .yaml broken) = .ok { broken with name := bytes "a\nb" } := by
  have valid (text : String) : Utf8.Valid (bytes text) := ⟨_, Utf8.bytes_eq_encode text⟩
  have validRule (pattern : String) :
      ValidTexts { rules := [⟨[], bytes pattern, bytes "c"⟩] } :=
    ⟨Utf8.valid_nil, nofun, by simpa using ⟨Utf8.valid_nil, valid pattern, valid "c"⟩⟩
  have space : Yaml.read? (Yaml.write { rules := [⟨[], bytes " a\nb", bytes "c"⟩] }) = none := by
    decide +kernel
  have tab : Yaml.read? (Yaml.write { rules := [⟨[], bytes "\ta\nb", bytes "c"⟩] }) = none := by
    decide +kernel
  have lineBreak : Yaml.read? (Yaml.write { name := bytes "\na\nb" }) =
      some { name := bytes "a\nb" } := by
    decide +kernel
  refine ⟨{ rules := [⟨[], bytes " a\nb", bytes "c"⟩] },
    { rules := [⟨[], bytes "\ta\nb", bytes "c"⟩] }, { name := bytes "\na\nb" }, rfl, rfl, rfl,
    ⟨by decide, by decide, by decide⟩, ⟨validRule _, validRule _, valid _, nofun, nofun⟩, ?_, ?_,
    ?_⟩
  · simp only [parse, encode, space]
  · simp only [parse, encode, tab]
  · simp only [parse, encode, lineBreak]
    rfl

end RuleFile

end Stencil
