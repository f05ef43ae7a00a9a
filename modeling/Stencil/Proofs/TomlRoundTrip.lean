import Stencil.Proofs.TomlText
import Stencil.Proofs.Utf8Preservation
import Stencil.RuleFile.Codec

/-!
# Rule files in TOML read back

A rule file is written as lines, each with a statement that can be read
(`written_write`).  Entries with new keys go to the end of the table opened last,
wherever that lies in the document (`Focus`), so the statements build a root
table with the fields of the file (`tableOf?_statements`), and from it the file
is read field by field.
-/

namespace Stencil

/-- The texts of a rule are well-formed. -/
structure Rule.ValidTexts (rule : Rule) : Prop where
  name : Utf8.Valid rule.name
  pattern : Utf8.Valid rule.pattern
  replacement : Utf8.Valid rule.replacement

/-- The texts of a rule file are well-formed. -/
structure RuleFile.ValidTexts (file : RuleFile) : Prop where
  name : Utf8.Valid file.name
  symbols : ∀ symbols ∈ file.symbols, symbols.ValidTexts
  rules : ∀ rule ∈ file.rules, rule.ValidTexts

namespace Toml

namespace Entries

theorem put_append {entries : Entries} {key : List Char} (fresh : entries.lookup key = none)
    (value : Value) (others : Entries) :
    (entries ++ others).put key value = entries ++ others.put key value := by
  induction entries with
  | nil => rfl
  | cons entry entries ih =>
      obtain ⟨other, old⟩ := entry
      have absent := List.lookup_eq_none_iff.mp fresh
      obtain ⟨here, later⟩ := List.forall_mem_cons.mp absent
      have differ : key ≠ other := by simpa using here
      rw [List.cons_append, put, if_neg differ, ih (List.lookup_eq_none_iff.mpr later),
        List.cons_append]

theorem put_fresh {entries : Entries} {key : List Char} (fresh : entries.lookup key = none)
    (value : Value) : entries.put key value = entries ++ [(key, value)] := by
  simpa [put] using put_append fresh value []

end Entries

/-- `fill` puts a table in the place that a path names. -/
structure Focus (path : Key) (fill : Entries → Entries) : Prop where
  at?_eq : ∀ table, (fill table).at? path = some table
  change_eq : ∀ f table, (fill table).change path f = (f table).map fill

theorem focus_root : Focus [] id := by
  constructor
  · intro table
    rfl
  · intro f table
    simp [Entries.change]

theorem focus_table {entries : Entries} {name : List Char} (fresh : entries.lookup name = none) :
    Focus [name] fun table => entries ++ [(name, .table table)] := by
  constructor
  · intro table
    simp [Entries.at?, List.lookup_append, fresh]
  · intro f table
    simp [Entries.change, List.lookup_append, fresh, Entries.put_append fresh, Entries.put]

/-- Of several elements the last is the one a path names. -/
theorem focus_element {entries : Entries} {name : List Char} (fresh : entries.lookup name = none)
    (tables : List Entries) :
    Focus [name] fun table => entries ++ [(name, .elements (tables ++ [table]))] := by
  constructor
  · intro table
    simp [Entries.at?, List.lookup_append, fresh]
  · intro f table
    simp [Entries.change, List.lookup_append, fresh, Entries.put_append fresh, Entries.put]

/-- Entries with the elements of a name behind them, if there are any. -/
def withElements (entries : Entries) (name : List Char) (tables : List Entries) : Entries :=
  if tables.isEmpty then entries else entries ++ [(name, .elements tables)]

theorem withElements_append (entries : Entries) (name : List Char) (tables : List Entries)
    (table : Entries) :
    withElements entries name (tables ++ [table]) =
      entries ++ [(name, .elements (tables ++ [table]))] := by
  simp [withElements]

/-- A string or a boolean stands for a value wherever it is written. -/
inductive Expr.Stands : Expr → Value → Prop
  | text (content : List Char) : Stands (.text content) (.text content)
  | boolean (value : Bool) : Stands (.boolean value) (.boolean value)

namespace Statement

theorem run_entry {context : Key} {fill : Entries → Entries} (focus : Focus context fill)
    {table : Entries} {key : List Char} (fresh : table.lookup key = none) {expr : Expr}
    {value : Value} (stands : expr.Stands value) :
    (Statement.entry [key] expr).run context { root := fill table } =
      some (context, { root := fill (table ++ [(key, value)]) }) := by
  cases stands <;>
    simp [run, Build.openDotted, Expr.build, Build.assign, focus.at?_eq, focus.change_eq, fresh,
      Entries.put_fresh fresh, Build.recordKind]

theorem run_table {context : Key} {root : Entries} {name : List Char}
    (fresh : root.lookup name = none) :
    (Statement.table [name]).run context { root } =
      some ([name], { root := root ++ [(name, .table [])] }) := by
  simp [run, Build.openTable, Build.assign, Entries.missing, Entries.change, Entries.at?, fresh,
    Entries.put_fresh fresh, Build.recordKind]

theorem run_element {context : Key} {entries : Entries} {name : List Char}
    (fresh : entries.lookup name = none) (tables : List Entries) :
    (Statement.element [name]).run context { root := withElements entries name tables } =
      some ([name], { root := withElements entries name (tables ++ [[]]) }) := by
  rw [withElements_append]
  cases tables with
  | nil =>
      simp [withElements, run, Build.openTable, Entries.missing, Entries.change, fresh,
        Entries.put_fresh fresh, Build.recordKind]
  | cons table tables =>
      simp [withElements, run, Build.openTable, Entries.missing, Entries.change,
        List.lookup_append, fresh, Entries.put_append fresh, Entries.put, Build.recordKind]

end Statement

theorem runStatements_cons {context next : Key} {statement : Statement} {build built : Build}
    (ran : statement.run context build = some (next, built)) (later : List Statement) :
    runStatements context (statement :: later) build = runStatements next later built := by
  rw [runStatements, ran]
  rfl

end Toml

namespace RuleFile.Toml

open Stencil.Toml

/-- The digits by which a character is escaped. -/
def codeDigits (char : Char) : List Char :=
  (Hex.digits Hex.lowerDigit 4 char.toNat).map fun digit => Char.ofNat digit.toNat

theorem quotedByte_wide {b : UInt8} (wide : 0x80 ≤ b.toNat) : quotedByte b = [b] := by
  have table : ∀ n < 0x100, 0x80 ≤ n → quotedByte (UInt8.ofNat n) = [UInt8.ofNat n] := by
    decide +kernel
  have here := table b.toNat b.toNat_lt wide
  rwa [UInt8.ofNat_toNat] at here

/-- A character is written as itself, as a short escape or by its code. -/
theorem quotedByte_cases (char : Char) :
    (String.utf8EncodeChar char).flatMap quotedByte = Utf8.encode [char] ∧ Plain char ∨
    (∃ letter, (String.utf8EncodeChar char).flatMap quotedByte = Utf8.encode ['\\', letter] ∧
      escapeLetter? letter = some char) ∨
    (String.utf8EncodeChar char).flatMap quotedByte =
        Utf8.encode ('\\' :: 'u' :: codeDigits char) ∧ coded? (codeDigits char) = some char := by
  -- the table of the writer is checked against that of the reader; beyond ASCII
  -- no byte of a character is escaped
  by_cases ascii : char.toNat < 0x80
  · have table : ∀ n < 0x80,
        quotedByte (byte (Char.ofNat n)) = Utf8.encode [Char.ofNat n] ∧ Plain (Char.ofNat n) ∨
        (['b', 't', 'n', 'f', 'r', '"', '\\'].any fun letter =>
          quotedByte (byte (Char.ofNat n)) = Utf8.encode ['\\', letter] ∧
            escapeLetter? letter = some (Char.ofNat n)) ∨
        quotedByte (byte (Char.ofNat n)) =
            Utf8.encode ('\\' :: 'u' :: codeDigits (Char.ofNat n)) ∧
          coded? (codeDigits (Char.ofNat n)) = some (Char.ofNat n) := by
      decide +kernel
    have here := table char.toNat ascii
    rw [Char.ofNat_toNat] at here
    rw [Utf8.encode_of_ascii ascii, List.flatMap_singleton]
    rcases here with plain | short | code
    · exact .inl plain
    · obtain ⟨letter, _, form⟩ := List.any_eq_true.mp short
      exact .inr (.inl ⟨letter, of_decide_eq_true form⟩)
    · exact .inr (.inr code)
  · have wide := Nat.le_of_not_lt ascii
    have each : ∀ b ∈ String.utf8EncodeChar char, quotedByte b = [b] := fun b member =>
      quotedByte_wide (Utf8.not_ascii_of_mem_encode wide member)
    refine .inl ⟨?_, plain_of_wide wide⟩
    rw [List.flatMap_def, List.map_congr_left each, ← List.flatMap_def]
    simp [Utf8.encode]

theorem spelled_quoted (content : List Char) :
    ∃ raw, (Utf8.encode content).flatMap quotedByte = Utf8.encode raw ∧ Spelled content raw := by
  induction content with
  | nil => exact ⟨[], rfl, .nil⟩
  | cons char content ih =>
      obtain ⟨raw, written, spelled⟩ := ih
      rw [Utf8.encode_cons, List.flatMap_append, written]
      rcases quotedByte_cases char with ⟨form, itself⟩ | ⟨letter, form, escape⟩ | ⟨form, escape⟩
      · exact ⟨char :: raw, by rw [form, ← Utf8.encode_append]; rfl, .plain itself spelled⟩
      · exact ⟨'\\' :: letter :: raw, by rw [form, ← Utf8.encode_append]; rfl,
          .short escape spelled⟩
      · exact ⟨'\\' :: 'u' :: (codeDigits char ++ raw), by rw [form, ← Utf8.encode_append]; rfl,
          .code escape spelled⟩

/-- The text is written in lines with the statements. -/
def Written (text : Bytes) (statements : List Statement) : Prop :=
  ∃ chars, text = Utf8.encode chars ∧ Lines chars statements

namespace Written

theorem nil : Written [] [] :=
  ⟨[], rfl, .nil⟩

theorem append {left right : Bytes} {first second : List Statement} (before : Written left first)
    (after : Written right second) : Written (left ++ right) (first ++ second) := by
  obtain ⟨leftChars, rfl, leftLines⟩ := before
  obtain ⟨rightChars, rfl, rightLines⟩ := after
  exact ⟨leftChars ++ rightChars, by simp, leftLines.append rightLines⟩

theorem flatMap {α : Type} {items : List α} {text : α → Bytes} {statements : α → List Statement}
    (written : ∀ item ∈ items, Written (text item) (statements item)) :
    Written (items.flatMap text) (items.flatMap statements) := by
  induction items with
  | nil => exact nil
  | cons item items ih =>
      obtain ⟨here, later⟩ := List.forall_mem_cons.mp written
      rw [List.flatMap_cons, List.flatMap_cons]
      exact here.append (ih later)

theorem line {gap text : List Char} {statement : Statement} (blank : Gap gap)
    (reads : Reads text statement) : Written (Utf8.encode (gap ++ (text ++ ['\n']))) [statement] :=
  ⟨_, rfl, .cons blank reads .nil⟩

theorem entryLine {indent key : String} (blank : Gap indent.toList) (bare : Bare key.toList)
    {text : List Char} {expr : Expr} (value : ReadsValue text expr) :
    Written (Toml.entryLine indent key (Utf8.encode text)) [.entry [key.toList] expr] := by
  have equals : bytes " = " = Utf8.encode [' ', '=', ' '] := by decide
  have ended : [byte '\n'] = Utf8.encode ['\n'] := by decide
  have written := line blank (bare.reads_entry value)
  simpa [Toml.entryLine, Utf8.bytes_eq_encode indent, Utf8.bytes_eq_encode key, equals, ended,
    Utf8.encode_cons] using written

end Written

/-- Keys with the strings they are given. -/
abbrev Fields := List (String × Bytes)

def fieldStatement (field : String × Bytes) : Statement :=
  .entry [field.1.toList] (.text (Utf8.chars field.2))

def fieldEntry (field : String × Bytes) : List Char × Value :=
  (field.1.toList, .text (Utf8.chars field.2))

theorem written_field {indent key : String} {content : Bytes} (blank : Gap indent.toList)
    (bare : Bare key.toList) (valid : Utf8.Valid content) :
    Written (entryLine indent key (quoted content)) [fieldStatement (key, content)] := by
  obtain ⟨raw, written, spelled⟩ := spelled_quoted (Utf8.chars content)
  rw [valid.encode_chars] at written
  have form : quoted content = Utf8.encode ('"' :: (raw ++ ['"'])) := by
    rw [quoted, written, Utf8.encode_cons, Utf8.encode_append]
    rfl
  rw [form]
  exact .entryLine blank bare spelled.readsValue

theorem written_fields {fields : Fields}
    (named : ∀ field ∈ fields, Bare field.1.toList ∧ Utf8.Valid field.2) :
    Written (fields.flatMap fun field => entryLine "  " field.1 (quoted field.2))
      (fields.map fieldStatement) := by
  rw [← List.flatMap_singleton' (fields.map fieldStatement), List.flatMap_map]
  apply Written.flatMap
  intro field member
  obtain ⟨bare, valid⟩ := named field member
  exact written_field (by decide) bare valid

theorem runStatements_fields {context : Key} {fill : Entries → Entries}
    (focus : Focus context fill) (table : Entries) (fields : Fields) (later : List Statement)
    (distinct : (table.map Prod.fst ++ fields.map fun field => field.1.toList).Nodup) :
    runStatements context (fields.map fieldStatement ++ later) { root := fill table } =
      runStatements context later { root := fill (table ++ fields.map fieldEntry) } := by
  induction fields generalizing table with
  | nil => simp
  | cons field fields ih =>
      have fresh : table.lookup field.1.toList = none := by
        rw [List.lookup_eq_none_iff]
        intro entry member
        have apart := (List.nodup_append.mp distinct).2.2 entry.1 (List.mem_map_of_mem member)
        simpa using (apart _ List.mem_cons_self).symm
      have step : (fieldStatement field).run context { root := fill table } =
          some (context, { root := fill (table ++ [fieldEntry field]) }) :=
        Statement.run_entry focus fresh (.text (Utf8.chars field.2))
      have others : ((table ++ [fieldEntry field]).map Prod.fst ++
          fields.map fun field => field.1.toList).Nodup := by
        simpa [fieldEntry] using distinct
      rw [List.map_cons, List.cons_append, runStatements_cons step, ih _ others,
        List.append_assoc]
      rfl

def symbolsFields (symbols : Symbols) : Fields :=
  [("sigil", symbols.sigil), ("open", symbols.opener), ("close", symbols.closer)]

def ruleFields (rule : Rule) : Fields :=
  [("name", rule.name), ("pattern", rule.pattern), ("replacement", rule.replacement)]

def symbolsStatements (symbols : Symbols) : List Statement :=
  .table ["symbols".toList] :: (symbolsFields symbols).map fieldStatement

def ruleStatements (rule : Rule) : List Statement :=
  .element ["rules".toList] :: (ruleFields rule).map fieldStatement

/-- The statements that a rule file is written as. -/
def statements (file : RuleFile) : List Statement :=
  fieldStatement ("name", file.name) ::
    .entry ["strict_blocks".toList] (.boolean file.strictBlocks) ::
      (file.symbols.toList.flatMap symbolsStatements ++ file.rules.flatMap ruleStatements)

theorem written_symbols {symbols : Symbols} (texts : symbols.ValidTexts) :
    Written (writeSymbols symbols) (symbolsStatements symbols) := by
  have header : Written (bytes "\n[symbols]\n") [.table ["symbols".toList]] := by
    have blank : Gap ['\n'] := by decide
    have bare : Bare "symbols".toList := by decide
    exact .line blank bare.reads_table
  have fields : Written _ ((symbolsFields symbols).map fieldStatement) := written_fields (by
    simp only [symbolsFields, List.forall_mem_cons]
    exact ⟨⟨by decide, texts.sigil⟩, ⟨by decide, texts.opener⟩, ⟨by decide, texts.closer⟩, by simp⟩)
  simpa [writeSymbols, symbolsStatements, symbolsFields] using header.append fields

theorem written_rule {rule : Rule} (texts : rule.ValidTexts) :
    Written (writeRule rule) (ruleStatements rule) := by
  have header : Written (bytes "\n[[rules]]\n") [.element ["rules".toList]] := by
    have blank : Gap ['\n'] := by decide
    have bare : Bare "rules".toList := by decide
    exact .line blank bare.reads_element
  have fields : Written _ ((ruleFields rule).map fieldStatement) := written_fields (by
    simp only [ruleFields, List.forall_mem_cons]
    exact ⟨⟨by decide, texts.name⟩, ⟨by decide, texts.pattern⟩, ⟨by decide, texts.replacement⟩,
      by simp⟩)
  simpa [writeRule, ruleStatements, ruleFields] using header.append fields

theorem written_write {file : RuleFile} (texts : file.ValidTexts) :
    Written (write file) (statements file) := by
  have blank : Gap "".toList := by decide
  have name := written_field blank (by decide : Bare "name".toList) texts.name
  have strictness := Written.entryLine blank (by decide : Bare "strict_blocks".toList)
    (readsValue_boolean file.strictBlocks)
  rw [← Utf8.bytes_eq_encode] at strictness
  have rules : Written (file.rules.flatMap writeRule) (file.rules.flatMap ruleStatements) :=
    .flatMap fun rule member => written_rule (texts.rules rule member)
  have symbols : Written (file.symbols.toList.flatMap writeSymbols)
      (file.symbols.toList.flatMap symbolsStatements) :=
    .flatMap fun symbols member => written_symbols (texts.symbols symbols (by simpa using member))
  have parts : write file =
      entryLine "" "name" (quoted file.name) ++
        entryLine "" "strict_blocks" (bytes (if file.strictBlocks then "true" else "false")) ++
        file.symbols.toList.flatMap writeSymbols ++ file.rules.flatMap writeRule := by
    unfold write
    cases file.symbols <;> simp
  rw [parts]
  exact ((name.append strictness).append symbols).append rules

def ruleTable (rule : Rule) : Entries :=
  (ruleFields rule).map fieldEntry

def tableEntry (name : String) (fields : Fields) : List Char × Value :=
  (name.toList, .table (fields.map fieldEntry))

def symbolsEntry (symbols : Symbols) : List Char × Value :=
  tableEntry "symbols" (symbolsFields symbols)

/-- The entries of a rule file that are no tables. -/
def plainEntries (file : RuleFile) : Entries :=
  [fieldEntry ("name", file.name), ("strict_blocks".toList, .boolean file.strictBlocks)]

/-- The root table of a rule file. -/
def rootEntries (file : RuleFile) : Entries :=
  withElements (plainEntries file ++ file.symbols.toList.map symbolsEntry) "rules".toList
    (file.rules.map ruleTable)

theorem runStatements_symbols {root : Entries} (fresh : root.lookup "symbols".toList = none)
    (symbols : Option Symbols) (later : List Statement) :
    ∃ context, runStatements [] (symbols.toList.flatMap symbolsStatements ++ later) { root } =
      runStatements context later { root := root ++ symbols.toList.map symbolsEntry } := by
  cases symbols with
  | none => exact ⟨[], by simp⟩
  | some symbols =>
      refine ⟨["symbols".toList], ?_⟩
      have fields := runStatements_fields (focus_table fresh) [] (symbolsFields symbols) later
        (by simp [symbolsFields])
      rw [Option.toList_some, List.flatMap_singleton, symbolsStatements, List.cons_append,
        runStatements_cons (Statement.run_table fresh)]
      exact fields

theorem runStatements_rules {entries : Entries} (fresh : entries.lookup "rules".toList = none)
    (rules : List Rule) (tables : List Entries) (context : Key) :
    runStatements context (rules.flatMap ruleStatements)
        { root := withElements entries "rules".toList tables } =
      some { root := withElements entries "rules".toList (tables ++ rules.map ruleTable) } := by
  -- each header opens an element behind those there are, and its fields fill it
  induction rules generalizing tables context with
  | nil => simp [runStatements]
  | cons rule rules ih =>
      have fields := runStatements_fields (focus_element fresh tables) [] (ruleFields rule)
        (rules.flatMap ruleStatements) (by simp [ruleFields])
      have others := ih (tables ++ [ruleTable rule]) ["rules".toList]
      rw [withElements_append, List.append_assoc] at others
      rw [List.flatMap_cons, ruleStatements, List.cons_append,
        runStatements_cons (Statement.run_element fresh tables), withElements_append]
      exact fields.trans others

theorem runStatements_plain (file : RuleFile) (later : List Statement) :
    runStatements [] (fieldStatement ("name", file.name) ::
        .entry ["strict_blocks".toList] (.boolean file.strictBlocks) :: later) {} =
      runStatements [] later { root := plainEntries file } := by
  have nameFresh : ([] : Entries).lookup "name".toList = none := rfl
  have strictFresh :
      ([fieldEntry ("name", file.name)] : Entries).lookup "strict_blocks".toList = none := by
    simp [fieldEntry]
  have name : (fieldStatement ("name", file.name)).run [] {} = some ([], _) :=
    Statement.run_entry focus_root nameFresh (.text (Utf8.chars file.name))
  have strictness := Statement.run_entry focus_root strictFresh (.boolean file.strictBlocks)
  exact (runStatements_cons name _).trans (runStatements_cons strictness later)

/-- The statements of a rule file build the table of its fields. -/
theorem tableOf?_statements (file : RuleFile) :
    tableOf? (statements file) = some (rootEntries file) := by
  have symbolsFresh : (plainEntries file).lookup "symbols".toList = none := by
    rw [List.lookup_eq_none_iff]
    simp [plainEntries, fieldEntry]
  have rulesFresh : (plainEntries file ++ file.symbols.toList.map symbolsEntry).lookup
      "rules".toList = none := by
    rw [List.lookup_eq_none_iff]
    cases file.symbols <;> simp [plainEntries, fieldEntry, symbolsEntry, tableEntry]
  obtain ⟨context, symbols⟩ := runStatements_symbols symbolsFresh file.symbols
    (file.rules.flatMap ruleStatements)
  have rules := runStatements_rules rulesFresh file.rules [] context
  rw [tableOf?, statements, runStatements_plain, symbols]
  exact congrArg (Option.map _) rules

theorem names_of_small {key : List Char} (small : (key.all fun char => fold char == char) = true)
    (field : String) : names field key = (key == field.toList) := by
  have folded : ∀ char ∈ key, fold char = id char := by simpa using small
  rw [names, List.map_congr_left folded, List.map_id]

theorem readEntries?_symbols {symbols : Symbols} (texts : symbols.ValidTexts) :
    readEntries? addToSymbols? {} ((symbolsFields symbols).map fieldEntry) = some symbols := by
  simp (disch := decide) [readEntries?, symbolsFields, fieldEntry, addToSymbols?, names_of_small,
    text?, texts.sigil.encode_chars, texts.opener.encode_chars, texts.closer.encode_chars]

theorem readEntries?_rule {rule : Rule} (texts : rule.ValidTexts) :
    readEntries? addToRule? {} (ruleTable rule) = some rule := by
  simp (disch := decide) [readEntries?, ruleTable, ruleFields, fieldEntry, addToRule?,
    names_of_small, text?, texts.name.encode_chars, texts.pattern.encode_chars,
    texts.replacement.encode_chars]

theorem mapM_ruleTable {rules : List Rule} (texts : ∀ rule ∈ rules, rule.ValidTexts) :
    (rules.map ruleTable).mapM (readEntries? addToRule? {}) = some rules := by
  induction rules with
  | nil => rfl
  | cons rule rules ih =>
      obtain ⟨here, later⟩ := List.forall_mem_cons.mp texts
      rw [List.map_cons, List.mapM_cons, readEntries?_rule here, ih later]
      rfl

theorem addToFile?_symbols (file : RuleFile) {symbols : Symbols} (texts : symbols.ValidTexts) :
    addToFile? file (symbolsEntry symbols) = some { file with symbols := some symbols } := by
  simp (disch := decide) [addToFile?, symbolsEntry, tableEntry, names_of_small, symbols?,
    readEntries?_symbols texts]

theorem addToFile?_rules (file : RuleFile) {rules : List Rule}
    (texts : ∀ rule ∈ rules, rule.ValidTexts) :
    addToFile? file ("rules".toList, .elements (rules.map ruleTable)) =
      some { file with rules } := by
  simp (disch := decide) [addToFile?, names_of_small, rules?, mapM_ruleTable texts]

theorem readEntries?_append {α : Type} (add? : α → List Char × Value → Option α) (start : α)
    (first second : Entries) :
    readEntries? add? start (first ++ second) =
      (readEntries? add? start first).bind (readEntries? add? · second) :=
  List.foldlM_append

theorem readEntries?_file {file : RuleFile} (texts : file.ValidTexts) :
    readEntries? addToFile? {} (rootEntries file) = some file := by
  have plain : readEntries? addToFile? {} (plainEntries file) =
      some ⟨file.name, none, file.strictBlocks, []⟩ := by
    simp (disch := decide) [readEntries?, plainEntries, fieldEntry, addToFile?, names_of_small,
      text?, boolean?, texts.name.encode_chars]
  have head : readEntries? addToFile? {}
      (plainEntries file ++ file.symbols.toList.map symbolsEntry) =
        some { file with rules := [] } := by
    rw [readEntries?_append, plain, Option.bind_some]
    cases given : file.symbols with
    | none => rfl
    | some symbols => simp [readEntries?, addToFile?_symbols _ (texts.symbols symbols given)]
  rw [rootEntries, withElements]
  by_cases empty : file.rules = []
  · rw [if_pos (by simp [empty]), head, ← empty]
  · rw [if_neg (by simp [empty]), readEntries?_append, head, Option.bind_some, readEntries?,
      List.foldlM_cons, addToFile?_rules _ texts.rules]
    rfl

theorem read?_write {file : RuleFile} (texts : file.ValidTexts) :
    read? (write file) = some file := by
  obtain ⟨chars, encoded, lines⟩ := written_write texts
  have unmarked : dropMark (write file) = write file := rfl
  have parsed := lines.parse?_eq (by rw [← encoded]; exact unmarked)
  rw [read?, encoded, parsed, Option.bind_eq_bind, Option.bind_some, tableOf?_statements,
    Option.bind_eq_bind, Option.bind_some, readEntries?_file texts]

end RuleFile.Toml

namespace RuleFile

/-- A rule file that passes its check and whose texts are well-formed is written
in TOML as a text that is read as the same rule file. -/
theorem parse_encode_toml {file : RuleFile} (sound : file.fault? = none)
    (texts : file.ValidTexts) : parse .toml (encode .toml file) = .ok file := by
  have read := Toml.read?_write texts
  have checked : file.validated = .ok file := by
    rw [validated, sound]
  simp only [parse, encode, read, checked]

/-- Symbols of two bytes, a rule without a name whose pattern ends its line, and
texts with quotes, a backslash, control characters and an emoji. -/
theorem parse_encode_toml_escapes :
    ∃ file : RuleFile,
      file.name = bytes "\"\\\x01\x7f" ∧ file.symbols = some ⟨bytes "§", bytes "«", bytes "»"⟩ ∧
        file.strictBlocks = true ∧
        file.rules = [⟨[], bytes "a\n", []⟩, ⟨bytes "😀", bytes "\"\"\"", bytes "\t\r\x0c"⟩] ∧
        parse .toml (encode .toml file) = .ok file := by
  have valid (text : String) : Utf8.Valid (bytes text) := ⟨_, Utf8.bytes_eq_encode text⟩
  refine ⟨⟨_, _, _, _⟩, rfl, rfl, rfl, rfl, parse_encode_toml (by decide) ⟨valid _, ?_, ?_⟩⟩
  · rintro symbols ⟨⟩
    exact ⟨valid _, valid _, valid _⟩
  · simp only [List.forall_mem_cons]
    exact ⟨⟨Utf8.valid_nil, valid _, Utf8.valid_nil⟩, ⟨valid _, valid _, valid _⟩, by simp⟩

end RuleFile

end Stencil
