import CenDB.Lib.Json
import CenDB.System.Catalog

/-! # The export of the catalog

The text is put together from format strings.  Names, models and types stand between quotes as they are;
in the definition of a view quotes get a backslash; the parameters of a procedure are printed for
debugging, which agrees with JSON on the usual characters.  Columns are not written at all.

The order in which the hash tables are passed through is a parameter, and so is the table of the characters
that are printed as they are for debugging. -/

namespace CenDB.System

open Reader List Table

namespace SystemCatalog

/-! ### The text -/

section
variable (shown : Char → Bool)

/-- A character of a string that is printed for debugging. -/
def debugChar (c : Char) : List Char :=
  if c = Char.ofNat 0 then ['\\', '0']
  else if c = '\t' then ['\\', 't']
  else if c = '\r' then ['\\', 'r']
  else if c = '\n' then ['\\', 'n']
  else if c = '"' || c = '\\' then ['\\', c]
  else if shown c then [c]
  else '\\' :: 'u' :: '\x7b' :: (Nat.toDigits 16 c.toNat ++ ['\x7d'])

def debugStr (s : String) : List Char := '"' :: (s.toList.flatMap (debugChar shown) ++ ['"'])

def debugList (l : List String) : List Char := '[' :: (joined [',', ' '] (l.map (debugStr shown)) ++ [']'])

def fmtU64 (n : UInt64) : List Char := Nat.toDigits 10 n.toNat

def tableJson (t : TableInfo) : List Char :=
  "\x7b\"name\":\"".toList ++ (t.name.toList ++ ("\",\"model\":\"".toList ++ (t.model.toList ++
    ("\",\"row_count\":".toList ++ (fmtU64 t.rowCount ++ (",\"created_at\":".toList ++
      (fmtU64 t.createdAt ++ "\x7d".toList)))))))

def indexJson (idx : IndexInfo) : List Char :=
  "\x7b\"name\":\"".toList ++ (idx.name.toList ++ ("\",\"table\":\"".toList ++ (idx.table.toList ++
    ("\",\"column\":\"".toList ++ (idx.column.toList ++ ("\",\"type\":\"".toList ++ (idx.indexType.toList ++
      ("\",\"count\":".toList ++ (fmtU64 idx.entryCount ++ "\x7d".toList)))))))))

def viewJson (v : ViewInfo) : List Char :=
  "\x7b\"name\":\"".toList ++ (v.name.toList ++ ("\",\"definition\":\"".toList ++
    (Json.written true v.definition.toList ++ ("\",\"created_at\":".toList ++ (fmtU64 v.createdAt ++
      "\x7d".toList)))))

def procedureJson (p : StoredProcedure) : List Char :=
  "\x7b\"name\":\"".toList ++ (p.name.toList ++ ("\",\"params\":".toList ++ (debugList shown p.params ++
    (",\"created_at\":".toList ++ (fmtU64 p.createdAt ++ "\x7d".toList)))))

/-- The export, with the entries of the hash tables in the order in which they are passed through. -/
def toJson (tables : List TableInfo) (indexes : List IndexInfo) (views : List ViewInfo)
    (procedures : List StoredProcedure) : List Char :=
  "\x7b\"tables\":[".toList ++ (joined [','] (tables.map tableJson) ++ ("],\"indexes\":[".toList ++
    (joined [','] (indexes.map indexJson) ++ ("],\"views\":[".toList ++ (joined [','] (views.map viewJson) ++
      ("],\"procedures\":[".toList ++ (joined [','] (procedures.map (procedureJson shown)) ++
        "]\x7d".toList)))))))

end

/-! ### What it should say -/

def number (n : UInt64) : Json.Value := .number (fmtU64 n)

/-- The columns of a table that has any, by their names. -/
def columnsMember (columns : List ColumnInfo) : List (List Char × Json.Value) :=
  if columns = [] then [] else [("columns".toList, .array (columns.map fun col => .string col.name.toList))]

def tableValue (t : TableInfo) : Json.Value :=
  .object ([("name".toList, .string t.name.toList), ("model".toList, .string t.model.toList),
    ("row_count".toList, number t.rowCount), ("created_at".toList, number t.createdAt)] ++
      columnsMember t.columns)

def indexValue (idx : IndexInfo) : Json.Value :=
  .object [("name".toList, .string idx.name.toList), ("table".toList, .string idx.table.toList),
    ("column".toList, .string idx.column.toList), ("type".toList, .string idx.indexType.toList),
    ("count".toList, number idx.entryCount)]

def viewValue (v : ViewInfo) : Json.Value :=
  .object [("name".toList, .string v.name.toList), ("definition".toList, .string v.definition.toList),
    ("created_at".toList, number v.createdAt)]

def procedureValue (p : StoredProcedure) : Json.Value :=
  .object [("name".toList, .string p.name.toList),
    ("params".toList, .array (p.params.map fun s => .string s.toList)), ("created_at".toList, number p.createdAt)]

/-- The structure that lists the catalog. -/
def listing (tables : List TableInfo) (indexes : List IndexInfo) (views : List ViewInfo)
    (procedures : List StoredProcedure) : Json.Value :=
  .object [("tables".toList, .array (tables.map tableValue)), ("indexes".toList, .array (indexes.map indexValue)),
    ("views".toList, .array (views.map viewValue)),
    ("procedures".toList, .array (procedures.map procedureValue))]

/-- The export is a JSON text that stands for the listing, in whatever order the tables are passed through. -/
def ExportsListing (shown : Char → Bool) (catalog : SystemCatalog) : Prop :=
  ∀ tables views procedures, tables.Perm catalog.tables.values → views.Perm catalog.views.values →
    procedures.Perm catalog.procedures.values →
      Json.parse (toJson shown tables catalog.indexes views procedures) =
        some (listing tables catalog.indexes views procedures)

/-! ### Strings -/

/-- No character of the string would have needed an escape. -/
def PlainName (s : String) : Prop := Json.Clean false s.toList

instance (s : String) : Decidable (PlainName s) := inferInstanceAs (Decidable (Json.Clean false s.toList))

/-- No character but a quote would have needed an escape. -/
def PlainDefinition (s : String) : Prop := Json.Clean true s.toList

/-- The character is printed for debugging as JSON has it. -/
def DebugReads (shown : Char → Bool) (c : Char) : Prop :=
  c = '\t' ∨ c = '\r' ∨ c = '\n' ∨ c = '"' ∨ c = '\\' ∨ (shown c = true ∧ 0x20 ≤ c.toNat)

def PlainParam (shown : Char → Bool) (s : String) : Prop := ∀ c ∈ s.toList, DebugReads shown c

theorem readsIff_name (s : String) :
    Json.ReadsIff ('"' :: (s.toList ++ ['"'])) (.string s.toList) (PlainName s) :=
  Json.readsIff_string fun rest rest' => by
    rw [PlainName, ← Json.body_written_iff, Json.written_false]

theorem readsIff_definition (s : String) :
    Json.ReadsIff ('"' :: (Json.written true s.toList ++ ['"'])) (.string s.toList) (PlainDefinition s) :=
  Json.readsIff_string fun _ _ => Json.body_written_iff

theorem readsIff_fmtU64 (n : UInt64) : Json.ReadsIff (fmtU64 n) (number n) True := Json.readsIff_number (Json.numberText_integer (Or.inl rfl) n.toNat)

section
variable {shown : Char → Bool}

variable {s rest : List Char}

theorem body_debugChar {c : Char} {text : List Char} :
    Json.body (debugChar shown c ++ text) = some (c :: s, rest) ↔
      DebugReads shown c ∧ Json.body text = some (s, rest) := by
  have hletter : ∀ e, Json.letterEscape e = some c → DebugReads shown c →
      (Json.body ('\\' :: e :: text) = some (c :: s, rest) ↔
        DebugReads shown c ∧ Json.body text = some (s, rest)) := fun e he hc => by
    rw [Json.body_letter he, Json.map_cons_eq_some, and_iff_right hc]
  rw [debugChar]
  split_ifs with hnul htab hreturn hnewline hquote hshown
  · subst hnul
    have hbad : Json.escape ('0' :: text) = none := rfl
    have hreads : ¬DebugReads shown (Char.ofNat 0) := by simp [DebugReads]
    exact iff_of_false (by rw [cons_append, singleton_append, Json.body_bad_escape hbad]; nofun)
      fun h => hreads h.1
  · subst htab
    exact hletter 't' rfl (Or.inl rfl)
  · subst hreturn
    exact hletter 'r' rfl (Or.inr (Or.inl rfl))
  · subst hnewline
    exact hletter 'n' rfl (Or.inr (Or.inr (Or.inl rfl)))
  · rw [Bool.or_eq_true, decide_eq_true_eq, decide_eq_true_eq] at hquote
    rcases hquote with rfl | rfl
    · exact hletter '"' rfl (Or.inr (Or.inr (Or.inr (Or.inl rfl))))
    · exact hletter '\\' rfl (Or.inr (Or.inr (Or.inr (Or.inr (Or.inl rfl)))))
  · rw [Bool.or_eq_true, decide_eq_true_eq, decide_eq_true_eq, not_or] at hquote
    have hreads : DebugReads shown c ↔ 0x20 ≤ c.toNat := by
      simp [DebugReads, htab, hreturn, hnewline, hquote, hshown]
    rw [hreads, singleton_append]
    by_cases hcontrol : 0x20 ≤ c.toNat
    · rw [Json.body_plain hquote.1 hquote.2 hcontrol, Json.map_cons_eq_some, and_iff_right hcontrol]
    · rw [Json.body_control (Nat.not_le.mp hcontrol)]
      exact iff_of_false nofun fun h => hcontrol h.1
  · rw [Bool.or_eq_true, decide_eq_true_eq, decide_eq_true_eq, not_or] at hquote
    have hreads : ¬DebugReads shown c := by
      simp [DebugReads, htab, hreturn, hnewline, hquote, hshown]
    have hbad := Json.escape_unicode_eq_none (c := '\x7b') rfl (Nat.toDigits 16 c.toNat ++ ['\x7d'] ++ text)
    rw [cons_append, cons_append, cons_append, Json.body_bad_escape hbad]
    exact iff_of_false nofun fun h => hreads h.1

/-- A parameter is read back exactly if each character is. -/
theorem body_debug {rest' : List Char} :
    Json.body (s.flatMap (debugChar shown) ++ '"' :: rest) = some (s, rest') ↔
      rest' = rest ∧ ∀ c ∈ s, DebugReads shown c := by
  induction s with
  | nil =>
    rw [flatMap_nil, List.nil_append, Json.body_quote]
    simp [eq_comm]
  | cons c s ih =>
    rw [flatMap_cons, append_assoc, body_debugChar, ih, forall_mem_cons]
    exact and_left_comm

theorem readsIff_debugStr (s : String) :
    Json.ReadsIff (debugStr shown s) (.string s.toList) (PlainParam shown s) :=
  Json.readsIff_string fun _ _ => body_debug

theorem readsIff_debugList (l : List String) : Json.ReadsIff (debugList shown l)
    (.array (l.map fun s => .string s.toList)) (∀ s ∈ l, PlainParam shown s) :=
  Json.readsIff_array [' '] (Or.inr rfl) fun s _ => readsIff_debugStr s

end

/-! ### Entries -/

theorem columnsMember_eq_nil_iff {columns : List ColumnInfo} : columnsMember columns = [] ↔ columns = [] := by
  unfold columnsMember
  by_cases h : columns = []
  · rw [if_pos h]
    exact iff_of_true rfl h
  · rw [if_neg h]
    exact iff_of_false (List.cons_ne_nil _ _) h

def PlainTable (t : TableInfo) : Prop := PlainName t.name ∧ PlainName t.model ∧ t.columns = []

def PlainIndex (idx : IndexInfo) : Prop :=
  PlainName idx.name ∧ PlainName idx.table ∧ PlainName idx.column ∧ PlainName idx.indexType

def PlainView (v : ViewInfo) : Prop := PlainName v.name ∧ PlainDefinition v.definition

def PlainProcedure (shown : Char → Bool) (p : StoredProcedure) : Prop :=
  PlainName p.name ∧ ∀ s ∈ p.params, PlainParam shown s

/-- A member of an object with its text, its value, and when it is read. -/
structure Field where
  key : String
  text : List Char
  val : Json.Value
  reads : Prop

def nameField (key s : String) : Field := ⟨key, '"' :: (s.toList ++ ['"']), .string s.toList, PlainName s⟩

def numberField (key : String) (n : UInt64) : Field := ⟨key, fmtU64 n, number n, True⟩

theorem readsIff_nameField (key s : String) :
    Json.ReadsIff (nameField key s).text (nameField key s).val (nameField key s).reads := readsIff_name s

theorem readsIff_numberField (key : String) (n : UInt64) :
    Json.ReadsIff (numberField key n).text (numberField key n).val (numberField key n).reads := readsIff_fmtU64 n

/-- The text and the value of some members. -/
def fieldsText (fields : List Field) : List Char :=
  '\x7b' :: (joined [','] (fields.map fun f => Json.memberText f.key.toList f.text) ++ ['\x7d'])

def fieldsValue (fields : List Field) : List (List Char × Json.Value) :=
  fields.map fun f => (f.key.toList, f.val)

theorem readsIff_fields (fields : List Field) (more : List (List Char × Json.Value))
    (hkeys : ∀ key ∈ fields.map Field.key, PlainName key)
    (hvals : ∀ f ∈ fields, Json.ReadsIff f.text f.val f.reads) :
    Json.ReadsIff (fieldsText fields) (.object (fieldsValue fields ++ more)) ((∀ f ∈ fields, f.reads) ∧ more = []) :=
  Json.readsIff_object more (fun f hf => Json.spells_of_clean (hkeys f.key (mem_map_of_mem hf))) hvals

/-- The texts of the entries, member by member. -/
theorem tableText_eq (name model rows created : List Char) :
    "\x7b\"name\":\"".toList ++ (name ++ ("\",\"model\":\"".toList ++ (model ++ ("\",\"row_count\":".toList ++
      (rows ++ (",\"created_at\":".toList ++ (created ++ "\x7d".toList))))))) =
    '\x7b' :: (joined [','] [Json.memberText "name".toList ('"' :: (name ++ ['"'])),
      Json.memberText "model".toList ('"' :: (model ++ ['"'])), Json.memberText "row_count".toList rows,
      Json.memberText "created_at".toList created] ++ ['\x7d']) := by
  simp [joined, Json.memberText]

theorem indexText_eq (name table column ty count : List Char) :
    "\x7b\"name\":\"".toList ++ (name ++ ("\",\"table\":\"".toList ++ (table ++ ("\",\"column\":\"".toList ++
      (column ++ ("\",\"type\":\"".toList ++ (ty ++ ("\",\"count\":".toList ++ (count ++ "\x7d".toList))))))))) =
    '\x7b' :: (joined [','] [Json.memberText "name".toList ('"' :: (name ++ ['"'])),
      Json.memberText "table".toList ('"' :: (table ++ ['"'])),
      Json.memberText "column".toList ('"' :: (column ++ ['"'])),
      Json.memberText "type".toList ('"' :: (ty ++ ['"'])), Json.memberText "count".toList count] ++ ['\x7d']) := by
  simp [joined, Json.memberText]

theorem viewText_eq (name definition created : List Char) :
    "\x7b\"name\":\"".toList ++ (name ++ ("\",\"definition\":\"".toList ++ (definition ++
      ("\",\"created_at\":".toList ++ (created ++ "\x7d".toList))))) =
    '\x7b' :: (joined [','] [Json.memberText "name".toList ('"' :: (name ++ ['"'])),
      Json.memberText "definition".toList ('"' :: (definition ++ ['"'])),
      Json.memberText "created_at".toList created] ++ ['\x7d']) := by
  simp [joined, Json.memberText]

theorem procedureText_eq (name params created : List Char) :
    "\x7b\"name\":\"".toList ++ (name ++ ("\",\"params\":".toList ++ (params ++
      (",\"created_at\":".toList ++ (created ++ "\x7d".toList))))) =
    '\x7b' :: (joined [','] [Json.memberText "name".toList ('"' :: (name ++ ['"'])),
      Json.memberText "params".toList params, Json.memberText "created_at".toList created] ++ ['\x7d']) := by
  simp [joined, Json.memberText]

theorem exportText_eq (tables indexes views procedures : List Char) :
    "\x7b\"tables\":[".toList ++ (tables ++ ("],\"indexes\":[".toList ++ (indexes ++ ("],\"views\":[".toList ++
      (views ++ ("],\"procedures\":[".toList ++ (procedures ++ "]\x7d".toList))))))) =
    '\x7b' :: (joined [','] [Json.memberText "tables".toList ('[' :: (tables ++ [']'])),
      Json.memberText "indexes".toList ('[' :: (indexes ++ [']'])),
      Json.memberText "views".toList ('[' :: (views ++ [']'])),
      Json.memberText "procedures".toList ('[' :: (procedures ++ [']']))] ++ ['\x7d']) := by
  simp [joined, Json.memberText]

def tableFields (t : TableInfo) : List Field :=
  [nameField "name" t.name, nameField "model" t.model, numberField "row_count" t.rowCount,
    numberField "created_at" t.createdAt]

def indexFields (idx : IndexInfo) : List Field :=
  [nameField "name" idx.name, nameField "table" idx.table, nameField "column" idx.column,
    nameField "type" idx.indexType, numberField "count" idx.entryCount]

def viewFields (v : ViewInfo) : List Field :=
  [nameField "name" v.name, ⟨"definition", '"' :: (Json.written true v.definition.toList ++ ['"']),
    .string v.definition.toList, PlainDefinition v.definition⟩, numberField "created_at" v.createdAt]

def procedureFields (shown : Char → Bool) (p : StoredProcedure) : List Field :=
  [nameField "name" p.name, ⟨"params", debugList shown p.params, .array (p.params.map fun s => .string s.toList),
    ∀ s ∈ p.params, PlainParam shown s⟩, numberField "created_at" p.createdAt]

theorem tableJson_eq (t : TableInfo) : tableJson t = fieldsText (tableFields t) :=
  tableText_eq t.name.toList t.model.toList (fmtU64 t.rowCount) (fmtU64 t.createdAt)

theorem indexJson_eq (idx : IndexInfo) : indexJson idx = fieldsText (indexFields idx) :=
  indexText_eq idx.name.toList idx.table.toList idx.column.toList idx.indexType.toList (fmtU64 idx.entryCount)

theorem viewJson_eq (v : ViewInfo) : viewJson v = fieldsText (viewFields v) :=
  viewText_eq v.name.toList (Json.written true v.definition.toList) (fmtU64 v.createdAt)

theorem procedureJson_eq (shown : Char → Bool) (p : StoredProcedure) :
    procedureJson shown p = fieldsText (procedureFields shown p) :=
  procedureText_eq p.name.toList (debugList shown p.params) (fmtU64 p.createdAt)

theorem readsIff_table (t : TableInfo) : Json.ReadsIff (tableJson t) (tableValue t) (PlainTable t) := by
  have hkeys : ∀ key ∈ ["name", "model", "row_count", "created_at"], PlainName key := by decide
  have hvals : ∀ f ∈ tableFields t, Json.ReadsIff f.text f.val f.reads := by
    simp only [tableFields, forall_mem_cons]
    exact ⟨readsIff_nameField _ _, readsIff_nameField _ _, readsIff_numberField _ _, readsIff_numberField _ _, nofun⟩
  have hreads : ((∀ f ∈ tableFields t, f.reads) ∧ columnsMember t.columns = []) ↔ PlainTable t := by
    simp [tableFields, nameField, numberField, PlainTable, columnsMember_eq_nil_iff, and_assoc]
  exact tableJson_eq t ▸ (readsIff_fields (tableFields t) (columnsMember t.columns) hkeys hvals).congr hreads

theorem readsIff_index (idx : IndexInfo) : Json.ReadsIff (indexJson idx) (indexValue idx) (PlainIndex idx) := by
  have hkeys : ∀ key ∈ ["name", "table", "column", "type", "count"], PlainName key := by decide
  have hvals : ∀ f ∈ indexFields idx, Json.ReadsIff f.text f.val f.reads := by
    simp only [indexFields, forall_mem_cons]
    exact ⟨readsIff_nameField _ _, readsIff_nameField _ _, readsIff_nameField _ _, readsIff_nameField _ _,
      readsIff_numberField _ _, nofun⟩
  have hreads : ((∀ f ∈ indexFields idx, f.reads) ∧ ([] : List (List Char × Json.Value)) = []) ↔ PlainIndex idx := by
    simp [indexFields, nameField, numberField, PlainIndex]
  exact indexJson_eq idx ▸ (readsIff_fields (indexFields idx) [] hkeys hvals).congr hreads

theorem readsIff_view (v : ViewInfo) : Json.ReadsIff (viewJson v) (viewValue v) (PlainView v) := by
  have hkeys : ∀ key ∈ ["name", "definition", "created_at"], PlainName key := by decide
  have hvals : ∀ f ∈ viewFields v, Json.ReadsIff f.text f.val f.reads := by
    simp only [viewFields, forall_mem_cons]
    exact ⟨readsIff_nameField _ _, readsIff_definition _, readsIff_numberField _ _, nofun⟩
  have hreads : ((∀ f ∈ viewFields v, f.reads) ∧ ([] : List (List Char × Json.Value)) = []) ↔ PlainView v := by
    simp [viewFields, nameField, numberField, PlainView]
  exact viewJson_eq v ▸ (readsIff_fields (viewFields v) [] hkeys hvals).congr hreads

theorem readsIff_procedure (shown : Char → Bool) (p : StoredProcedure) :
    Json.ReadsIff (procedureJson shown p) (procedureValue p) (PlainProcedure shown p) := by
  have hkeys : ∀ key ∈ ["name", "params", "created_at"], PlainName key := by decide
  have hvals : ∀ f ∈ procedureFields shown p, Json.ReadsIff f.text f.val f.reads := by
    simp only [procedureFields, forall_mem_cons]
    exact ⟨readsIff_nameField _ _, readsIff_debugList _, readsIff_numberField _ _, nofun⟩
  have hreads : ((∀ f ∈ procedureFields shown p, f.reads) ∧ ([] : List (List Char × Json.Value)) = []) ↔
      PlainProcedure shown p := by
    simp [procedureFields, nameField, numberField, PlainProcedure]
  exact procedureJson_eq shown p ▸ (readsIff_fields (procedureFields shown p) [] hkeys hvals).congr hreads

/-! ### The export -/

/-- An array of entries that are read by themselves. -/
def arrayField {α : Type} (key : String) (text : α → List Char) (val : α → Json.Value) (reads : α → Prop)
    (entries : List α) : Field :=
  ⟨key, '[' :: (joined [','] (entries.map text) ++ [']']), .array (entries.map val), ∀ e ∈ entries, reads e⟩

theorem readsIff_arrayField {α : Type} {key : String} {text : α → List Char} {val : α → Json.Value}
    {reads : α → Prop} {entries : List α} (h : ∀ e, Json.ReadsIff (text e) (val e) (reads e)) :
    Json.ReadsIff (arrayField key text val reads entries).text (arrayField key text val reads entries).val
      (arrayField key text val reads entries).reads :=
  Json.readsIff_array [] (Or.inl rfl) fun e _ => h e

section
variable {shown : Char → Bool} (tables : List TableInfo) (indexes : List IndexInfo) (views : List ViewInfo)
  (procedures : List StoredProcedure)

def exportFields (shown : Char → Bool) : List Field :=
  [arrayField "tables" tableJson tableValue PlainTable tables,
    arrayField "indexes" indexJson indexValue PlainIndex indexes,
    arrayField "views" viewJson viewValue PlainView views,
    arrayField "procedures" (procedureJson shown) procedureValue (PlainProcedure shown) procedures]

theorem toJson_eq : toJson shown tables indexes views procedures =
    fieldsText (exportFields tables indexes views procedures shown) :=
  exportText_eq (joined [','] (tables.map tableJson)) (joined [','] (indexes.map indexJson))
    (joined [','] (views.map viewJson)) (joined [','] (procedures.map (procedureJson shown)))

/-- **The export is read as the listing exactly if every entry is plain.** -/
theorem parse_toJson_iff :
    Json.parse (toJson shown tables indexes views procedures) = some (listing tables indexes views procedures) ↔
      (∀ t ∈ tables, PlainTable t) ∧ (∀ idx ∈ indexes, PlainIndex idx) ∧ (∀ v ∈ views, PlainView v) ∧
        ∀ p ∈ procedures, PlainProcedure shown p := by
  have hkeys : ∀ key ∈ ["tables", "indexes", "views", "procedures"], PlainName key := by decide
  have hvals : ∀ f ∈ exportFields tables indexes views procedures shown, Json.ReadsIff f.text f.val f.reads := by
    simp only [exportFields, forall_mem_cons]
    exact ⟨readsIff_arrayField readsIff_table, readsIff_arrayField readsIff_index,
      readsIff_arrayField readsIff_view, readsIff_arrayField (readsIff_procedure shown), nofun⟩
  have hread := readsIff_fields (exportFields tables indexes views procedures shown) [] hkeys hvals
  rw [← toJson_eq] at hread
  refine (Json.parse_iff hread).trans ?_
  simp [exportFields, arrayField]

end

/-- The catalog has no columns, and its names and texts none of the characters that the export would have
to escape. -/
structure Plain (shown : Char → Bool) (catalog : SystemCatalog) : Prop where
  tables : ∀ t ∈ catalog.tables.values, PlainTable t
  indexes : ∀ idx ∈ catalog.indexes, PlainIndex idx
  views : ∀ v ∈ catalog.views.values, PlainView v
  procedures : ∀ p ∈ catalog.procedures.values, PlainProcedure shown p

variable {shown : Char → Bool}

theorem exportsListing_iff {catalog : SystemCatalog} : ExportsListing shown catalog ↔ Plain shown catalog := by
  constructor
  · intro h
    obtain ⟨htables, hindexes, hviews, hprocedures⟩ :=
      (parse_toJson_iff _ _ _ _).mp (h _ _ _ (List.Perm.refl _) (List.Perm.refl _) (List.Perm.refl _))
    exact ⟨htables, hindexes, hviews, hprocedures⟩
  · rintro ⟨htables, hindexes, hviews, hprocedures⟩ tables views procedures hts hvs hps
    exact (parse_toJson_iff _ _ _ _).mpr ⟨fun t ht => htables t (hts.mem_iff.mp ht), hindexes,
      fun v hv => hviews v (hvs.mem_iff.mp hv), fun p hp => hprocedures p (hps.mem_iff.mp hp)⟩

/-! ### Runs -/

/-- What the call adds is plain; a column may only be added where there is no table for it. -/
def PlainCall (shown : Char → Bool) (catalog : SystemCatalog) : Call → Prop
  | .registerTable info => PlainTable info
  | .addColumn table _ => catalog.tables.lookup table = none
  | .registerIndex info => PlainIndex info
  | .createView info => PlainView info
  | .createProcedure proc => PlainProcedure shown proc
  | _ => True

section
variable {α : Type} {P : α → Prop} {t : Table String α} {name : String}

theorem forall_values_insert (h : ∀ v ∈ t.values, P v) {w : α} :
    (∀ v ∈ Table.values (t.insert name w), P v) ↔ P w := by
  constructor
  · exact fun hall => hall w (mem_values.mpr ⟨name, AList.lookup_insert t⟩)
  · intro hw v hv
    obtain ⟨key, hkey⟩ := mem_values.mp hv
    rw [lookup_insert_if] at hkey
    split_ifs at hkey
    · cases hkey
      exact hw
    · exact h v (mem_values.mpr ⟨key, hkey⟩)

theorem forall_values_erase (h : ∀ v ∈ t.values, P v) : ∀ v ∈ Table.values (t.erase name), P v := by
  intro v hv
  obtain ⟨key, hkey⟩ := mem_values.mp hv
  rw [lookup_erase_if] at hkey
  split_ifs at hkey
  exact h v (mem_values.mpr ⟨key, hkey⟩)

end

section
variable {shown : Char → Bool} {catalog : SystemCatalog}

variable {name : String} {info : TableInfo}

theorem Plain.insert_iff (h : Plain shown catalog) :
    Plain shown { catalog with tables := catalog.tables.insert name info } ↔ PlainTable info :=
  ⟨fun hplain => (forall_values_insert h.tables).mp hplain.tables,
    fun hinfo => ⟨(forall_values_insert h.tables).mpr hinfo, h.indexes, h.views, h.procedures⟩⟩

theorem Plain.lookup (h : Plain shown catalog) (hinfo : catalog.tables.lookup name = some info) :
    PlainTable info :=
  h.tables info (mem_values.mpr ⟨name, hinfo⟩)

theorem Plain.dropTable (h : Plain shown catalog) (name : String) : Plain shown (catalog.dropTable name).2 := by
  unfold SystemCatalog.dropTable
  split
  · exact ⟨forall_values_erase h.tables, fun idx hidx => h.indexes idx (mem_filter.mp hidx).1, h.views,
      h.procedures⟩
  · exact h

theorem Plain.addColumn_iff (h : Plain shown catalog) {table : String} {col : ColumnInfo} :
    Plain shown (catalog.addColumn table col).2 ↔ catalog.tables.lookup table = none := by
  unfold SystemCatalog.addColumn
  split
  case h_1 hnone => exact iff_of_true h hnone
  case h_2 info hinfo =>
    refine iff_of_false (fun hplain => ?_) fun hnone => ?_
    · have hcolumns := (h.insert_iff.mp hplain).2.2
      simp at hcolumns
    · rw [hinfo] at hnone
      cases hnone

theorem Plain.dropColumn (h : Plain shown catalog) (table colName : String) :
    Plain shown (catalog.dropColumn table colName).2 := by
  unfold SystemCatalog.dropColumn
  split
  case h_1 => exact h
  case h_2 info hinfo =>
    obtain ⟨hname, hmodel, hcolumns⟩ := h.lookup hinfo
    exact h.insert_iff.mpr ⟨hname, hmodel, by rw [hcolumns, filter_nil]⟩

theorem Plain.renameColumn (h : Plain shown catalog) (table oldName newName : String) :
    Plain shown (catalog.renameColumn table oldName newName).2 := by
  unfold SystemCatalog.renameColumn
  split
  case h_1 => exact h
  case h_2 info hinfo =>
    rw [(h.lookup hinfo).2.2]
    exact h

/-- **A call leaves a plain catalog plain exactly if what it adds is plain.** -/
theorem Plain.call_iff (h : Plain shown catalog) (c : Call) :
    Plain shown (catalog.call c).2 ↔ PlainCall shown catalog c := by
  cases c with
  | registerTable info => exact h.insert_iff
  | dropTable name => exact iff_of_true (h.dropTable name) trivial
  | addColumn table col => exact h.addColumn_iff
  | dropColumn table colName => exact iff_of_true (h.dropColumn table colName) trivial
  | renameColumn table oldName newName => exact iff_of_true (h.renameColumn table oldName newName) trivial
  | registerIndex info =>
    refine ⟨fun hplain => hplain.indexes info (by simp [SystemCatalog.call, SystemCatalog.registerIndex]),
      fun hinfo => ⟨h.tables, fun idx hidx => ?_, h.views, h.procedures⟩⟩
    rcases mem_append.mp hidx with hidx | hidx
    · exact h.indexes idx hidx
    · rw [mem_singleton.mp hidx]
      exact hinfo
  | dropIndex name =>
    exact iff_of_true ⟨h.tables, fun idx hidx => h.indexes idx (mem_filter.mp hidx).1, h.views, h.procedures⟩
      trivial
  | createView info =>
    exact ⟨fun hplain => (forall_values_insert h.views).mp hplain.views,
      fun hinfo => ⟨h.tables, h.indexes, (forall_values_insert h.views).mpr hinfo, h.procedures⟩⟩
  | dropView name => exact iff_of_true ⟨h.tables, h.indexes, forall_values_erase h.views, h.procedures⟩ trivial
  | createProcedure proc =>
    exact ⟨fun hplain => (forall_values_insert h.procedures).mp hplain.procedures,
      fun hproc => ⟨h.tables, h.indexes, h.views, (forall_values_insert h.procedures).mpr hproc⟩⟩
  | dropProcedure name => exact iff_of_true ⟨h.tables, h.indexes, h.views, forall_values_erase h.procedures⟩ trivial

end

/-- **In every run, all exports are listings exactly if the calls only add plain entries**, and no columns. -/
theorem exports_throughout_iff (shown : Char → Bool) (calls : List Call) :
    Transition.Throughout step (ExportsListing shown) new calls ↔
      Transition.Along step (PlainCall shown) new calls := by
  refine Transition.throughout_iff_along (I := fun _ => True) nofun (fun _ _ _ _ _ => trivial) ?_ trivial ?_ calls
  · intro catalog c catalog' _ hexports hstep
    rw [← Option.some_inj.mp hstep, exportsListing_iff]
    exact (exportsListing_iff.mp hexports).call_iff c
  · exact exportsListing_iff.mpr ⟨nofun, nofun, nofun, nofun⟩

/-- A table whose export is its listing is plain. -/
theorem plain_of_exports {info : TableInfo} :
    Transition.Throughout step (ExportsListing shown) new [.registerTable info] → PlainTable info := by
  intro h
  have hexports := h [.registerTable info] (new.registerTable info) prefix_rfl rfl
  exact (exportsListing_iff.mp hexports).tables info (mem_values.mpr ⟨info.name, AList.lookup_insert _⟩)

def quotedTable : TableInfo := ⟨"a\"b", "relational", 0, [], 0⟩

/-- A quote in a name ends it, and the columns of the usual example are not listed. -/
theorem quotes_and_columns_lost :
    ¬Transition.Throughout step (ExportsListing fun c => 0x20 ≤ c.toNat) new [.registerTable quotedTable] ∧
      ¬Transition.Throughout step (ExportsListing fun c => 0x20 ≤ c.toNat) new [.registerTable usersTable] := by
  constructor
  · intro h
    have hname : ¬PlainName "a\"b" := by decide
    exact hname (plain_of_exports h).1
  · intro h
    cases (plain_of_exports h).2.2

end SystemCatalog
end CenDB.System
