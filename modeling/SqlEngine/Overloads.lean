import SqlEngine.Projection
/-!
# Overloads — the two selects on one comparison

`select(fields, field, op, value)` and `select(fields, {field, op, value})` find the same records through the same
`selectHelp`, and print the same values.  The first heads its columns with all names of the table, the second with the
projected ones (`selectComparison_agrees_iff`).
-/
namespace Sql
namespace Storage

open Wire Effects Maps Query

/-- A string that a condition takes for data. -/
def Plain (str : Bytes) : Prop := str ∉ relationalTexts ++ [ascii "(", ascii ")", ascii "and", ascii "or"]

instance (str : Bytes) : Decidable (Plain str) := inferInstanceAs (Decidable (¬ _))

theorem allocateToken_plain {str : Bytes} (h : Plain str) : Table.allocateToken str = .tokenStr str := by
  simp only [Plain, List.mem_append, List.mem_cons, List.not_mem_nil, or_false, not_or] at h
  obtain ⟨hrelational, hleft, hright, hand, hor⟩ := h
  rw [Table.allocateToken, if_neg hrelational, if_neg hleft, if_neg hright, if_neg (not_or.2 ⟨hand, hor⟩)]

theorem allocateToken_relational {str : Bytes} (h : str ∈ relationalTexts) :
    Table.allocateToken str = .relational str := if_pos h

theorem toPostfix_comparison (fieldName operation fieldValue : Bytes) :
    toPostfix [.tokenStr fieldName, .relational operation, .tokenStr fieldValue] =
      some [.tokenStr fieldName, .tokenStr fieldValue, .relational operation] := rfl

/-- One comparison through the two stacks is `selectHelp`. -/
theorem eval_comparison {table table' : Table} {fieldName operation fieldValue : Bytes} {files : Files} {records : List Nat}
    (h : table.selectHelp fieldName operation fieldValue files = ⟨[], .ok (records, table')⟩) :
    table.eval [.tokenStr fieldName, .tokenStr fieldValue, .relational operation] files = ⟨[], .ok (records, table')⟩ := by
  rw [Table.eval, Table.evalLoop, Table.evalLoop, Table.evalLoop, bind_run_pure h]
  rfl

/-- **Two selects agree**: on the record numbers, the headers and the printed values. -/
structure Agree (a b : Table) : Prop where
  records : a.recordIndices = b.recordIndices
  headers : a.fieldNames = b.fieldNames
  values : a.printQueue = b.printQueue

/-- The projected names in the order of the table are all of them when nothing is left out or named twice. -/
theorem permutateFields_all_iff {table : Table} {files : Files} (h : table.Valid files) {chosen : List Bytes}
    (hknown : ∀ name ∈ chosen, name ∈ table.fieldNames) :
    table.permutateFields chosen = table.fieldNames ↔ chosen.Perm table.fieldNames := by
  obtain ⟨hperm, -⟩ := permutateFields_spec h hknown
  refine ⟨fun heq => heq ▸ hperm.symm, fun hall => ?_⟩
  rw [permutateFields_nodup h hknown (hall.nodup_iff.2 h.nodup)]
  exact List.filter_eq_self.2 (fun name hname => decide_eq_true (hall.mem_iff.2 hname))

/-- What is collected depends on the names and the rows alone. -/
theorem collect_congr {t u : Table} (hnames : t.fieldNames = u.fieldNames) (hrows : t.storedRows = u.storedRows)
    (names : List Bytes) : ∀ indices : List Nat, t.collect names indices = u.collect names indices
  | [] => rfl
  | index :: indices => by
    rw [Table.collect, Table.collect, hnames, hrows, collect_congr hnames hrows names indices]

/-- `selectComparison` behind its two calls that may throw. -/
theorem selectComparison_run {table table' : Table} {files : Files} {selected : List Bytes}
    {fieldName operation fieldValue : Bytes} {records : List Nat} {values : List Bytes}
    (hvalid : table.validateProjection selected = .ok ())
    (hhelp : ({ table with selectedFields := chosenFields table.fieldNames selected } : Table).selectHelp fieldName operation
      fieldValue files = ⟨[], .ok (records, table')⟩)
    (hcollect : table'.collect (chosenFields table.fieldNames selected) records = .ok values) :
    ∃ a table₁, table.selectComparison selected fieldName operation fieldValue files = ⟨[], .ok (a, table₁)⟩ ∧
      a.recordIndices = records ∧ a.fieldNames = table'.fieldNames ∧ a.printQueue = values := by
  let result : Table := { Table.new with
    tableName := table'.tableName
    fieldNames := table'.fieldNames
    selectedFields := chosenFields table.fieldNames selected
    numRecords := table'.numRecords
    recordIndices := records
    printQueue := values }
  refine ⟨result, { table' with recordIndices := records }, ?_, rfl, rfl, rfl⟩
  have hlast : Table.collect { table' with recordIndices := records } (chosenFields table.fieldNames selected) records =
      .ok values :=
    (collect_congr (t := { table' with recordIndices := records }) (u := table') rfl rfl _ _).trans hcollect
  unfold Table.selectComparison
  rw [hvalid, attempt_ok_bind]
  refine (bind_run_pure hhelp).trans ?_
  refine (bind_run_pure (show attempt _ files = ⟨[], .ok values⟩ from congrArg (Outcome.mk []) hlast)).trans rfl

/-- `select` behind its calls that may throw. -/
theorem select_run {table table' : Table} {files : Files} {selected : List Bytes} {queue : List Token} {records : List Nat}
    {values : List Bytes} (hvalid : table.validateProjection selected = .ok ())
    (hrecords : (if queue ≠ [] then Table.eval { table with selectedFields := chosenFields table.fieldNames selected } queue
      else pure (List.range table.numRecords, { table with selectedFields := chosenFields table.fieldNames selected })) files =
        ⟨[], .ok (records, table')⟩)
    (hcollect : table'.collect (table.permutateFields (chosenFields table.fieldNames selected)) records = .ok values) :
    ∃ result table'', table.select selected queue files = ⟨[], .ok (result, table'')⟩ ∧ result.recordIndices = records ∧
      result.fieldNames = table.permutateFields (chosenFields table.fieldNames selected) ∧ result.printQueue = values := by
  let result : Table := { Table.new with
    tableName := table'.tableName
    fieldNames := table.permutateFields (chosenFields table.fieldNames selected)
    selectedFields := chosenFields table.fieldNames selected
    numRecords := table'.numRecords
    recordIndices := records
    printQueue := values }
  refine ⟨result, { table' with recordIndices := records }, ?_, rfl, rfl, rfl⟩
  unfold Table.select
  rw [hvalid, attempt_ok_bind]
  by_cases hempty : queue = []
  · rw [if_neg (not_not.2 hempty)] at hrecords ⊢
    refine (bind_run_pure hrecords).trans ?_
    exact (bind_run_pure (show attempt _ files = ⟨[], .ok values⟩ from congrArg (Outcome.mk []) hcollect)).trans rfl
  · rw [if_pos hempty] at hrecords ⊢
    refine (bind_run_pure hrecords).trans ?_
    exact (bind_run_pure (show attempt _ files = ⟨[], .ok values⟩ from congrArg (Outcome.mk []) hcollect)).trans rfl

/-- `select` on the condition of one comparison. -/
theorem selectStrings_comparison {table table' : Table} {files : Files} {selected : List Bytes}
    {fieldName operation fieldValue : Bytes} {records : List Nat} {values : List Bytes} (hop : operation ∈ relationalTexts)
    (hname : Plain fieldName) (hvalue : Plain fieldValue) (hvalid : table.validateProjection selected = .ok ())
    (hhelp : ({ table with selectedFields := chosenFields table.fieldNames selected } : Table).selectHelp fieldName operation
      fieldValue files = ⟨[], .ok (records, table')⟩)
    (hcollect : table'.collect (table.permutateFields (chosenFields table.fieldNames selected)) records = .ok values) :
    ∃ b table₂, table.selectStrings selected [fieldName, operation, fieldValue] files = ⟨[], .ok (b, table₂)⟩ ∧
      b.recordIndices = records ∧ b.fieldNames = table.permutateFields (chosenFields table.fieldNames selected) ∧
      b.printQueue = values := by
  unfold Table.selectStrings
  rw [List.map_cons, List.map_cons, List.map_singleton, allocateToken_plain hname, allocateToken_relational hop,
    allocateToken_plain hvalue, toPostfix_comparison]
  exact select_run hvalid ((congrFun (if_pos (List.cons_ne_nil _ _)) files).trans (eval_comparison hhelp)) hcollect

/-- **The two selects return the same records and print the same values; they agree in full if and only if the projection
names every field once.** -/
theorem selectComparison_agrees_iff {table : Table} {files : Files} (h : table.Valid files) {selected : List Bytes}
    (hvalid : table.validateProjection selected = .ok ()) {fieldName operation fieldValue : Bytes}
    (hfield : fieldName ∈ table.fieldNames) (hop : operation ∈ relationalTexts) (hname : Plain fieldName)
    (hvalue : Plain fieldValue) : ∃ a table₁ b table₂,
      table.selectComparison selected fieldName operation fieldValue files = ⟨[], .ok (a, table₁)⟩ ∧
      table.selectStrings selected [fieldName, operation, fieldValue] files = ⟨[], .ok (b, table₂)⟩ ∧
      a.recordIndices = b.recordIndices ∧ a.printQueue = b.printQueue ∧
      (Agree a b ↔ (chosenFields table.fieldNames selected).Perm table.fieldNames) := by
  have hknown := chosenFields_known h hvalid
  have hmem : ∀ name, name ∈ table.permutateFields (chosenFields table.fieldNames selected) ↔
      name ∈ chosenFields table.fieldNames selected := fun name => (permutateFields_spec h hknown).1.mem_iff
  have hselected : ({ table with selectedFields := chosenFields table.fieldNames selected } : Table).Valid files :=
    ⟨h.nodup, h.names_at, h.arity, h.count, h.on_file, h.in_cache⟩
  obtain ⟨cache, hhelp, hcached⟩ := selectHelp_known hselected (getElem?_idxOf hfield) hop fieldValue
  generalize hrecords : matching _ _ _ = records at hhelp
  have hlt : ∀ r ∈ records, r < table.storedRows.length := fun r hr => matching_lt_length (hrecords ▸ hr)
  -- the values are filtered by membership, and the two lists of names have the same members
  have hchosen := collect_eq hcached (chosenFields table.fieldNames selected) hlt
  have hreordered := collect_eq hcached (table.permutateFields (chosenFields table.fieldNames selected)) hlt
  simp only [hmem] at hreordered
  obtain ⟨a, table₁, hfirst, hrecordsA, hnamesA, hvaluesA⟩ := selectComparison_run hvalid hhelp hchosen
  obtain ⟨b, table₂, hsecond, hrecordsB, hnamesB, hvaluesB⟩ :=
    selectStrings_comparison hop hname hvalue hvalid hhelp hreordered
  have hrecordsEq : a.recordIndices = b.recordIndices := hrecordsA.trans hrecordsB.symm
  have hvaluesEq : a.printQueue = b.printQueue := hvaluesA.trans hvaluesB.symm
  refine ⟨a, table₁, b, table₂, hfirst, hsecond, hrecordsEq, hvaluesEq, ?_⟩
  rw [← permutateFields_all_iff h hknown, ← hnamesB]
  refine ⟨fun hagree => hagree.headers.symm.trans hnamesA, fun hheaders => ⟨hrecordsEq, ?_, hvaluesEq⟩⟩
  exact hnamesA.trans hheaders.symm

/-- `select a` on a table with the fields `a` and `b`: one header against two. -/
theorem selectComparison_disagrees : ∃ a table₁ b table₂,
    (Table.filled (ascii "t") [ascii "a", ascii "b"] [[ascii "x", ascii "y"]]).selectComparison [ascii "a"] (ascii "a")
      (ascii "=") (ascii "x") (fun _ => none) = ⟨[], .ok (a, table₁)⟩ ∧
    (Table.filled (ascii "t") [ascii "a", ascii "b"] [[ascii "x", ascii "y"]]).selectStrings [ascii "a"]
      [ascii "a", ascii "=", ascii "x"] (fun _ => none) = ⟨[], .ok (b, table₂)⟩ ∧
    a.fieldNames = [ascii "a", ascii "b"] ∧ b.fieldNames = [ascii "a"] ∧ ¬ Agree a b := by
  refine ⟨_, _, _, _, rfl, rfl, rfl, by decide, fun h => ?_⟩
  exact absurd h.headers (by decide)

/-- The same table with both fields named. -/
theorem selectComparison_agrees_iff_two : ∃ a table₁ b table₂,
    (Table.filled (ascii "t") [ascii "a", ascii "b"] [[ascii "x", ascii "y"]]).selectComparison [ascii "b", ascii "a"]
      (ascii "a") (ascii "=") (ascii "x") (fun _ => none) = ⟨[], .ok (a, table₁)⟩ ∧
    (Table.filled (ascii "t") [ascii "a", ascii "b"] [[ascii "x", ascii "y"]]).selectStrings [ascii "b", ascii "a"]
      [ascii "a", ascii "=", ascii "x"] (fun _ => none) = ⟨[], .ok (b, table₂)⟩ ∧ Agree a b := by
  have hvalid : (Table.filled (ascii "t") [ascii "a", ascii "b"] [[ascii "x", ascii "y"]]).Valid (fun _ => none) :=
    filled_valid (ascii "t") (by decide) (by decide) (fun _ => none)
  obtain ⟨a, table₁, b, table₂, ha, hb, -, -, hiff⟩ := @selectComparison_agrees_iff _ _ hvalid [ascii "b", ascii "a"] rfl
    (ascii "a") (ascii "=") (ascii "x") (by decide) (by decide) (by decide) (by decide)
  exact ⟨a, table₁, b, table₂, ha, hb, hiff.2 (by decide)⟩

end Storage
end Sql
