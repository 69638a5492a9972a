import SqlEngine.Session
/-!
# Relation — what a select says about a table

The abstract side of a query.  A table is the names of its columns and its rows; a condition in postfix form is a formula
or is refused, which the names alone decide (`decode`); the answer is a function of these (`Relation.select`).  A valid
table of either format answers like that, errors included, whatever its files, indexes and caches are
(`selectStrings_run`).
-/
namespace Sql
namespace Query

open Wire Storage

/-- `Eval` on formulas in place of record sets: the formula that a condition in postfix form stands for. -/
def decodeLoop (fieldNames : List Bytes) : List Token → List Bytes → List Formula → Except StorageError Formula
  | [], [], [φ] => .ok φ
  | [], _, _ => .error (.invalidArgument "Malformed WHERE expression")
  | .tokenStr str :: queue, s, φs => decodeLoop fieldNames queue (str :: s) φs
  | .relational operation :: queue, value :: fieldName :: s, φs =>
    if fieldName ∈ fieldNames then decodeLoop fieldNames queue s (.compare fieldName operation value :: φs)
    else .error (.invalidArgument ("Unknown field: " ++ text fieldName))
  | .relational _ :: _, _, _ => .error (.invalidArgument "Malformed relational expression")
  | .logical operation :: queue, s, first :: second :: φs =>
    decodeLoop fieldNames queue s ((if operation = ascii "and" then .and second first else .or second first) :: φs)
  | .logical _ :: _, _, _ => .error (.invalidArgument "Malformed logical expression")
  | .leftParen :: queue, s, φs => decodeLoop fieldNames queue s φs
  | .rightParen :: queue, s, φs => decodeLoop fieldNames queue s φs

def decode (fieldNames : List Bytes) (queue : List Token) : Except StorageError Formula := decodeLoop fieldNames queue [] []

/-- The postfix form of a formula over known columns stands for it. -/
theorem decodeLoop_toPostfix {fieldNames : List Bytes} (φ : Formula) (hfields : ∀ field ∈ φ.fields, field ∈ fieldNames) :
    ∀ (rest : List Token) (s : List Bytes) (φs : List Formula), decodeLoop fieldNames (φ.toPostfix ++ rest) s φs =
      decodeLoop fieldNames rest s (φ :: φs) := by
  induction φ with
  | compare field operation value =>
    intro rest s φs
    rw [Formula.toPostfix, List.cons_append, List.cons_append, List.cons_append, List.nil_append, decodeLoop, decodeLoop,
      decodeLoop, if_pos (hfields field (List.mem_singleton_self field))]
  | and left right ihl ihr =>
    intro rest s φs
    rw [Formula.toPostfix, List.append_assoc, List.append_assoc,
      ihl (fun field hf => hfields field (List.mem_append_left _ hf)),
      ihr (fun field hf => hfields field (List.mem_append_right _ hf)), List.singleton_append, decodeLoop, if_pos rfl]
  | or left right ihl ihr =>
    intro rest s φs
    rw [Formula.toPostfix, List.append_assoc, List.append_assoc,
      ihl (fun field hf => hfields field (List.mem_append_left _ hf)),
      ihr (fun field hf => hfields field (List.mem_append_right _ hf)), List.singleton_append, decodeLoop,
      if_neg (by decide)]

/-- **A condition of the grammar stands for its formula.** -/
theorem decode_derives {fieldNames : List Bytes} {queue : List Token} {φ : Formula} (h : Derives .expression queue φ)
    (hfields : ∀ field ∈ φ.fields, field ∈ fieldNames) : ∃ postfixQueue, toPostfix queue = some postfixQueue ∧
      postfixQueue ≠ [] ∧ decode fieldNames postfixQueue = .ok φ := by
  refine ⟨φ.toPostfix, toPostfix_derives h, ?_, ?_⟩
  · cases φ <;> simp [Formula.toPostfix]
  · have hrun := decodeLoop_toPostfix φ hfields [] [] []
    rw [List.append_nil] at hrun
    rw [decode, hrun, decodeLoop]

/-- The operators of a condition that was typed from its texts. -/
def Operators (queue : List Token) : Prop :=
  (∀ operation, Token.relational operation ∈ queue → operation ∈ relationalTexts) ∧
    ∀ operation, Token.logical operation ∈ queue → operation = ascii "and" ∨ operation = ascii "or"

theorem Operators.tail {token : Token} {queue : List Token} (h : Operators (token :: queue)) : Operators queue :=
  ⟨fun operation hm => h.1 operation (List.mem_cons_of_mem _ hm),
    fun operation hm => h.2 operation (List.mem_cons_of_mem _ hm)⟩

theorem operators_allocated (expression : List Bytes) : Operators (expression.map Table.allocateToken) := by
  refine ⟨fun operation hm => ?_, fun operation hm => ?_⟩
  all_goals
    obtain ⟨str, -, hstr⟩ := List.mem_map.1 hm
    unfold Table.allocateToken at hstr
    split_ifs at hstr
    cases hstr
    assumption

/-- The conversion makes no operator. -/
theorem operators_toPostfix {queue postfixQueue : List Token} (h : Operators queue)
    (hrun : toPostfix queue = some postfixQueue) : Operators postfixQueue := by
  have hmem : ∀ token ∈ postfixQueue, token ∈ queue := fun token ht => by
    rcases shuntingYard_any queue [] [] (fun t ht => by cases ht) with ⟨hnone, -⟩ | ⟨out, hout, -, hcount, -⟩
    · cases hnone.symm.trans hrun
    · cases hout.symm.trans hrun
      have hpos := List.count_pos_iff.2 ht
      rw [hcount token] at hpos
      have hcontent : token ∈ content queue := List.count_pos_iff.1 (by simpa [content] using hpos)
      exact (List.mem_filter.1 hcontent).1
  exact ⟨fun operation hm => h.1 operation (hmem _ hm), fun operation hm => h.2 operation (hmem _ hm)⟩

end Query

namespace Storage

open Wire Effects Query

/-! ## Records -/

/-- The records that a formula selects: one comparison by value first, anything else in their order. -/
def records (fieldNames : List Bytes) (rows : List (List Bytes)) : Formula → List Nat
  | .compare field operation value => matching rows (fieldNames.idxOf field) (satisfies operation value)
  | φ => (List.range rows.length).filter (fun record => φ.holds fieldNames (rows.getD record []))

section
variable (fieldNames : List Bytes) (rows : List (List Bytes))

theorem mem_filter_holds {φ : Formula} {record : Nat} :
    record ∈ (List.range rows.length).filter (fun record => φ.holds fieldNames (rows.getD record [])) ↔
      ∃ row, rows[record]? = some row ∧ φ.holds fieldNames row = true := by
  rw [List.mem_filter, List.mem_range]
  constructor
  · rintro ⟨hlt, hholds⟩
    refine ⟨rows[record], List.getElem?_eq_getElem hlt, ?_⟩
    rwa [List.getD_eq_getElem?_getD, List.getElem?_eq_getElem hlt, Option.getD_some] at hholds
  · rintro ⟨row, hrow, hholds⟩
    refine ⟨lt_of_getElem?_some hrow, ?_⟩
    rwa [List.getD_eq_getElem?_getD, hrow, Option.getD_some]

/-- **The records of a formula** are those that satisfy it, each once. -/
theorem records_selects (φ : Formula) : Selects fieldNames rows φ (records fieldNames rows φ) := by
  have hfiltered : Selects fieldNames rows φ
      ((List.range rows.length).filter (fun record => φ.holds fieldNames (rows.getD record []))) :=
    ⟨List.nodup_range.filter _, fun _ => mem_filter_holds fieldNames rows, fun _ => List.pairwise_lt_range.filter _⟩
  cases φ with
  | compare field operation value =>
    exact ⟨matching_nodup _ _ _, fun record => mem_matching, fun h => absurd rfl (h field operation value)⟩
  | and left right => exact hfiltered
  | or left right => exact hfiltered

/-- Two ascending selections by one condition are equal. -/
theorem ascending_unique {as bs : List Nat} (ha : as.Pairwise (· < ·)) (hb : bs.Pairwise (· < ·))
    (h : ∀ record, record ∈ as ↔ record ∈ bs) : as = bs :=
  BTree.eq_of_perm_of_sorted ((List.perm_ext_iff_of_nodup (ha.imp Nat.ne_of_lt) (hb.imp Nat.ne_of_lt)).2 h)
    (ha.imp Nat.le_of_lt) (hb.imp Nat.le_of_lt)

/-- **What `Eval` makes of two record sets** is the record set of the two formulas. -/
theorem combine_records {operation : Bytes} (h : operation = ascii "and" ∨ operation = ascii "or") (first second : Formula) :
    combine operation (records fieldNames rows first) (records fieldNames rows second) =
      records fieldNames rows (if operation = ascii "and" then .and second first else .or second first) := by
  have hfirst := records_selects fieldNames rows first
  have hsecond := records_selects fieldNames rows second
  rcases h with rfl | rfl
  · have hand := records_selects fieldNames rows (.and second first)
    rw [combine, if_neg (by decide), if_pos rfl, if_pos rfl]
    refine ascending_unique (myIntersection_sorted hfirst.nodup _) (hand.ascending (fun _ _ _ heq => by cases heq))
      (fun record => ?_)
    rw [mem_myIntersection hfirst.nodup hsecond.nodup, hfirst.mem, hsecond.mem, hand.mem]
    constructor
    · rintro ⟨⟨row, hrow, hholds⟩, row', hrow', hholds'⟩
      obtain rfl : row = row' := Option.some.inj (hrow.symm.trans hrow')
      exact ⟨row, hrow, by rw [Formula.holds, hholds, hholds', Bool.and_self]⟩
    · rintro ⟨row, hrow, hholds⟩
      rw [Formula.holds, Bool.and_eq_true] at hholds
      exact ⟨⟨row, hrow, hholds.2⟩, row, hrow, hholds.1⟩
  · have hor := records_selects fieldNames rows (.or second first)
    rw [combine, if_pos rfl, if_neg (by decide)]
    refine ascending_unique (myUnion_sorted _ _) (hor.ascending (fun _ _ _ heq => by cases heq)) (fun record => ?_)
    rw [mem_myUnion, hfirst.mem, hsecond.mem, hor.mem]
    constructor
    · rintro (⟨row, hrow, hholds⟩ | ⟨row, hrow, hholds⟩)
      · exact ⟨row, hrow, by rw [Formula.holds, hholds, Bool.or_true]⟩
      · exact ⟨row, hrow, by rw [Formula.holds, hholds, Bool.true_or]⟩
    · rintro ⟨row, hrow, hholds⟩
      rw [Formula.holds, Bool.or_eq_true] at hholds
      exact hholds.symm.imp (fun h => ⟨row, hrow, h⟩) (fun h => ⟨row, hrow, h⟩)

end

/-! ## Eval -/

/-- An unknown name stops the comparison. -/
theorem selectHelp_unknown {table : Table} {files : Files} (h : table.Valid files) {fieldName : Bytes}
    (hname : fieldName ∉ table.fieldNames) (operation value : Bytes) : table.selectHelp fieldName operation value files =
      ⟨[], .error (.invalidArgument ("Unknown field: " ++ text fieldName))⟩ := by
  have hunknown : table.fieldNameMap.contains fieldName = false :=
    Bool.eq_false_iff.2 (fun hc => hname ((h.contains fieldName).1 hc))
  unfold Table.selectHelp
  rw [throwIf, if_pos hunknown]
  rfl

/-- **`Eval` runs over the record sets of formulas** as the decoding runs over the formulas. -/
theorem evalLoop_decode {files : Files} : ∀ {queue : List Token} {table : Table} (s : List Bytes) (φs : List Formula),
    table.Valid files → Operators queue →
    (∃ e, decodeLoop table.fieldNames queue s φs = .error e ∧
      Table.evalLoop queue s (φs.map (records table.fieldNames table.storedRows)) table files = ⟨[], .error e⟩) ∨
    ∃ φ cache, decodeLoop table.fieldNames queue s φs = .ok φ ∧ ({ table with cache := cache } : Table).Valid files ∧
      Table.evalLoop queue s (φs.map (records table.fieldNames table.storedRows)) table files =
        ⟨[], .ok (records table.fieldNames table.storedRows φ, { table with cache := cache })⟩ := by
  intro queue
  induction queue with
  | nil =>
    intro table s φs h _
    cases s with
    | cons str s => exact Or.inl ⟨_, by rw [decodeLoop]; simp, by rw [Table.evalLoop]; rfl; simp⟩
    | nil =>
      rcases φs with _ | ⟨φ, _ | ⟨second, φs⟩⟩
      · exact Or.inl ⟨_, by rw [decodeLoop]; simp, by rw [List.map_nil, Table.evalLoop]; rfl; simp⟩
      · exact Or.inr ⟨φ, table.cache, rfl, h, by rw [List.map_singleton, Table.evalLoop]; rfl⟩
      · exact Or.inl ⟨_, by rw [decodeLoop]; simp, by rw [List.map_cons, List.map_cons, Table.evalLoop]; rfl; simp⟩
  | cons token queue ih =>
    intro table s φs h hops
    cases token with
    | tokenStr str =>
      rw [decodeLoop, Table.evalLoop]
      exact ih _ _ h hops.tail
    | leftParen =>
      rw [decodeLoop, Table.evalLoop]
      exact ih _ _ h hops.tail
    | rightParen =>
      rw [decodeLoop, Table.evalLoop]
      exact ih _ _ h hops.tail
    | relational operation =>
      rcases s with _ | ⟨value, _ | ⟨name, s⟩⟩
      · exact Or.inl ⟨_, by rw [decodeLoop]; simp, by rw [Table.evalLoop]; rfl; simp⟩
      · exact Or.inl ⟨_, by rw [decodeLoop]; simp, by rw [Table.evalLoop]; rfl; simp⟩
      · rw [decodeLoop, Table.evalLoop]
        by_cases hname : name ∈ table.fieldNames
        · obtain ⟨cache, hselect, hvalid⟩ :=
            selectHelp_known h (getElem?_idxOf hname) (hops.1 operation List.mem_cons_self) value
          rw [if_pos hname, bind_run_pure hselect]
          exact ih s (.compare name operation value :: φs) hvalid hops.tail
        · rw [if_neg hname, bind_run_error (selectHelp_unknown h hname operation value)]
          exact Or.inl ⟨_, rfl, rfl⟩
    | logical operation =>
      rcases φs with _ | ⟨first, _ | ⟨second, φs⟩⟩
      · exact Or.inl ⟨_, by rw [decodeLoop]; simp, by rw [List.map_nil, Table.evalLoop]; rfl; simp⟩
      · exact Or.inl ⟨_, by rw [decodeLoop]; simp, by rw [List.map_singleton, Table.evalLoop]; rfl; simp⟩
      · have hcombine := combine_records table.fieldNames table.storedRows (hops.2 operation List.mem_cons_self) first second
        rw [decodeLoop, List.map_cons, List.map_cons, Table.evalLoop]
        rw [combine] at hcombine
        rw [hcombine]
        exact ih s _ h hops.tail

/-! ## Relations -/

/-- A table to who asks it. -/
structure Relation where
  fieldNames : List Bytes
  rows : List (List Bytes)
  deriving DecidableEq

namespace Relation

/-- The columns that are asked for in the order of the table, each as often as it is asked for. -/
def columns (r : Relation) (chosen : List Bytes) : List Bytes :=
  r.fieldNames.flatMap (fun name => List.replicate (chosen.count name) name)

/-- `validate_projection`. -/
def checkColumns (r : Relation) (selected : List Bytes) : Except StorageError Unit :=
  if selected = [] ∨ selected = [ascii "*"] then .ok ()
  else selected.forM (fun field => throwIf (field ∉ r.fieldNames)
    (.invalidArgument ("Unknown selected field: " ++ text field)))

/-- The records that meet a condition in postfix form; without a condition, all of them. -/
def selected (r : Relation) (postfixQueue : List Token) : Except StorageError (List Nat) :=
  if postfixQueue = [] then .ok (List.range r.rows.length)
  else (decode r.fieldNames postfixQueue).map (records r.fieldNames r.rows)

/-- The values of a record in the columns that are shown. -/
def shown (r : Relation) (columns : List Bytes) (record : Nat) : List Bytes :=
  (r.fieldNames.filter (fun name => decide (name ∈ columns))).map (cell r.fieldNames (r.rows.getD record []))

/-- The answer to a condition in postfix form. -/
def answer (r : Relation) (tableName : Bytes) (projection : List Bytes) (postfixQueue : List Token) :
    Except StorageError Table := do
  r.checkColumns projection
  let chosen := chosenFields r.fieldNames projection
  let records ← r.selected postfixQueue
  pure { Table.new with
    tableName := tableName
    fieldNames := r.columns chosen
    selectedFields := chosen
    numRecords := r.rows.length
    recordIndices := records
    printQueue := records.flatMap (r.shown (r.columns chosen)) }

/-- **The answer of a select**, or why it is refused. -/
def select (r : Relation) (tableName : Bytes) (projection expression : List Bytes) : Except StorageError Table :=
  match toPostfix (expression.map Table.allocateToken) with
  | none => .error (.invalidArgument "Invalid parenthesis structure in WHERE clause")
  | some postfixQueue => r.answer tableName projection postfixQueue

theorem columns_sorted {r : Relation} (hnd : r.fieldNames.Nodup) (chosen : List Bytes) :
    ((r.columns chosen).map r.fieldNames.idxOf).Pairwise (· ≤ ·) := by
  have hrange : r.fieldNames.Pairwise (fun a b => r.fieldNames.idxOf a < r.fieldNames.idxOf b) := by
    rw [← List.pairwise_map, map_idxOf hnd]
    exact List.pairwise_lt_range
  rw [List.pairwise_map, columns, List.pairwise_flatMap]
  refine ⟨fun name _ => ?_, hrange.imp (fun {a b} hlt x hx y hy => ?_)⟩
  · exact List.pairwise_replicate.2 (Or.inr (Nat.le_refl _))
  · rw [List.eq_of_mem_replicate hx, List.eq_of_mem_replicate hy]
    exact hlt.le

theorem columns_perm {r : Relation} (hnd : r.fieldNames.Nodup) {chosen : List Bytes}
    (hknown : ∀ name ∈ chosen, name ∈ r.fieldNames) : (r.columns chosen).Perm chosen := by
  refine List.perm_iff_count.2 (fun name => ?_)
  have hcount : ∀ names : List Bytes, names.Nodup →
      (names.flatMap (fun name => List.replicate (chosen.count name) name)).count name =
        if name ∈ names then chosen.count name else 0 := by
    intro names
    induction names with
    | nil => exact fun _ => rfl
    | cons first names ih =>
      intro hnd
      obtain ⟨hfirst, hnames⟩ := List.nodup_cons.1 hnd
      rw [List.flatMap_cons, List.count_append, ih hnames, List.count_replicate]
      by_cases heq : first = name
      · subst heq
        simp [hfirst]
      · simp [heq, Ne.symm heq]
  rw [columns, hcount _ hnd]
  by_cases hname : name ∈ r.fieldNames
  · rw [if_pos hname]
  · rw [if_neg hname, List.count_eq_zero_of_not_mem (fun hm => hname (hknown name hm))]

end Relation

/-- What a table shows. -/
def Table.relation (table : Table) : Relation := ⟨table.fieldNames, table.storedRows⟩

section
variable {table : Table} {files : Files} (h : table.Valid files)
include h

theorem permutateFields_columns {chosen : List Bytes} (hknown : ∀ name ∈ chosen, name ∈ table.fieldNames) :
    table.permutateFields chosen = table.relation.columns chosen := by
  obtain ⟨hperm, hsorted⟩ := permutateFields_spec h hknown
  have hcolumns := Relation.columns_perm (r := table.relation) h.nodup hknown
  refine eq_of_map_idxOf (fun a ha => hknown a (hperm.mem_iff.1 ha))
    (fun b hb => hknown b (hcolumns.mem_iff.1 hb)) ?_
  exact BTree.eq_of_perm_of_sorted ((hperm.trans hcolumns.symm).map _) hsorted
    (Relation.columns_sorted (r := table.relation) h.nodup chosen)

theorem validateProjection_relation (projection : List Bytes) :
    table.validateProjection projection = table.relation.checkColumns projection := by
  unfold Table.validateProjection Relation.checkColumns
  have hcheck : ∀ field, (table.fieldNameMap.contains field = false) = (field ∉ table.relation.fieldNames) := fun field =>
    propext (by rw [← Bool.not_eq_true, not_congr (h.contains field)]; rfl)
  simp only [throwIf, hcheck]

end

/-- The end of a select that knows its records. -/
theorem collected_relation {t : Table} {files : Files} (h : t.Valid files) {names : List Bytes} {indices : List Nat}
    (hlt : ∀ record ∈ indices, record < t.storedRows.length) (f : List Bytes → Table × Table) :
    (do
      let values ← attempt (t.collect names indices)
      pure (f values) : FileCall (Table × Table)) files =
        ⟨[], .ok (f (indices.flatMap (t.relation.shown names)))⟩ := by
  rw [collect_eq h names hlt, attempt_ok_bind]
  rfl

/-- **A select answers what the relation says**, and changes no file. -/
theorem select_relation {table : Table} {files : Files} (h : table.Valid files) {projection : List Bytes}
    {postfixQueue : List Token} (hops : Operators postfixQueue) :
    (table.select projection postfixQueue files).effects = [] ∧
      (table.select projection postfixQueue files).result.map Prod.fst =
        table.relation.answer table.tableName projection postfixQueue := by
  unfold Table.select Relation.answer
  rw [← validateProjection_relation h]
  cases hvalidate : table.validateProjection projection with
  | error e => exact ⟨rfl, rfl⟩
  | ok u =>
    have hcolumns := permutateFields_columns h (chosenFields_known h hvalidate)
    have hnoted := h.noted (chosenFields table.fieldNames projection) table.recordIndices
    rw [attempt_ok_bind, except_ok_bind]
    change (_ : List FileEffect) = [] ∧ _ = (do
      let records ← table.relation.selected postfixQueue
      pure _ : Except StorageError Table)
    rw [chosenFields] at hcolumns hnoted
    rw [hcolumns]
    by_cases hempty : postfixQueue = []
    · have hlt : ∀ record ∈ List.range table.numRecords, record < table.storedRows.length := fun record hr => by
        rw [← h.count]
        exact List.mem_range.1 hr
      rw [Relation.selected, if_pos hempty, if_neg (not_not.2 hempty), bind_run_pure (pure_run _ files)]
      dsimp only
      rw [collected_relation hnoted hlt, h.count]
      exact ⟨rfl, rfl⟩
    · rw [Relation.selected, if_neg hempty, if_pos hempty]
      rcases evalLoop_decode [] [] hnoted hops with ⟨e, hdecode, heval⟩ | ⟨φ, cache, hdecode, hvalid, heval⟩
      · rw [decode, show decodeLoop table.relation.fieldNames postfixQueue [] [] = .error e from hdecode,
          bind_run_error (show Table.eval _ postfixQueue files = ⟨[], .error e⟩ from heval)]
        exact ⟨rfl, rfl⟩
      · have hlt : ∀ record ∈ records table.fieldNames table.storedRows φ, record < table.storedRows.length :=
          fun record hr => by
            obtain ⟨row, hrow, -⟩ := ((records_selects table.fieldNames table.storedRows φ).mem record).1 hr
            exact lt_of_getElem?_some hrow
        rw [decode, show decodeLoop table.relation.fieldNames postfixQueue [] [] = .ok φ from hdecode,
          bind_run_pure (show Table.eval _ postfixQueue files = ⟨[], .ok _⟩ from heval)]
        dsimp only
        rw [collected_relation hvalid hlt, h.count]
        exact ⟨rfl, rfl⟩

/-- **A select on texts answers what the relation says**: the columns, the records, the values and the errors depend on the
names and the rows of the table, on nothing else. -/
theorem selectStrings_relation {table : Table} {files : Files} (h : table.Valid files) (projection expression : List Bytes) :
    (table.selectStrings projection expression files).effects = [] ∧
      (table.selectStrings projection expression files).result.map Prod.fst =
        table.relation.select table.tableName projection expression := by
  unfold Table.selectStrings Relation.select
  cases hqueue : toPostfix (expression.map Table.allocateToken) with
  | none => exact ⟨rfl, rfl⟩
  | some postfixQueue => exact select_relation h (operators_toPostfix (operators_allocated expression) hqueue)

end Storage
end Sql
