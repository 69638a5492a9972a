import SqlEngine.Overloads
import SqlEngine.Accepted
/-!
# Session — a table object that lives on

Inserts and selects on one object of a v2 table.  Record numbers come from the file, values from the object: `Table.Valid`
is the invariant that keeps them together, whatever the calls are (`TableStep.valid`).  What a select answers depends on the part
of the object that opening the table again rebuilds (`SameView`, `Query.run_alike`).
-/
namespace Sql
namespace Storage

open Wire Effects Maps Query

/-! ## Calls -/

/-- The selects of a table. -/
inductive Select where
  | tokens (selected : List Bytes) (expression : List Token)
  | strings (selected expression : List Bytes)
  | comparison (selected : List Bytes) (fieldName operation fieldValue : Bytes)

def Select.run (table : Table) : Select → FileCall (Table × Table)
  | tokens selected expression => table.select selected expression
  | strings selected expression => table.selectStrings selected expression
  | comparison selected fieldName operation fieldValue => table.selectComparison selected fieldName operation fieldValue

inductive TableCall where
  | insert (fieldValues : List Bytes)
  | select (query : Select)

/-- One call on an object, and the object after it.  A select that throws may have noted fields and records by then. -/
inductive TableStep : Table × Files → TableCall → Table × Files → Prop where
  | inserted {table table' : Table} {files : Files} {fieldValues : List Bytes} {es : List FileEffect} {str : Bytes}
      (h : table.insertInto fieldValues files = ⟨es, .ok (str, table')⟩) :
      TableStep (table, files) (.insert fieldValues) (table', after files es)
  | refused {table : Table} {files : Files} {fieldValues : List Bytes} {es : List FileEffect} {e : StorageError}
      (h : table.insertInto fieldValues files = ⟨es, .error e⟩) :
      TableStep (table, files) (.insert fieldValues) (table, after files es)
  | selected {table table' result : Table} {files : Files} {query : Select} {es : List FileEffect}
      (h : query.run table files = ⟨es, .ok (result, table')⟩) : TableStep (table, files) (.select query)
        (table', after files es)
  | rejected {table : Table} {files : Files} {query : Select} {es : List FileEffect} {e : StorageError}
      (selectedFields : List Bytes) (recordIndices : List Nat) (h : query.run table files = ⟨es, .error e⟩) :
      TableStep (table, files) (.select query)
        ({ table with selectedFields := selectedFields, recordIndices := recordIndices }, after files es)

/-- Calls one after another. -/
inductive Session : Table × Files → List TableCall → Table × Files → Prop where
  | start (s : Table × Files) : Session s [] s
  | call {s t u : Table × Files} {calls : List TableCall} {call : TableCall} (h : Session s calls t)
    (hstep : TableStep t call u) :
      Session s (calls ++ [call]) u

/-! ## What a select may throw -/

theorem matchEntries_error {operation value : Bytes} {e : StorageError} : ∀ {entries : List Entry},
    matchEntries operation value entries = .error e → ∃ what, e = .invalidArgument what
  | entry :: entries, h => by
    rw [matchEntries] at h
    cases hcompare : compareValues operation entry.key value with
    | none =>
      rw [hcompare] at h
      exact ⟨_, (Except.error.inj h).symm⟩
    | some isMatch =>
      rw [hcompare] at h
      rcases except_bind_error.1 h with h | ⟨records, -, h⟩
      · exact matchEntries_error h
      · cases h

theorem selectHelp_error {table : Table} {files : Files} (h : table.Valid files) (hv2 : table.usesV2Storage = true)
    {fieldName operation fieldValue : Bytes} {es : List FileEffect} {e : StorageError}
    (he : table.selectHelp fieldName operation fieldValue files = ⟨es, .error e⟩) : es = [] ∧
      ∃ what, e = .invalidArgument what := by
  by_cases hname : fieldName ∈ table.fieldNames
  · by_cases hop : operation ∈ relationalTexts
    · obtain ⟨cache, hrun, -⟩ := selectHelp_known h (getElem?_idxOf hname) hop fieldValue
      rw [hrun] at he
      cases he
    · -- an unknown operator: the first entry of the index refuses it
      obtain ⟨loaded, hopen, -, -, hindex⟩ := h.openTable hv2
      have hlt := lt_of_getElem?_some (getElem?_idxOf hname)
      have hquery := queryIndex_run hopen (hindex _ hlt) operation fieldValue
      unfold Table.selectHelp at he
      rw [throwIf_neg (by simp [(h.contains fieldName).2 hname]), attempt_ok_bind, if_pos hv2, lookup_idxOf h hname,
        Option.getD_some] at he
      have hdisk := onDisk_run hquery
      cases hmatch : matchEntries operation fieldValue (sortedIndex table.storedRows (table.fieldNames.idxOf fieldName)) with
      | error e' =>
        rw [hmatch] at hdisk
        rw [bind_run_error hdisk] at he
        cases he
        exact ⟨rfl, matchEntries_error hmatch⟩
      | ok records =>
        obtain rfl := matchEntries_returned hop hmatch
        rw [hmatch] at hdisk
        rw [bind_run_pure hdisk, throwIf_neg (by simp)] at he
        cases he
  · have hunknown : table.fieldNameMap.contains fieldName = false :=
      Bool.eq_false_iff.2 (fun hc => hname ((h.contains fieldName).1 hc))
    unfold Table.selectHelp at he
    rw [throwIf, if_pos hunknown] at he
    cases he
    exact ⟨rfl, _, rfl⟩

/-- An evaluation throws nothing but `invalid_argument`, and changes no file. -/
theorem evalLoop_error {files : Files} {e : StorageError} : ∀ {queue : List Token} {s : List Bytes}
    {indices : List (List Nat)} {table : Table} {es : List FileEffect}, table.Valid files → table.usesV2Storage = true →
    Table.evalLoop queue s indices table files = ⟨es, .error e⟩ → es = [] ∧ ∃ what, e = .invalidArgument what := by
  have hmalformed : ∀ {what : String} {es : List FileEffect},
      (attempt (.error (.invalidArgument what)) : FileCall (List Nat × Table)) files = ⟨es, .error e⟩ →
      es = [] ∧ ∃ what, e = .invalidArgument what := fun {what es} h => by
    cases h
    exact ⟨rfl, what, rfl⟩
  intro queue
  induction queue with
  | nil =>
    intro s indices table es h hv2 he
    cases s with
    | cons str s =>
      rw [Table.evalLoop] at he
      · exact hmalformed he
      · simp
    | nil =>
      rcases indices with _ | ⟨result, _ | ⟨second, indices⟩⟩
      · rw [Table.evalLoop] at he
        · exact hmalformed he
        · simp
      · rw [Table.evalLoop] at he
        cases he
      · rw [Table.evalLoop] at he
        · exact hmalformed he
        · simp
  | cons token queue ih =>
    intro s indices table es h hv2 he
    cases token with
    | tokenStr str =>
      rw [Table.evalLoop] at he
      exact ih h hv2 he
    | leftParen =>
      rw [Table.evalLoop] at he
      exact ih h hv2 he
    | rightParen =>
      rw [Table.evalLoop] at he
      exact ih h hv2 he
    | relational operation =>
      rcases s with _ | ⟨value, _ | ⟨name, s⟩⟩
      · rw [Table.evalLoop] at he
        · exact hmalformed he
        · simp
      · rw [Table.evalLoop] at he
        · exact hmalformed he
        · simp
      · rw [Table.evalLoop] at he
        rcases run_bind_error.1 he with he | ⟨es₁, ⟨records, table₁⟩, es₂, hselect, hrest, rfl⟩
        · exact selectHelp_error h hv2 he
        · obtain ⟨rfl, cache, rfl, hvalid, -⟩ := selectHelp_returned h hselect
          exact ih hvalid hv2 hrest
    | logical operation =>
      rcases indices with _ | ⟨first, _ | ⟨second, indices⟩⟩
      · rw [Table.evalLoop] at he
        · exact hmalformed he
        · simp
      · rw [Table.evalLoop] at he
        · exact hmalformed he
        · simp
      · rw [Table.evalLoop] at he
        exact ih h hv2 he

theorem forM_error {α : Type} {f : α → Except StorageError Unit} {e : StorageError} : ∀ {l : List α},
    l.forM f = .error e → ∃ a ∈ l, f a = .error e
  | a :: l, h => by
    rcases except_bind_error.1 (show f a >>= (fun _ => l.forM f) = .error e from h) with ha | ⟨_, -, hl⟩
    · exact ⟨a, List.mem_cons_self, ha⟩
    · obtain ⟨b, hb, hfb⟩ := forM_error hl
      exact ⟨b, List.mem_cons_of_mem a hb, hfb⟩

theorem validateProjection_error {table : Table} {selected : List Bytes} {e : StorageError}
    (h : table.validateProjection selected = .error e) : ∃ what, e = .invalidArgument what := by
  unfold Table.validateProjection at h
  by_cases hall : selected = [] ∨ selected = [ascii "*"]
  · rw [if_pos hall] at h
    cases h
  · rw [if_neg hall] at h
    obtain ⟨field, -, hfield⟩ := forM_error h
    exact ⟨_, (throwIf_error.1 hfield).2.symm⟩

/-- Records within the table are collected. -/
theorem collect_returns {table : Table} {files : Files} (h : table.Valid files) {names : List Bytes} {indices : List Nat}
    (hlt : ∀ r ∈ indices, r < table.storedRows.length) {e : StorageError} : table.collect names indices ≠ .error e :=
      fun he => by
  rw [collect_eq h names hlt] at he
  cases he

theorem Table.Valid.noted {table : Table} {files : Files} (h : table.Valid files) (selectedFields : List Bytes)
    (recordIndices : List Nat) :
    ({ table with selectedFields := selectedFields, recordIndices := recordIndices } : Table).Valid files :=
  ⟨h.nodup, h.names_at, h.arity, h.count, h.on_file, h.in_cache⟩

theorem select_error {table : Table} {files : Files} (h : table.Valid files) (hv2 : table.usesV2Storage = true)
    {selected : List Bytes} {expression : List Token} {es : List FileEffect} {e : StorageError}
    (he : table.select selected expression files = ⟨es, .error e⟩) : es = [] ∧ ∃ what, e = .invalidArgument what := by
  have hnoted := h.noted (chosenFields table.fieldNames selected) table.recordIndices
  unfold Table.select at he
  rcases run_bind_error.1 he with h1 | ⟨es₁, _, es₂, hvalidate, h1, rfl⟩
  · obtain ⟨hvalidate, rfl⟩ := attempt_error.1 h1
    exact ⟨rfl, validateProjection_error hvalidate⟩
  obtain ⟨-, rfl⟩ := attempt_ok.1 hvalidate
  by_cases hempty : expression = []
  · subst hempty
    rw [if_neg (by simp)] at h1
    rcases run_bind_error.1 h1 with h2 | ⟨es₃, _, es₄, hall, h2, rfl⟩
    · cases h2
    obtain ⟨rfl, rfl⟩ := return_ok.1 hall
    rcases run_bind_error.1 h2 with h3 | ⟨es₃, _, es₅, -, h3, -⟩
    · refine absurd (attempt_error.1 h3).1 (collect_returns hnoted (fun r hr => ?_))
      rw [← h.count]
      exact List.mem_range.1 hr
    · cases h3
  · rw [if_pos hempty] at h1
    rcases run_bind_error.1 h1 with h2 | ⟨es₃, ⟨indices, table₁⟩, es₄, heval, h2, rfl⟩
    · exact evalLoop_error hnoted hv2 h2
    obtain ⟨rfl, ⟨cache, rfl⟩, hvalid, hlt, -⟩ := evalLoop_returned hnoted (fun records hrec => by cases hrec) heval
    rcases run_bind_error.1 h2 with h3 | ⟨es₃, _, es₅, -, h3, -⟩
    · exact absurd (attempt_error.1 h3).1 (collect_returns hvalid hlt)
    · cases h3

theorem selectComparison_error {table : Table} {files : Files} (h : table.Valid files) (hv2 : table.usesV2Storage = true)
    {selected : List Bytes} {fieldName operation fieldValue : Bytes} {es : List FileEffect} {e : StorageError}
    (he : table.selectComparison selected fieldName operation fieldValue files = ⟨es, .error e⟩) :
    es = [] ∧ ∃ what, e = .invalidArgument what := by
  have hnoted := h.noted (chosenFields table.fieldNames selected) table.recordIndices
  unfold Table.selectComparison at he
  rcases run_bind_error.1 he with h1 | ⟨es₁, _, es₂, hvalidate, h1, rfl⟩
  · obtain ⟨hvalidate, rfl⟩ := attempt_error.1 h1
    exact ⟨rfl, validateProjection_error hvalidate⟩
  obtain ⟨-, rfl⟩ := attempt_ok.1 hvalidate
  rcases run_bind_error.1 h1 with h2 | ⟨es₃, ⟨indices, table₁⟩, es₄, hhelp, h2, rfl⟩
  · exact selectHelp_error hnoted hv2 h2
  obtain ⟨rfl, cache, rfl, hvalid, rfl⟩ := selectHelp_returned hnoted hhelp
  rcases run_bind_error.1 h2 with h3 | ⟨es₃, _, es₅, -, h3, -⟩
  · exact absurd (attempt_error.1 h3).1 (collect_returns (hvalid.noted _ _) (fun r hr => matching_lt_length hr))
  · cases h3

/-- **On a table in step with its file a select throws nothing but `invalid_argument`.** -/
theorem Select.run_error {table : Table} {files : Files} (h : table.Valid files) (hv2 : table.usesV2Storage = true)
    {query : Select} {es : List FileEffect} {e : StorageError} (he : query.run table files = ⟨es, .error e⟩) :
    es = [] ∧ ∃ what, e = .invalidArgument what := by
  cases query with
  | tokens selected expression => exact select_error h hv2 he
  | comparison selected fieldName operation fieldValue => exact selectComparison_error h hv2 he
  | strings selected expression =>
    rw [Select.run, Table.selectStrings] at he
    cases hqueue : toPostfix (expression.map Table.allocateToken) with
    | none =>
      rw [hqueue] at he
      cases he
      exact ⟨rfl, _, rfl⟩
    | some postfixQueue =>
      rw [hqueue] at he
      exact select_error h hv2 he

/-! ## What a select depends on -/

/-- The table with other notes: what a select leaves in it, and what only printing reads. -/
def Table.noting (table : Table) (selectedFields : List Bytes) (recordIndices : List Nat)
    (cache : OrderedMap Bytes (MMap Bytes Nat)) (printQueue : List Bytes) : Table :=
  { table with
    selectedFields := selectedFields
    recordIndices := recordIndices
    cache := cache
    printQueue := printQueue }

/-- **The same table up to its notes.** -/
def SameView (table t : Table) : Prop :=
  ∃ selectedFields recordIndices cache printQueue, t = table.noting selectedFields recordIndices cache printQueue

theorem SameView.refl (table : Table) : SameView table table := ⟨_, _, _, _, rfl⟩

theorem SameView.valid {table t : Table} {files : Files} (h : SameView table t) (hv2 : table.usesV2Storage = true)
    (hvalid : table.Valid files) : t.Valid files := by
  obtain ⟨_, _, _, _, rfl⟩ := h
  exact ⟨hvalid.nodup, hvalid.names_at, hvalid.arity, hvalid.count, hvalid.on_file,
    fun hv1 => absurd (hv1.symm.trans hv2) Bool.false_ne_true⟩

section
variable {table : Table} (hv2 : table.usesV2Storage = true)
include hv2

/-- The same answer, and two tables that still show what `table` shows. -/
def SameAnswer {α : Type} (table : Table) (x y : α × Table) : Prop :=
  x.1 = y.1 ∧ SameView table x.2 ∧ SameView table y.2

theorem selectHelp_alike {t u : Table} (ht : SameView table t) (hu : SameView table u)
    (fieldName operation fieldValue : Bytes) : Alike (SameAnswer table) (t.selectHelp fieldName operation fieldValue)
      (u.selectHelp fieldName operation fieldValue) := by
  have hparts : ∀ {t : Table}, SameView table t → t.usesV2Storage = true ∧ t.fieldNameMap = table.fieldNameMap ∧
      t.tableName = table.tableName := fun ⟨_, _, _, _, h⟩ => by
    subst h
    exact ⟨hv2, rfl, rfl⟩
  obtain ⟨ht2, htmap, htname⟩ := hparts ht
  obtain ⟨hu2, humap, huname⟩ := hparts hu
  unfold Table.selectHelp
  rw [htmap, humap, htname, huname, if_pos ht2, if_pos hu2]
  refine (Alike.refl _).bind (fun _ _ _ => (Alike.refl _).bind ?_)
  rintro records _ rfl
  exact (Alike.refl _).bind (fun _ _ _ => Alike.return ⟨rfl, ht, hu⟩)

theorem evalLoop_alike : ∀ (queue : List Token) (s : List Bytes) (indices : List (List Nat)) {t u : Table},
    SameView table t → SameView table u →
    Alike (SameAnswer table) (Table.evalLoop queue s indices t) (Table.evalLoop queue s indices u) := by
  have hmalformed : ∀ what : String, Alike (SameAnswer table)
      (attempt (.error (.invalidArgument what)) : FileCall (List Nat × Table))
      (attempt (.error (.invalidArgument what))) := fun what => alike_attempt (Or.inl ⟨_, rfl, rfl⟩)
  intro queue
  induction queue with
  | nil =>
    intro s indices t u ht hu
    cases s with
    | cons str s =>
      simp only [Table.evalLoop]
      exact hmalformed _
    | nil =>
      rcases indices with _ | ⟨result, _ | ⟨second, indices⟩⟩
      · simp only [Table.evalLoop]
        exact hmalformed _
      · simp only [Table.evalLoop]
        exact Alike.return ⟨rfl, ht, hu⟩
      · simp only [Table.evalLoop]
        exact hmalformed _
  | cons token queue ih =>
    intro s indices t u ht hu
    cases token with
    | tokenStr str =>
      simp only [Table.evalLoop]
      exact ih _ _ ht hu
    | leftParen =>
      simp only [Table.evalLoop]
      exact ih _ _ ht hu
    | rightParen =>
      simp only [Table.evalLoop]
      exact ih _ _ ht hu
    | relational operation =>
      rcases s with _ | ⟨value, _ | ⟨name, s⟩⟩
      · simp only [Table.evalLoop]
        exact hmalformed _
      · simp only [Table.evalLoop]
        exact hmalformed _
      · simp only [Table.evalLoop]
        refine (selectHelp_alike hv2 ht hu name operation value).bind ?_
        rintro ⟨records, t'⟩ ⟨_, u'⟩ ⟨rfl, ht', hu'⟩
        exact ih _ _ ht' hu'
    | logical operation =>
      rcases indices with _ | ⟨first, _ | ⟨second, indices⟩⟩
      · simp only [Table.evalLoop]
        exact hmalformed _
      · simp only [Table.evalLoop]
        exact hmalformed _
      · simp only [Table.evalLoop]
        exact ih _ _ ht hu

omit hv2 in
theorem collect_alike {t u : Table} (ht : SameView table t) (hu : SameView table u) (names : List Bytes)
    (indices : List Nat) : t.collect names indices = u.collect names indices := by
  obtain ⟨a₁, a₂, a₃, a₄, rfl⟩ := ht
  obtain ⟨b₁, b₂, b₃, b₄, rfl⟩ := hu
  exact collect_congr (t := table.noting a₁ a₂ a₃ a₄) (u := table.noting b₁ b₂ b₃ b₄) rfl rfl names indices

omit hv2 in
/-- The end of a select, behind the condition. -/
theorem collected_alike {t u : Table} (ht : SameView table t) (hu : SameView table u) (chosen names : List Bytes)
    (records : List Nat) : Alike (SameAnswer table)
      (do let values ← attempt (t.collect names records)
          pure ({ Table.new with
            tableName := t.tableName
            fieldNames := names
            selectedFields := chosen
            numRecords := t.numRecords
            recordIndices := records
            printQueue := values }, { t with recordIndices := records }) : FileCall (Table × Table))
      (do let values ← attempt (u.collect names records)
          pure ({ Table.new with
            tableName := u.tableName
            fieldNames := names
            selectedFields := chosen
            numRecords := u.numRecords
            recordIndices := records
            printQueue := values }, { u with recordIndices := records })) := by
  rw [collect_alike ht hu]
  refine (Alike.refl _).bind ?_
  rintro values _ rfl
  obtain ⟨_, _, _, _, rfl⟩ := ht
  obtain ⟨_, _, _, _, rfl⟩ := hu
  exact Alike.return ⟨rfl, ⟨_, _, _, _, rfl⟩, ⟨_, _, _, _, rfl⟩⟩

theorem select_alike {t u : Table} (ht : SameView table t) (hu : SameView table u) (selected : List Bytes)
    (expression : List Token) : Alike (SameAnswer table) (t.select selected expression) (u.select selected expression) := by
  obtain ⟨a₁, a₂, a₃, a₄, rfl⟩ := ht
  obtain ⟨b₁, b₂, b₃, b₄, rfl⟩ := hu
  unfold Table.select
  refine Alike.bind (σ := Files) (ω := FileEffect) (Alike.refl (attempt (table.validateProjection selected)))
    (fun _ _ _ => ?_)
  by_cases hempty : expression = []
  · simp only [hempty, ne_eq, not_true_eq_false, if_false]
    refine Alike.bind (σ := Files) (ω := FileEffect) (R := SameAnswer (α := List Nat) table)
      (Alike.return ⟨rfl, ⟨_, _, _, _, rfl⟩, ⟨_, _, _, _, rfl⟩⟩) ?_
    rintro ⟨records, t'⟩ ⟨_, u'⟩ ⟨rfl, ht', hu'⟩
    exact collected_alike ht' hu' _ _ records
  · simp only [hempty, ne_eq, not_false_eq_true, if_true]
    refine Alike.bind (σ := Files) (ω := FileEffect) (R := SameAnswer (α := List Nat) table)
      (evalLoop_alike hv2 _ _ _ ⟨_, _, _, _, rfl⟩ ⟨_, _, _, _, rfl⟩) ?_
    rintro ⟨records, t'⟩ ⟨_, u'⟩ ⟨rfl, ht', hu'⟩
    exact collected_alike ht' hu' _ _ records

theorem selectComparison_alike {t u : Table} (ht : SameView table t) (hu : SameView table u) (selected : List Bytes)
    (fieldName operation fieldValue : Bytes) : Alike (SameAnswer table)
      (t.selectComparison selected fieldName operation fieldValue)
      (u.selectComparison selected fieldName operation fieldValue) := by
  obtain ⟨a₁, a₂, a₃, a₄, rfl⟩ := ht
  obtain ⟨b₁, b₂, b₃, b₄, rfl⟩ := hu
  unfold Table.selectComparison
  refine Alike.bind (σ := Files) (ω := FileEffect) (Alike.refl (attempt (table.validateProjection selected)))
    (fun _ _ _ => ?_)
  refine (selectHelp_alike hv2 ⟨_, _, _, _, rfl⟩ ⟨_, _, _, _, rfl⟩ fieldName operation fieldValue).bind ?_
  rintro ⟨records, t'⟩ ⟨_, u'⟩ ⟨rfl, ⟨c₁, c₂, c₃, c₄, rfl⟩, ⟨d₁, d₂, d₃, d₄, rfl⟩⟩
  have hcollect : Table.collect (table.noting c₁ records c₃ c₄) _ records =
      Table.collect (table.noting d₁ records d₃ d₄) _ records :=
    collect_alike ⟨_, _, _, _, rfl⟩ ⟨_, _, _, _, rfl⟩ (chosenFields table.fieldNames selected) records
  refine Alike.bind (σ := Files) (ω := FileEffect) (R := (· = ·)) ?_ ?_
  · exact hcollect ▸ Alike.refl _
  · rintro values _ rfl
    exact Alike.return ⟨rfl, ⟨_, _, _, _, rfl⟩, ⟨_, _, _, _, rfl⟩⟩

/-- **A select answers by what the table shows**, not by its notes. -/
theorem Select.run_alike {t u : Table} (ht : SameView table t) (hu : SameView table u) (query : Select) :
    Alike (SameAnswer table) (query.run t) (query.run u) := by
  cases query with
  | tokens selected expression => exact select_alike hv2 ht hu selected expression
  | comparison selected fieldName operation fieldValue =>
    exact selectComparison_alike hv2 ht hu selected fieldName operation fieldValue
  | strings selected expression =>
    simp only [Select.run]
    unfold Table.selectStrings
    cases toPostfix (expression.map Table.allocateToken) with
    | none => exact alike_attempt (Or.inl ⟨_, rfl, rfl⟩)
    | some postfixQueue => exact select_alike hv2 ht hu selected postfixQueue

end

/-! ## One call -/

theorem Table.Valid.rests {table : Table} {files : Files} (h : table.Valid files) (hv2 : table.usesV2Storage = true) :
    Rests (diskAt files (Table.databasePath table.tableName)) table.fieldNames table.storedRows := h.on_file hv2

/-- A select that returned has changed no file and no more than the notes. -/
theorem Select.run_ok {table result table' : Table} {files : Files} (h : table.Valid files)
    (hv2 : table.usesV2Storage = true) {query : Select} {es : List FileEffect}
    (hr : query.run table files = ⟨es, .ok (result, table')⟩) : es = [] ∧ SameView table table' := by
  constructor
  · cases query with
    | tokens selected expression => exact (select_returned h hr).1
    | strings selected expression =>
      rw [Select.run, Table.selectStrings] at hr
      cases hqueue : toPostfix (expression.map Table.allocateToken) with
      | none =>
        rw [hqueue] at hr
        cases hr
      | some postfixQueue =>
        rw [hqueue] at hr
        exact (select_returned h hr).1
    | comparison selected fieldName operation fieldValue =>
      rw [Select.run, Table.selectComparison] at hr
      obtain ⟨_, -, h1⟩ := attempt_bind_ok.1 hr
      obtain ⟨es₁, ⟨indices, table₁⟩, es₂, hhelp, h2, rfl⟩ := run_bind_ok.1 h1
      obtain ⟨rfl, -⟩ := selectHelp_returned (h.noted (chosenFields table.fieldNames selected) table.recordIndices) hhelp
      obtain ⟨values, -, h3⟩ := attempt_bind_ok.1 h2
      exact (return_ok.1 h3).2
  · have halike := Select.run_alike hv2 (SameView.refl table) (SameView.refl table) query files
    rw [hr] at halike
    cases halike with
    | ok _ hsame => exact hsame.2.1

/-- The checks of `insert_into` in front of the storage. -/
theorem insertInto_stored {table : Table} {files : Files} {fieldValues : List Bytes}
    (hlen : fieldValues.length = table.fieldNames.length) (hvalues : validateValues fieldValues = .ok ())
    (hv2 : table.usesV2Storage = true) {es : List DiskEffect}
    (hrow : insertRow (Table.databasePath table.tableName) fieldValues (diskAt files (Table.databasePath table.tableName)) =
      ⟨es, .ok ()⟩) : table.insertInto fieldValues files =
        ⟨es.map (FileEffect.disk (Table.databasePath table.tableName)),
          .ok (ascii "insert success", table.addRecord table.numRecords fieldValues)⟩ := by
  have hdisk : onDisk (Table.databasePath table.tableName) (insertRow (Table.databasePath table.tableName) fieldValues)
      files = ⟨es.map (FileEffect.disk (Table.databasePath table.tableName)), .ok ()⟩ := by
    rw [onDisk, hrow]
  unfold Table.insertInto
  rw [throwIf_neg (not_not.2 hlen), attempt_ok_bind, hvalues, attempt_ok_bind, throwIf_neg (by simp [hv2]),
    attempt_ok_bind, bind_run_ok hdisk]
  exact congrArg (fun effects => Outcome.mk effects _) (List.append_nil _)

/-- An insert into a table in step with its file is refused without an effect, or adds the row on both sides. -/
theorem insertInto_run {table : Table} {files : Files} (h : table.Valid files) (hv2 : table.usesV2Storage = true)
    (fieldValues : List Bytes) : (∃ e, table.insertInto fieldValues files = ⟨[], .error e⟩) ∨
      ∃ es, table.insertInto fieldValues files =
          ⟨es, .ok (ascii "insert success", table.addRecord table.numRecords fieldValues)⟩ ∧
        fieldValues.length = table.fieldNames.length ∧
        Rests (diskAt (after files es) (Table.databasePath table.tableName)) table.fieldNames
          (table.storedRows ++ [fieldValues]) := by
  by_cases hlen : fieldValues.length = table.fieldNames.length
  · cases hvalues : validateValues fieldValues with
    | error e =>
      unfold Table.insertInto
      rw [throwIf_neg (not_not.2 hlen), attempt_ok_bind, hvalues]
      exact Or.inl ⟨e, bind_run_error rfl⟩
    | ok u =>
      rcases @insertRow_rests (Table.databasePath table.tableName) fieldValues _ _ _ (h.rests hv2) with
        ⟨e, he⟩ | ⟨es, hes, hrests⟩
      · unfold Table.insertInto
        rw [throwIf_neg (not_not.2 hlen), attempt_ok_bind, hvalues, attempt_ok_bind, throwIf_neg (by simp [hv2]),
          attempt_ok_bind]
        exact Or.inl ⟨e, bind_run_error (onDisk_run he)⟩
      · exact Or.inr ⟨_, insertInto_stored hlen hvalues hv2 hes, hlen, by rwa [diskAt_after]⟩
  · unfold Table.insertInto
    refine Or.inl ⟨_, bind_run_error (e := .invalidArgument ("Expected " ++ toString table.fieldNames.length ++
      " values, received " ++ toString fieldValues.length)) ?_⟩
    rw [throwIf, if_pos hlen]
    rfl

theorem addRecord_valid {table : Table} {files files' : Files} (h : table.Valid files) (hv2 : table.usesV2Storage = true)
    {fieldValues : List Bytes} (hlen : fieldValues.length = table.fieldNames.length)
    (hrests : Rests (diskAt files' (Table.databasePath table.tableName)) table.fieldNames
      (table.storedRows ++ [fieldValues])) : (table.addRecord table.numRecords fieldValues).Valid files' := by
  refine ⟨h.nodup, h.names_at, fun row hmem => ?_, ?_, fun _ => hrests, fun hv1 =>
    absurd (hv1.symm.trans hv2) Bool.false_ne_true⟩
  · rcases List.mem_append.1 hmem with hmem | hmem
    · exact h.arity row hmem
    · rw [List.mem_singleton.1 hmem]
      exact hlen
  · rw [Table.addRecord, h.count, List.length_append, List.length_singleton]

/-- **The object and its file stay in step**, whatever the call is and however it ends. -/
theorem TableStep.valid {s t : Table × Files} {call : TableCall} (hstep : TableStep s call t) (h : s.1.Valid s.2)
    (hv2 : s.1.usesV2Storage = true) : t.1.Valid t.2 ∧ t.1.usesV2Storage = true ∧ t.1.tableName = s.1.tableName := by
  cases hstep with
  | @inserted table table' files fieldValues es str hinsert =>
    rcases insertInto_run h hv2 fieldValues with ⟨e, he⟩ | ⟨es', hrun, hlen, hrests⟩
    · cases he.symm.trans hinsert
    · cases hrun.symm.trans hinsert
      exact ⟨addRecord_valid h hv2 hlen hrests, hv2, rfl⟩
  | @refused table files fieldValues es e hinsert =>
    rcases insertInto_run h hv2 fieldValues with ⟨e', he'⟩ | ⟨es', hrun, -⟩
    · cases he'.symm.trans hinsert
      exact ⟨h, hv2, rfl⟩
    · cases hrun.symm.trans hinsert
  | @selected table table' result files query es hselect =>
    obtain ⟨rfl, hview⟩ := Select.run_ok h hv2 hselect
    have hvalid := hview.valid hv2 h
    obtain ⟨_, _, _, _, rfl⟩ := hview
    exact ⟨hvalid, hv2, rfl⟩
  | @rejected table files query es e selectedFields recordIndices hselect =>
    obtain ⟨rfl, -⟩ := Select.run_error h hv2 hselect
    exact ⟨h.noted selectedFields recordIndices, hv2, rfl⟩

theorem Session.valid {s t : Table × Files} {calls : List TableCall} (hrun : Session s calls t) (h : s.1.Valid s.2)
    (hv2 : s.1.usesV2Storage = true) : t.1.Valid t.2 ∧ t.1.usesV2Storage = true ∧ t.1.tableName = s.1.tableName := by
  induction hrun with
  | start => exact ⟨h, hv2, rfl⟩
  | call _ hstep ih =>
    obtain ⟨ht, ht2, hname⟩ := ih
    obtain ⟨hu, hu2, hname'⟩ := hstep.valid ht ht2
    exact ⟨hu, hu2, hname'.trans hname⟩

/-! ## Opening the table again -/

theorem load_rests {tableName : Bytes} {files : Files} {fields : List Bytes} {rows : List (List Bytes)}
    (h : Rests (diskAt files (Table.databasePath tableName)) fields rows) : ∃ loaded, loaded.fields = fields ∧
      loaded.rows = rows ∧ rows.length < 2 ^ 63 ∧
      Table.load tableName files = ⟨[], Table.ofLoaded tableName loaded⟩ := by
  obtain ⟨loaded, hopen, hfields, hrows⟩ := openTable_rests (Table.databasePath tableName) h
  obtain ⟨-, image, P, hdb, hP, -, hProws⟩ := h
  have hlen : rows.length < 2 ^ 63 := by
    obtain ⟨-, L, hL, hparsed⟩ := parseImage_ok hP
    have hle := hL.rows_le
    have hmax : rowsMaxSize = 384307168202282325 := by decide
    have heq : P.table.rows = L.rows := by rw [hparsed]; rfl
    rw [← hProws, heq]
    omega
  refine ⟨loaded, hfields, hrows, hlen, ?_⟩
  unfold Table.load
  rw [observe_bind]
  refine (congrFun (if_pos (Or.inl (Option.isSome_iff_exists.2 ⟨image, hdb⟩))) files).trans ?_
  rw [bind_run_pure (onDisk_run hopen)]
  rfl

/-- The constructor rebuilds what the object shows. -/
theorem load_view {table : Table} {files : Files} (h : table.Valid files) (hv2 : table.usesV2Storage = true) :
    ∃ fresh, Table.load table.tableName files = ⟨[], .ok fresh⟩ ∧ SameView table fresh := by
  obtain ⟨loaded, hfields, hrows, hlen, hload⟩ := load_rests (h.rests hv2)
  refine ⟨table.noting loaded.fields (List.range loaded.rows.length) .empty loaded.rows.flatten, ?_, _, _, _, _, rfl⟩
  rw [hload]
  unfold Table.ofLoaded
  rw [hrows, throwIf_neg (by omega), except_ok_bind, Table.noting, hfields, ← h.names_at, ← h.count, ← hv2]
  rfl

/-- Every call can be made. -/
theorem tableStep_exists (s : Table × Files) (call : TableCall) : ∃ t, TableStep s call t := by
  obtain ⟨table, files⟩ := s
  cases call with
  | insert fieldValues =>
    rcases h : table.insertInto fieldValues files with ⟨es, e | ⟨str, table'⟩⟩
    · exact ⟨_, .refused h⟩
    · exact ⟨_, .inserted h⟩
  | select query =>
    rcases h : query.run table files with ⟨es, e | ⟨result, table'⟩⟩
    · exact ⟨_, .rejected table.selectedFields table.recordIndices h⟩
    · exact ⟨_, .selected h⟩

/-- **A table object stays in step with its storage.**  After any calls on a v2 table that was opened or created, its rows
and their number are those that `open_table` returns; every select answers what it answers on the table opened again, and
none finds a record out of range. -/
theorem session_in_step {tableName : Bytes} {files₀ files : Files} {es : List FileEffect} {table₀ table : Table}
    {calls : List TableCall} (hstart : (Table.load tableName files₀ = ⟨es, .ok table₀⟩ ∧ table₀.usesV2Storage = true) ∨
      ∃ fieldNames, Table.create tableName fieldNames files₀ = ⟨es, .ok table₀⟩)
    (hrun : Session (table₀, after files₀ es) calls (table, files)) :
    (∃ loaded, openTable (Table.databasePath tableName) (diskAt files (Table.databasePath tableName)) = ⟨[], .ok loaded⟩ ∧
      table.storedRows = loaded.rows ∧ table.numRecords = loaded.rows.length) ∧
    ∃ fresh, Table.load tableName files = ⟨[], .ok fresh⟩ ∧ ∀ query : Select,
      (query.run table files).result.map Prod.fst = (query.run fresh files).result.map Prod.fst ∧
      (query.run table files).result ≠ .error (.runtimeError "Selected record identifier is out of range") := by
  have hopened : table₀.Valid (after files₀ es) ∧ table₀.usesV2Storage = true ∧ table₀.tableName = tableName := by
    rcases hstart with ⟨hload, hv2⟩ | ⟨fieldNames, hcreate⟩
    · obtain ⟨hvalid, fieldNames, rows, hshows⟩ := load_valid hload
      exact ⟨hvalid, hv2, hshows.name_eq⟩
    · obtain ⟨hvalid, hshows, -⟩ := create_valid hcreate
      exact ⟨hvalid, (create_ok hcreate).2.1, hshows.name_eq⟩
  obtain ⟨hvalid₀, hv2₀, hname₀⟩ := hopened
  obtain ⟨hvalid, hv2, hname⟩ := hrun.valid hvalid₀ hv2₀
  obtain rfl : table.tableName = tableName := hname.trans hname₀
  obtain ⟨loaded, hopen, hrows, -⟩ := hvalid.openTable hv2
  obtain ⟨fresh, hfresh, hview⟩ := load_view hvalid hv2
  refine ⟨⟨loaded, hopen, hrows.symm, by rw [hvalid.count, hrows]⟩, fresh, hfresh, fun query => ⟨?_, fun hrange => ?_⟩⟩
  · have halike := Select.run_alike hv2 (SameView.refl table) hview query files
    generalize query.run table files = x, query.run fresh files = y at halike
    cases halike with
    | error es e => rfl
    | ok es h => exact congrArg Except.ok h.1
  · rcases hr : query.run table files with ⟨es', x⟩
    rw [hr] at hrange
    obtain rfl : x = .error _ := hrange
    obtain ⟨-, what, hwhat⟩ := Select.run_error hvalid hv2 hr
    cases hwhat

/-- The file of a table with two fields and two rows. -/
def oneFile : Files := Function.update (fun _ => none) (Table.databasePath (ascii "t")) (some (imageOf onePages))

theorem oneFile_rests : Rests (diskAt oneFile (Table.databasePath (ascii "t"))) oneFields oneRows :=
  ⟨rfl, imageOf onePages, _, by rw [diskAt, oneFile, Function.update_self], parseImage_imageOf oneLayout_on false, rfl, rfl⟩

theorem oneFile_load : ∃ table, Table.load (ascii "t") oneFile = ⟨[], .ok table⟩ ∧ table.usesV2Storage = true ∧
    table.Shows (ascii "t") oneFields oneRows := by
  obtain ⟨loaded, hfields, hrows, hlen, hload⟩ := load_rests oneFile_rests
  obtain ⟨table, htable⟩ : ∃ table, Table.ofLoaded (ascii "t") loaded = .ok table := by
    unfold Table.ofLoaded
    rw [hrows, throwIf_neg (by omega)]
    exact ⟨_, rfl⟩
  obtain ⟨hshows, hv2⟩ := ofLoaded_ok htable
  rw [hfields, hrows] at hshows
  exact ⟨table, by rw [hload, htable], hv2, hshows⟩

/-- A row inserted into the open table, and all rows selected. -/
theorem session_in_step_oneFile : ∃ table₀ table files, Table.load (ascii "t") oneFile = ⟨[], .ok table₀⟩ ∧
    Session (table₀, oneFile) [.insert [ascii "x", ascii "y"], .select (.strings [] [])] (table, files) ∧
    ∃ fresh, Table.load (ascii "t") files = ⟨[], .ok fresh⟩ ∧
      ((Select.strings [] []).run table files).result.map Prod.fst =
        ((Select.strings [] []).run fresh files).result.map Prod.fst := by
  obtain ⟨table₀, hload, hv2, -⟩ := oneFile_load
  obtain ⟨s, hinsert⟩ := tableStep_exists (table₀, oneFile) (.insert [ascii "x", ascii "y"])
  obtain ⟨⟨table, files⟩, hselect⟩ := tableStep_exists s (.select (.strings [] []))
  have hrun : Session (table₀, oneFile) [.insert [ascii "x", ascii "y"], .select (.strings [] [])] (table, files) :=
    .call (.call (.start _) hinsert) hselect
  obtain ⟨-, fresh, hfresh, hsame⟩ :=
    session_in_step (Or.inl ⟨hload, hv2⟩) hrun
  exact ⟨table₀, table, files, hload, hrun, fresh, hfresh, (hsame (.strings [] [])).1⟩

end Storage
end Sql
