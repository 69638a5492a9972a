import SqlEngine.Batch
import SqlEngine.Creation
/-!
# Survival — commands that may be killed anywhere

A process may be killed after any effect of a command, and the next one goes on with the files it finds.  What the name of
a table stands for is an entry all the same (`Faces`): what is shown where no log holds anything, the table that the next
command recovers, or a log that blocks it.  `statement_survives` says how a statement may go, whole or cut off.
-/
namespace Sql
namespace Storage

open Wire Effects Maps Query

/-! ## The files of a table behind effects on its disk -/

abbrev acted (files : Files) (tableName : Bytes) (des : List DiskEffect) : Files :=
  after files (des.map (FileEffect.disk (Table.databasePath tableName)))

/-- Opening the table goes to its v2 files. -/
def Reached (files : Files) (tableName : Bytes) : Prop :=
  (files (Table.databasePath tableName)).isSome ∨
    files (Table.tableFile tableName) = none ∧ files (Table.fieldFile tableName) = none

/-- No effect removes the database. -/
theorem after_isSome {disk : Disk} (h : disk.database.isSome) (des : List DiskEffect) :
    (after disk des).database.isSome := by
  refine (Cuts.of_invariant (C := fun disk : Disk => disk.database.isSome) (fun e _ t ht => ?_) h : Cuts disk des _).last
  cases e with
  | truncateWal | writeWal => exact ht
  | openDatabase => rfl
  | sizeDatabase | writePage => simpa [Acts.act, DiskEffect.act] using ht

section
variable {files : Files} {tableName : Bytes}

theorem acted_v1 (des : List DiskEffect) : acted files tableName des (Table.tableFile tableName) =
    files (Table.tableFile tableName) ∧
    acted files tableName des (Table.fieldFile tableName) = files (Table.fieldFile tableName) := by
  obtain ⟨-, htable, htable', hfield, hfield'⟩ := paths_apart tableName tableName
  exact ⟨after_onDisk_other htable htable' des files, after_onDisk_other hfield hfield' des files⟩

theorem Reached.acted (h : Reached files tableName) (des : List DiskEffect) :
    Reached (acted files tableName des) tableName := by
  obtain ⟨htable, hfield⟩ := @acted_v1 files tableName des
  rcases h with hdb | hv1
  · have hsome := @after_isSome (diskAt files (Table.databasePath tableName)) hdb des
    rw [← diskAt_after] at hsome
    exact Or.inl hsome
  · exact Or.inr ⟨htable.trans hv1.1, hfield.trans hv1.2⟩

end

/-! ## What the name of a table stands for -/

theorem Recoverable.clean {disk : Disk} {fields : List Bytes} {rows : List (List Bytes)} {generation : Nat}
    (h : Recoverable disk fields rows generation) (hwal : walPresent disk = false) : Clean disk fields rows generation := by
  have hrecord : ∀ image, disk.wal = some (walRecord image generation) → walPresent disk = true := fun image heq => by
    have hne : walRecord image generation ≠ [] := by
      rw [← List.length_pos_iff, length_walRecord]
      omega
    simp [walPresent, heq, hne]
  rcases h with (hclean | ⟨image, file, -, -, rfl⟩) | ⟨image, -, hlog, -⟩
  · exact hclean
  · exact absurd (hrecord image rfl) (by simp [hwal])
  · exact absurd (hrecord image hlog) (by simp [hwal])

theorem Stuck.present {disk : Disk} (h : Stuck disk) : walPresent disk = true := by
  obtain ⟨image, generation, n, -, -, hpos, hn, hwal⟩ := h
  have hne : (walRecord image generation).take n ≠ [] := by
    rw [← List.length_pos_iff, List.length_take]
    omega
  simp [walPresent, hwal, hne]

/-- **What the name of a table stands for**, with what the next command will recover. -/
inductive Faces (files : Files) (tableName : Bytes) : TableEntry → Prop where
  | quiet (hwal : walPresent (diskAt files (Table.databasePath tableName)) = false) :
      Faces files tableName (shown files tableName)
  | pending {fields : List Bytes} {rows : List (List Bytes)} {generation : Nat}
      (hwal : walPresent (diskAt files (Table.databasePath tableName)) = true)
      (h : Recoverable (diskAt files (Table.databasePath tableName)) fields rows generation)
      (hreached : Reached files tableName) : Faces files tableName (.stored ⟨fields, rows⟩ true)
  | blocked {c : Corruption} (h : Stuck (diskAt files (Table.databasePath tableName)))
      (hrecover : recover (diskAt files (Table.databasePath tableName)) = ⟨[], .error (.corruption c)⟩)
      (hreached : Reached files tableName) : Faces files tableName (.blocked c)

section
variable {files : Files} {tableName : Bytes}

theorem faces_recoverable {fields : List Bytes} {rows : List (List Bytes)} {generation : Nat}
    (h : Recoverable (diskAt files (Table.databasePath tableName)) fields rows generation)
      (hreached : Reached files tableName) :
    Faces files tableName (.stored ⟨fields, rows⟩ true) := by
  cases hwal : walPresent (diskAt files (Table.databasePath tableName)) with
  | true => exact .pending hwal h hreached
  | false => exact (h.clean hwal).rests.shown ▸ .quiet hwal

theorem faces_stuck (h : Stuck (diskAt files (Table.databasePath tableName))) (hreached : Reached files tableName) :
    ∃ c, Faces files tableName (.blocked c) := by
  obtain ⟨c, hc⟩ := recover_stuck h
  exact ⟨c, .blocked h hc hreached⟩

theorem SameTable.faces {files' : Files} {entry : TableEntry} (h : SameTable tableName files files')
    (hfaces : Faces files tableName entry) : Faces files' tableName entry := by
  have hreach : Reached files tableName → Reached files' tableName := fun hreached => by
    unfold Reached
    rwa [h.database, h.records, h.fields]
  cases hfaces with
  | quiet hwal => exact h.shown ▸ .quiet (by rwa [h.disk])
  | pending hwal hrecoverable hreached => exact .pending (by rwa [h.disk]) (by rwa [h.disk]) (hreach hreached)
  | blocked hstuck hrecover hreached => exact .blocked (by rwa [h.disk]) (by rwa [h.disk]) (hreach hreached)

theorem Faces.eq_shown {entry : TableEntry} (h : Faces files tableName entry)
    (hquiet : walPresent (diskAt files (Table.databasePath tableName)) = false) : entry = shown files tableName := by
  cases h with
  | quiet => rfl
  | pending hwal => exact absurd hwal (by simp [hquiet])
  | blocked h => exact absurd h.present (by simp [hquiet])

theorem Faces.stuck {c : Corruption} (h : Faces files tableName (.blocked c)) :
    Stuck (diskAt files (Table.databasePath tableName)) := by
  have hshown : shown files tableName ≠ .blocked c := by
    unfold shown
    split_ifs
    · cases (Table.load tableName files).result <;> exact TableEntry.noConfusion
    · exact TableEntry.noConfusion
  generalize hentry : TableEntry.blocked c = entry at h
  cases h with
  | quiet => exact absurd hentry.symm hshown
  | pending => cases hentry
  | blocked hstuck => exact hstuck

theorem load_v2 (hdb : (files (Table.databasePath tableName)).isSome ∨
    walPresent (diskAt files (Table.databasePath tableName)) = true) (hreached : Reached files tableName) :
    Table.load tableName files = (do
      let loaded ← onDisk (Table.databasePath tableName) (openTable (Table.databasePath tableName))
      attempt (Table.ofLoaded tableName loaded) : FileCall Table) files := by
  unfold Table.load
  rw [observe_bind]
  refine congrFun (if_pos ?_) files
  cases hsome : files (Table.databasePath tableName) with
  | some file => exact Or.inl (Option.isSome_iff_exists.2 ⟨file, hsome⟩)
  | none =>
    rw [hsome] at hdb
    have hv1 := hreached.resolve_left (by simp [hsome])
    exact Or.inr ⟨hsome, hv1.1, hv1.2, hdb.resolve_left (by simp)⟩

/-- **Opening a table that is to be recovered** recovers it; cut off, it can still be recovered. -/
theorem load_pending {fields : List Bytes} {rows : List (List Bytes)} {generation : Nat}
    (hwal : walPresent (diskAt files (Table.databasePath tableName)) = true)
    (h : Recoverable (diskAt files (Table.databasePath tableName)) fields rows generation)
      (hreached : Reached files tableName) :
    ∃ des, Table.load tableName files =
        ⟨des.map (FileEffect.disk (Table.databasePath tableName)), .ok (Table.opened tableName ⟨fields, rows⟩)⟩ ∧
      Clean (after (diskAt files (Table.databasePath tableName)) des) fields rows generation ∧
      Cuts (diskAt files (Table.databasePath tableName)) des (fun disk => Recoverable disk fields rows generation) := by
  obtain ⟨des, hrun, hcuts, hclean⟩ := recover_recoverable h
  obtain ⟨-, -, -, hlen, -⟩ := @load_rests tableName (acted files tableName des) fields rows
    (by rw [diskAt_after]; exact hclean.rests)
  obtain ⟨hquiet, image, hdb, hw⟩ := id hclean
  obtain ⟨P, hP, hholds⟩ := hw.parse (walPresent (after (diskAt files (Table.databasePath tableName)) des))
  have hopen : onDisk (Table.databasePath tableName) (openTable (Table.databasePath tableName)) files =
      ⟨des.map (FileEffect.disk (Table.databasePath tableName)), .ok P.table⟩ := by
    rw [onDisk, openTable_ok hrun (by rw [hdb]; rfl) hP]
  refine ⟨des, ?_, hclean, hcuts⟩
  rw [load_v2 (Or.inr hwal) hreached, bind_run_ok hopen, ofLoaded_opened tableName (by rwa [hholds.rows_eq]),
    hholds.fields_eq, hholds.rows_eq]
  exact congrArg (fun effects => Outcome.mk effects _) (List.append_nil _)

theorem load_stuck {c : Corruption} (hwal : walPresent (diskAt files (Table.databasePath tableName)) = true)
    (h : recover (diskAt files (Table.databasePath tableName)) = ⟨[], .error (.corruption c)⟩)
    (hreached : Reached files tableName) : Table.load tableName files = ⟨[], .error (.corruption c)⟩ := by
  have hopen : onDisk (Table.databasePath tableName) (openTable (Table.databasePath tableName)) files =
      ⟨[], .error (.corruption c)⟩ := by
    rw [onDisk, openTable, bind_run_error h]
    rfl
  rw [load_v2 (Or.inr hwal) hreached, bind_run_error hopen]

end

/-- **Opening a table finds what its name stands for.** -/
theorem Faces.opens {files : Files} {tableName : Bytes} {entry : TableEntry} (h : Faces files tableName entry) :
    (Table.load tableName files).result.map (fun table => (table.relation, table.usesV2Storage)) = entry.load tableName := by
  cases h with
  | quiet hwal =>
    rcases load_shown hwal with ⟨e, hshown, hload⟩ | ⟨table, hshown, hload, -, -⟩
    · rw [hshown, hload]
      rfl
    · rw [hshown, hload]
      rfl
  | pending hwal hrecoverable hreached =>
    obtain ⟨des, hload, -, -⟩ := load_pending hwal hrecoverable hreached
    rw [hload]
    rfl
  | blocked h hrecover hreached =>
    rw [load_stuck h.present hrecover hreached]
    rfl

/-! ## Statements, whole or cut off -/

def Statement.writes : Statement → Bool
  | select .. => false
  | _ => true

/-- The storage may refuse an insert, and a create where something is in the way. -/
def Statement.refusable : Statement → TableEntry → Bool
  | create .., entry => entry.taken
  | insert .., _ => true
  | select .., _ => false

/-- How a statement may end, and the entry behind it. -/
inductive Statement.Ended (statement : Statement) (entry : TableEntry) :
    Except StorageError (Option Table) → TableEntry → Prop where
  | done {table : Table} {entry' : TableEntry} (h : statement.answer entry = .ok (some (table, entry'))) :
      Ended statement entry (.ok (some table)) entry'
  | crashed (h : statement.answer entry = .ok none) : Ended statement entry (.ok none) entry
  | thrown {e : StorageError} (h : statement.answer entry = .error e) : Ended statement entry (.error e) entry
  | refused {e : StorageError} (h : statement.refusable entry = true) (he : e ≠ .diverges) :
      Ended statement entry (.error e) entry

/-- What a statement that is killed may leave. -/
inductive Statement.Killed (statement : Statement) (entry : TableEntry) : TableEntry → Prop where
  | before : Killed statement entry entry
  | behind {table : Table} {entry' : TableEntry} (h : statement.answer entry = .ok (some (table, entry'))) :
      Killed statement entry entry'
  /-- A part of the log record is written. -/
  | between {table : Table} {entry' : TableEntry} (h : statement.answer entry = .ok (some (table, entry')))
      (hwrites : statement.writes = true) (c : Corruption) : Killed statement entry (.blocked c)

/-- The statement goes as on the entry, however far it gets. -/
def Statement.Survives (statement : Statement) (files : Files) (entry : TableEntry) : Prop :=
  ∃ des result, statement.run files = ⟨des.map (FileEffect.disk (Table.databasePath statement.tableName)), result⟩ ∧
    (∃ entry', statement.Ended entry result entry' ∧
      Faces (acted files statement.tableName des) statement.tableName entry') ∧
    ∀ k, ∃ entry', statement.Killed entry entry' ∧
      Faces (acted files statement.tableName (des.take k)) statement.tableName entry'

section
variable {files : Files} {statement : Statement} {entry : TableEntry}

/-- A statement without effects. -/
theorem survives_quiet {result : Except StorageError (Option Table)} (hrun : statement.run files = ⟨[], result⟩)
    (hended : statement.Ended entry result entry) (hfaces : Faces files statement.tableName entry) :
    statement.Survives files entry :=
  ⟨[], result, hrun, ⟨entry, hended, hfaces⟩, fun k => ⟨entry, .before, by rw [List.take_nil]; exact hfaces⟩⟩

/-- Effects in front of a statement, such as those of the recovery that opens its table. -/
theorem survives_behind {des : List DiskEffect} (h : statement.Survives (acted files statement.tableName des) entry)
    (hrun : statement.run files = ⟨des.map (FileEffect.disk (Table.databasePath statement.tableName)) ++
        (statement.run (acted files statement.tableName des)).effects,
      (statement.run (acted files statement.tableName des)).result⟩)
    (hcuts : ∀ k, Faces (acted files statement.tableName (des.take k)) statement.tableName entry) :
    statement.Survives files entry := by
  obtain ⟨des', result, hrun', ⟨entry', hended, hfaces⟩, hkilled⟩ := h
  have hsplit : ∀ more, acted files statement.tableName (des ++ more) =
      acted (acted files statement.tableName des) statement.tableName more := fun more => by
    rw [acted, List.map_append, after_append]
  refine ⟨des ++ des', result, ?_, ⟨entry', hended, by rwa [hsplit]⟩, fun k => ?_⟩
  · rw [hrun, hrun', List.map_append]
  · by_cases hk : k ≤ des.length
    · rw [List.take_append_of_le_length hk]
      exact ⟨entry, .before, hcuts k⟩
    · obtain ⟨entry', hkill, hfaces'⟩ := hkilled (k - des.length)
      refine ⟨entry', hkill, ?_⟩
      rw [List.take_append, List.take_of_length_le (by omega), hsplit]
      exact hfaces'

end

/-! ### Creating -/

theorem validateFields_error {e : StorageError} : ∀ {fields unique : List Bytes}, validateFields fields unique = .error e →
    ∃ what, e = .invalidArgument what
  | [], _, h => by cases h
  | field :: fields, unique, h => by
    rcases except_bind_error.1 h with hlength | ⟨-, -, h⟩
    · exact ⟨_, (throwIf_error.1 hlength).2.symm⟩
    rcases except_bind_error.1 h with htwice | ⟨-, -, hrest⟩
    · exact ⟨_, (throwIf_error.1 htwice).2.symm⟩
    · exact validateFields_error hrest

theorem create_ends {tableName : Bytes} {fields : List Bytes} {entry : TableEntry} {e : StorageError}
    (h : (Statement.create tableName fields).answer entry = .error e) : e ≠ .diverges := by
  rcases except_bind_error.1 h with hfields | ⟨-, -, h⟩
  · obtain ⟨field, -, hfield⟩ := forM_error hfields
    rw [← (throwIf_error.1 hfield).2]
    simp
  rcases except_bind_error.1 h with hcheck | ⟨-, -, hreturn⟩
  · rcases except_bind_error.1 hcheck with htaken | ⟨-, -, hcheck⟩
    · rw [← (throwIf_error.1 htaken).2]
      simp
    rcases except_bind_error.1 hcheck with hcount | ⟨-, -, hvalidate⟩
    · rw [← (throwIf_error.1 hcount).2]
      simp
    · obtain ⟨what, rfl⟩ := validateFields_error hvalidate
      simp
  · cases hreturn

/-- A log is in the way of a new table. -/
theorem createTable_blocked {path : String} {fields : List Bytes} {disk : Disk} (hdb : disk.database = none)
    (hwal : walPresent disk = true) : createTable path fields disk =
      ⟨[], .error (.runtimeError ("Non-empty WAL already exists: " ++ walPath path))⟩ := by
  unfold createTable createFromRows
  rw [observe_bind, id, throwIf_neg (by simp [hdb]), attempt_ok_bind]
  refine bind_run_error ?_
  rw [throwIf, if_pos hwal]
  rfl

theorem create_survives {files : Files} {tableName : Bytes} {entry : TableEntry} (h : Faces files tableName entry)
    (fields : List Bytes) : (Statement.create tableName fields).Survives files entry := by
  have hblocked : walPresent (diskAt files (Table.databasePath tableName)) = true → entry.taken = true →
      (Statement.create tableName fields).Survives files entry := fun hwal htaken => by
    rcases @create_agrees files tableName fields with ⟨e, hanswer, hrun⟩ | ⟨-, habsent, -, hrun⟩
    · exact survives_quiet hrun (.refused htaken (create_ends hanswer)) h
    · exact survives_quiet (hrun _ _ (createTable_blocked (shown_absent.1 habsent).2.2 hwal)) (.refused htaken (by simp)) h
  cases h with
  | pending hwal _ _ => exact hblocked hwal rfl
  | blocked h _ _ => exact hblocked h.present rfl
  | quiet hwal =>
    rcases @create_agrees files tableName fields with ⟨e, hanswer, hrun⟩ | ⟨hanswer, habsent, hf, hrun⟩
    · exact survives_quiet hrun (.thrown hanswer) (.quiet hwal)
    obtain ⟨htable, hfield, hdb⟩ := shown_absent.1 habsent
    obtain ⟨des, hcreate, hclean, hcuts⟩ := @createTable_cuts _ (Table.databasePath tableName) _ ⟨hdb, hwal⟩ hf
    have hreached : ∀ more, Reached (acted files tableName more) tableName := fun more =>
      Reached.acted (Or.inr ⟨htable, hfield⟩) more
    refine ⟨des, _, hrun _ _ hcreate, ⟨.stored ⟨fields, []⟩ true, .done hanswer, ?_⟩, fun k => ?_⟩
    · refine faces_recoverable (Or.inl (Or.inl (?_ : Clean _ fields [] 1))) (hreached des)
      exact (diskAt_after _ _ _).symm ▸ hclean
    · rcases hcuts k with ⟨hdb', hwal'⟩ | ⟨hstuck, -⟩ | hrecoverable
      · refine ⟨shown files tableName, .before, ?_⟩
        obtain ⟨htable', hfield'⟩ := @acted_v1 files tableName (des.take k)
        rw [← diskAt_after] at hdb' hwal'
        have habsent' : shown (acted files tableName (des.take k)) tableName = .absent :=
          shown_absent.2 ⟨htable'.trans htable, hfield'.trans hfield, hdb'⟩
        rw [habsent, ← habsent']
        exact .quiet hwal'
      · rw [← diskAt_after] at hstuck
        obtain ⟨c, hc⟩ := faces_stuck hstuck (hreached _)
        exact ⟨_, .between hanswer rfl c, hc⟩
      · rw [← diskAt_after] at hrecoverable
        exact ⟨_, .behind hanswer, faces_recoverable hrecoverable (hreached _)⟩

/-! ### Inserting and selecting -/

/-- **An insert into a table at rest, cut off.** -/
theorem insertRow_rests_cuts (path : String) {row : List Bytes} {disk : Disk} {fields : List Bytes}
    {rows : List (List Bytes)}
    (h : Rests disk fields rows) :
    (∃ e, insertRow path row disk = ⟨[], .error e⟩ ∧ e ≠ .diverges) ∨ ∃ des generation,
      insertRow path row disk = ⟨des, .ok ()⟩ ∧ Clean (after disk des) fields (rows ++ [row]) (generation + 1) ∧ ∀ k,
        Clean (after disk (des.take k)) fields rows generation ∨ Stuck (after disk (des.take k)) ∨
          Stands (after disk (des.take k)) fields (rows ++ [row]) (generation + 1) := by
  obtain ⟨hwal, image, P, hdb, hP, rfl, rfl⟩ := id h
  obtain ⟨hok, herror⟩ := @insertRow_run path row disk [] image (recover_clean hwal) hdb
  cases hnext : buildIncrementalInsert image row with
  | error e => exact Or.inl ⟨e, herror e hnext, (insertRow_ends h (herror e hnext)).2⟩
  | ok next =>
    obtain ⟨P', hP', hw⟩ := buildIncrementalInsert_extends hnext
    obtain rfl : P = P' := Except.ok.inj (hP.symm.trans hP')
    obtain ⟨des, hcommit, hclean, -, hcuts⟩ := commit_cuts hwal hdb hw hnext
    refine Or.inr ⟨des, _, ?_, hclean, fun k => ?_⟩
    · rw [hok next hnext, after_nil, hcommit]
      rfl
    · rcases hcuts k with ⟨-, hclean⟩ | ⟨-, -, htorn⟩ | ⟨-, hstands⟩
      · exact Or.inl hclean
      · exact Or.inr (Or.inl htorn.1)
      · exact Or.inr (Or.inr hstands)

section
variable {files : Files} {tableName : Bytes}

theorem insert_survives_quiet (hwal : walPresent (diskAt files (Table.databasePath tableName)) = false)
    (values : List Bytes) :
    (Statement.insert tableName values).Survives files (shown files tableName) := by
  rcases insert_agrees hwal values with ⟨e, hanswer, hrun⟩ | ⟨relation, hanswer, hrests, -, hrun⟩
  · exact survives_quiet hrun (.thrown hanswer) (.quiet hwal)
  have hreached : ∀ des, Reached (acted files tableName des) tableName := fun des => by
    obtain ⟨-, image, -, hdb, -⟩ := hrests
    exact Reached.acted (Or.inl (Option.isSome_iff_exists.2 ⟨image, hdb⟩)) des
  rcases @insertRow_rests_cuts (Table.databasePath tableName) values _ _ _ hrests with
    ⟨e, he, hends⟩ | ⟨des, generation, hinsert, hclean, hcuts⟩
  · exact survives_quiet (hrun _ _ he) (.refused rfl hends) (.quiet hwal)
  refine ⟨des, _, hrun _ _ hinsert, ⟨_, .done hanswer, ?_⟩, fun k => ?_⟩
  · rw [← diskAt_after] at hclean
    exact faces_recoverable (Or.inl (Or.inl hclean)) (hreached des)
  · rcases hcuts k with hclean | hstuck | hstands
    · rw [← diskAt_after] at hclean
      refine ⟨_, .before, ?_⟩
      rw [hrests.shown]
      exact faces_recoverable (Or.inl (Or.inl hclean)) (hreached _)
    · rw [← diskAt_after] at hstuck
      obtain ⟨c, hc⟩ := faces_stuck hstuck (hreached _)
      exact ⟨_, .between hanswer rfl c, hc⟩
    · rw [← diskAt_after] at hstands
      exact ⟨_, .behind hanswer, faces_recoverable (Or.inl hstands) (hreached _)⟩

theorem select_survives_quiet (hwal : walPresent (diskAt files (Table.databasePath tableName)) = false)
    (projection : List Bytes) (condition : Option (List Bytes)) :
    (Statement.select tableName projection condition).Survives files (shown files tableName) := by
  obtain ⟨hrun, hsame⟩ := select_agrees hwal projection condition
  refine survives_quiet hrun ?_ (.quiet hwal)
  rcases hanswer : (Statement.select tableName projection condition).answer (shown files tableName) with
    e | _ | ⟨table, entry⟩
  · exact .thrown hanswer
  · exact .crashed hanswer
  · obtain rfl := hsame table entry hanswer
    exact .done hanswer

end

/-- **A statement that opens its table** goes on from the files that opening leaves. -/
theorem run_behind {statement : Statement} {files : Files} {es : List FileEffect} {table : Table}
    (hopens : ∀ tableName fields, statement ≠ .create tableName fields)
    (hload : Table.load statement.tableName files = ⟨es, .ok table⟩)
    (hload' : Table.load statement.tableName (after files es) = ⟨[], .ok table⟩) :
    statement.run files = ⟨es ++ (statement.run (after files es)).effects, (statement.run (after files es)).result⟩ := by
  have hbehind : ∀ f : Table → FileCall (Option Table), (Table.load statement.tableName >>= f) files =
      ⟨es ++ ((Table.load statement.tableName >>= f) (after files es)).effects,
        ((Table.load statement.tableName >>= f) (after files es)).result⟩ := fun f => by
    rw [bind_run_ok hload, bind_run_pure hload']
  cases statement with
  | create tableName fields => exact absurd rfl (hopens tableName fields)
  | insert tableName values => exact hbehind _
  | select tableName projection condition => exact hbehind _

/-- A table whose log cannot be read refuses whatever opens it. -/
theorem run_unopened {statement : Statement} {files : Files} {c : Corruption}
    (hopens : ∀ tableName fields, statement ≠ .create tableName fields)
    (hload : Table.load statement.tableName files = ⟨[], .error (.corruption c)⟩) :
    statement.run files = ⟨[], .error (.corruption c)⟩ ∧ statement.answer (.blocked c) = .error (.corruption c) := by
  cases statement with
  | create tableName fields => exact absurd rfl (hopens tableName fields)
  | insert tableName values => exact ⟨bind_run_error hload, rfl⟩
  | select tableName projection condition => exact ⟨bind_run_error hload, rfl⟩

/-- **A statement goes as on what its table stands for**, whole or cut off. -/
theorem statement_survives (statement : Statement) {files : Files} {entry : TableEntry}
    (h : Faces files statement.tableName entry) : statement.Survives files entry := by
  by_cases hopens : ∀ tableName fields, statement ≠ .create tableName fields
  · have hquiet : ∀ files, walPresent (diskAt files (Table.databasePath statement.tableName)) = false →
        statement.Survives files (shown files statement.tableName) := fun files hwal => by
      cases statement with
      | create tableName fields => exact absurd rfl (hopens tableName fields)
      | insert tableName values => exact insert_survives_quiet hwal values
      | select tableName projection condition => exact select_survives_quiet hwal projection condition
    cases id h with
    | quiet hwal => exact hquiet files hwal
    | @blocked c hstuck hrecover hreached =>
      obtain ⟨hrun, hanswer⟩ := run_unopened hopens (load_stuck hstuck.present hrecover hreached)
      exact survives_quiet hrun (.thrown hanswer) h
    | @pending fields rows generation hwal hrecoverable hreached =>
      obtain ⟨des, hload, hclean, hcuts⟩ := load_pending hwal hrecoverable hreached
      have hrests := hclean.rests
      rw [← diskAt_after] at hrests
      have hshown := hrests.shown
      obtain ⟨loaded, rfl, rfl, hlen, hload'⟩ := load_rests hrests
      rw [ofLoaded_opened _ hlen] at hload'
      refine survives_behind (hshown ▸ hquiet _ hrests.1) (run_behind hopens hload hload') (fun k => ?_)
      have hcut := hcuts k
      rw [← diskAt_after] at hcut
      exact faces_recoverable hcut (hreached.acted _)
  · simp only [not_forall, not_not] at hopens
    obtain ⟨tableName, fields, rfl⟩ := hopens
    exact create_survives h fields

end Storage
end Sql
