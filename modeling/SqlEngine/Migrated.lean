import SqlEngine.Survival
import SqlEngine.Migration
import SqlEngine.Statements
/-!
# Migrated — a migrated table answers as before

The migration tool next to the tables of a directory.  Wherever it is cut off, the other tables are what they were, and so
is its own, or the same rows are in a v2 table (`leaves_faces`); so every select is answered as before (`migrated_answers`).
-/
namespace Sql
namespace Storage

open Wire Effects Maps Query

/-! ## Names of the engine and names of the tool -/

def dots (path : String) : Nat := path.toList.count '.'

theorem identifier_dots {name : Bytes} (hid : isIdentifier name = true) : dots (text name) = 0 := by
  have hbyte : ∀ n : Fin 256, isWord (UInt8.ofNat n.val) = true → Char.ofNat n.val ≠ '.' := by decide +kernel
  rw [dots, text, String.toList_ofList]
  refine List.count_eq_zero.2 (fun hmem => ?_)
  obtain ⟨b, hb, hdot⟩ := List.mem_map.1 hmem
  have hword := hbyte ⟨b.toNat, b.toNat_lt⟩
  rw [UInt8.ofNat_toNat] at hword
  exact hword (isIdentifier_bytes hid b hb) hdot

/-- The files of a table of the engine have one dot in their names. -/
theorem table_dots {name : Bytes} (hid : isIdentifier name = true) : dots (Table.databasePath name) = 1 ∧
    dots (walPath (Table.databasePath name)) = 1 ∧ dots (Table.tableFile name) = 1 ∧ dots (Table.fieldFile name) = 1 := by
  have hnone := identifier_dots hid
  unfold dots at hnone ⊢
  simp [Table.databasePath, walPath, Table.tableFile, Table.fieldFile, hnone]

/-- The temporary files of the tool have more. -/
theorem temporary_dots (options : Options) (suffix : String) : 1 < dots (options.temporary suffix) ∧
    1 < dots (walPath (options.temporary suffix)) := by
  unfold dots
  simp [Options.temporary, walPath]
  omega

/-! ## What a run of the tool leaves -/

/-- **A run of the tool, cut off**: outside its own files nothing changes but the destination, where there was nothing. -/
theorem leaves_files {options : Options} {suffix : String} {files files' : Files} (h : Leaves options suffix files files')
    (hdots : dots options.path ≤ 1) :
    (∀ path, dots path ≤ 1 → files' path = files path) ∨ ∃ plan, prepare options files = .ok (some plan) ∧
      (∀ path, dots path ≤ 1 → path ≠ options.path → files' path = files path) ∧ ∃ image P,
        files' options.path = some image ∧
        parseImage image false = .ok P ∧ P.table.fields = plan.legacy.fields ∧ P.table.rows = plan.legacy.rows := by
  cases h with
  | untouched => exact Or.inl (fun _ _ => rfl)
  | @cut plan hplan _ k j =>
    obtain ⟨htemporary, hlog⟩ := temporary_dots options suffix
    generalize options.temporary suffix = temporary at htemporary hlog ⊢
    have happart : ∀ path, dots path ≤ 1 → path ≠ temporary ∧ path ≠ walPath temporary := fun path hpath =>
      ⟨fun heq => by rw [heq] at hpath; omega, fun heq => by rw [heq] at hpath; omega⟩
    have hnew : ∀ path, dots path ≤ 1 → Function.update files temporary (some []) path = files path := fun path hpath =>
      Function.update_of_ne (happart path hpath).1 _ _
    obtain ⟨hsame, hdestination⟩ := promote_leaves (happart _ hdots).1 (happart _ hdots).2 plan
      (Function.update files temporary (some [])) k j rfl
    have hother : ∀ path, dots path ≤ 1 → path ≠ options.path → after (Function.update files temporary (some []))
        ((promote options plan temporary (Function.update files temporary (some []))).effects.take k ++
          (cleanup temporary).take j) path = files path := fun path hpath hne =>
      (hsame path (happart path hpath).1 (happart path hpath).2 hne).trans (hnew path hpath)
    rcases hdestination with hkept | hmoved
    · refine Or.inl (fun path hpath => ?_)
      by_cases heq : path = options.path
      · rw [heq]
        exact hkept.trans (hnew _ hdots)
      · exact hother path hpath heq
    · exact Or.inr ⟨plan, hplan, hother, hmoved⟩

section
variable {source : Bytes} {suffix : String} {files files' : Files} (hid : isIdentifier source = true)
include hid

/-- **A migration, cut off**: the other tables are what they were, and so is its own, or its rows are in a v2 table. -/
theorem leaves_tables (h : Leaves ⟨false, [], source⟩ suffix files files') :
    (∀ name, isIdentifier name = true → name ≠ source → SameTable name files files') ∧
    (SameTable source files files' ∨ ∃ legacy : LegacyTable,
      walPresent (diskAt files (Table.databasePath source)) = false ∧ files (Table.databasePath source) = none ∧
      shown files source = .stored ⟨legacy.fields, legacy.rows⟩ false ∧
      Rests (diskAt files' (Table.databasePath source)) legacy.fields legacy.rows) := by
  have hpath : (Options.mk false [] source).path = Table.databasePath source := if_pos rfl
  obtain ⟨hdatabase, hlog, hrecords, hfields⟩ := table_dots hid
  have hsame : (∀ path, dots path ≤ 1 → files' path = files path) → ∀ name, isIdentifier name = true →
      SameTable name files files' := fun hall name hname => by
    obtain ⟨hdb, hwal, htable, hfield⟩ := table_dots hname
    exact ⟨hall _ hdb.le, hall _ hwal.le, hall _ htable.le, hall _ hfield.le⟩
  rcases leaves_files h (by rw [hpath, hdatabase]) with hall | ⟨plan, hplan, hother, image, P, himage, hP, hPfields, hProws⟩
  · exact ⟨fun name hname _ => hsame hall name hname, Or.inl (hsame hall source hid)⟩
  · rw [hpath] at hother himage
    obtain ⟨hschema, hbytes, hlegacy, hnone, hnolog⟩ := prepare_ok hplan
    rw [hpath] at hnone hnolog
    have hquiet : walPresent (diskAt files (Table.databasePath source)) = false := by
      rw [diskAt, hnolog]
      rfl
    refine ⟨fun name hname hne => ?_, Or.inr ⟨plan.legacy, hquiet, hnone, ?_, ?_⟩⟩
    · obtain ⟨hdb, hwal, htable, hfield⟩ := table_dots hname
      obtain ⟨hapart, htable', -, hfield', -⟩ := paths_apart name source
      exact ⟨hother _ hdb.le (fun heq => hne (databasePath_injective heq)),
        hother _ hwal.le (fun heq => (paths_apart source name).1 heq.symm), hother _ htable.le htable',
          hother _ hfield.le hfield'⟩
    · have hload := load_legacy hlegacy hnone
      obtain ⟨hshows, hv1⟩ := filled_shows source plan.legacy.fields plan.legacy.rows
      rw [shown, if_pos (Or.inl (by rw [show files (Table.tableFile source) = _ from hbytes]; rfl)), hload]
      dsimp only
      rw [hv1, Table.relation, hshows.fields_eq, hshows.rows_eq]
    · have hlog' : files' (walPath (Table.databasePath source)) = none :=
        (hother _ hlog.le (fun heq => (paths_apart source source).1 heq.symm)).trans hnolog
      rw [diskAt, himage, hlog']
      exact ⟨rfl, image, P, rfl, hP, hPfields, hProws⟩

omit hid in
/-- The tool returns when it has made the database. -/
theorem migrate_moves {es : List FileEffect} {code : Nat} (h : migrate ⟨false, [], source⟩ suffix files = ⟨es, .ok code⟩) :
    after files es (Table.databasePath source) ≠ files (Table.databasePath source) := by
  have hpath : (Options.mk false [] source).path = Table.databasePath source := if_pos rfl
  obtain ⟨⟨_, image, _, -, himage, -⟩, -⟩ := migrate_returned rfl h
  rw [hpath] at himage
  unfold migrate at h
  rw [observe_bind] at h
  obtain ⟨plan, hplan, -⟩ := attempt_bind_ok.1 h
  cases plan with
  | none =>
    obtain ⟨_, -, hplan⟩ := except_bind_ok.1 hplan
    obtain ⟨_, -, hplan⟩ := except_bind_ok.1 hplan
    obtain ⟨_, -, hplan⟩ := except_bind_ok.1 hplan
    obtain ⟨_, -, hplan⟩ := except_bind_ok.1 hplan
    cases hplan
  | some plan =>
    obtain ⟨-, -, -, hnone, -⟩ := prepare_ok hplan
    rw [hpath] at hnone
    rw [himage, show files (Table.databasePath source) = none from hnone]
    simp

end

/-! ## Answers -/

/-- A statement names a table of the engine. -/
theorem Says.identifier {cmd : Bytes} {statement : Statement} (h : Says cmd statement) :
    isIdentifier statement.tableName = true := by
  unfold Says Statement.ofTree at h
  obtain ⟨_, -, h⟩ := except_bind_ok.1 h
  split at h
  · obtain ⟨_, hid, h⟩ := except_bind_ok.1 h
    have htable := Bool.not_eq_false _ ▸ throwIf_ok.1 hid
    split_ifs at h <;> cases h <;> exact htable
  · cases h

/-- A select does not ask what takes rows. -/
theorem select_writable (relation : Relation) (writable : Bool) (tableName : Bytes) (projection : List Bytes)
    (condition : Option (List Bytes)) :
    ((Statement.select tableName projection condition).answer (.stored relation writable)).map (Option.map Prod.fst) =
      ((Statement.select tableName projection condition).answer (.stored relation true)).map (Option.map Prod.fst) := by
  simp only [Statement.answer, TableEntry.load, except_ok_bind]
  cases projection with
  | nil => rfl
  | cons first fields =>
    dsimp only
    cases relation.select tableName (if first = ascii "*" then relation.fieldNames else first :: fields)
      (condition.getD []) <;> rfl

/-- **Every select is answered as before**, on every table and wherever the migration was cut off. -/
theorem migrated_answers {source : Bytes} {suffix : String} {files files' : Files} {cmd tableName : Bytes}
    {projection : List Bytes} {condition : Option (List Bytes)} (hid : isIdentifier source = true) (hsettled : Settled files)
    (h : Leaves ⟨false, [], source⟩ suffix files files') (hmeans : Says cmd (.select tableName projection condition)) :
    (SQL.command cmd files').map Prod.fst = (SQL.command cmd files).map Prod.fst := by
  have hquiet := hsettled tableName
  obtain ⟨hquiet', hentry⟩ : walPresent (diskAt files' (Table.databasePath tableName)) = false ∧
      (shown files' tableName = shown files tableName ∨ ∃ relation, shown files tableName = .stored relation false ∧
        shown files' tableName = .stored relation true) := by
    obtain ⟨hother, hsource⟩ := leaves_tables hid h
    by_cases heq : tableName = source
    · subst heq
      rcases hsource with hsame | ⟨legacy, -, -, hshown, hrests⟩
      · exact ⟨hsame.disk ▸ hquiet, Or.inl hsame.shown⟩
      · exact ⟨hrests.1, Or.inr ⟨_, hshown, hrests.shown⟩⟩
    · have hsame := hother tableName hmeans.identifier heq
      exact ⟨hsame.disk ▸ hquiet, Or.inl hsame.shown⟩
  have hanswer : ((Statement.select tableName projection condition).answer (shown files' tableName)).map
    (Option.map Prod.fst) =
      ((Statement.select tableName projection condition).answer (shown files tableName)).map (Option.map Prod.fst) := by
    rcases hentry with hsame | ⟨relation, hv1, hv2⟩
    · rw [hsame]
    · rw [hv1, hv2]
      exact (select_writable relation false tableName projection condition).symm
  rw [SQL.command, SQL.command, run_stated hmeans, run_stated hmeans, (select_agrees hquiet projection condition).1,
    (select_agrees hquiet' projection condition).1, hanswer]
  cases ((Statement.select tableName projection condition).answer (shown files tableName)).map (Option.map Prod.fst) with
  | error e => cases e <;> rfl
  | ok table => cases table <;> rfl

theorem legacyFiles_settled (schema rows : Bytes) : Settled (legacyFiles schema rows) := fun tableName => by
  have hwal : legacyFiles schema rows (walPath (Table.databasePath tableName)) = none :=
    legacyFiles_other _ _ (tableFile_ne_walPath _ _).symm (fieldFile_ne_walPath _ _).symm
  rw [diskAt, hwal]
  rfl

/-- A table that was promoted. -/
theorem migrated_answers_twoLegacy : ∃ files', Leaves ⟨false, [], ascii "t"⟩ "abcdef" twoLegacy files' ∧
    files' (Table.databasePath (ascii "t")) = some (imageOf onePages) ∧
    (SQL.command (ascii "select b, a from t where b = \"x\" or a > 1") files').map Prod.fst =
      (SQL.command (ascii "select b, a from t where b = \"x\" or a > 1") twoLegacy).map Prod.fst :=
  ⟨_, migrate_leaves _ _ _, migrate_twoLegacy, migrated_answers (by decide) (legacyFiles_settled _ _) (migrate_leaves _ _ _)
    (by decide +kernel : Says (ascii "select b, a from t where b = \"x\" or a > 1")
      (.select (ascii "t") [ascii "b", ascii "a"]
      (some [ascii "b", ascii "=", ascii "x", ascii "or", ascii "a", ascii ">", ascii "1"])))⟩

end Storage
end Sql
