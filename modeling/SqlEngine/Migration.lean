import SqlEngine.Legacy
/-!
# Migration — the v1 migration tool and its promotion

`main` of `sql_migrate_v1.cpp` builds the v2 table in a temporary file of its own, verifies it and links it to the
destination.  What a run may leave behind when it is killed or throws after any of its effects is `Leaves`; whatever it
leaves, the destination is untouched or complete (`promotion_atomic`).
-/
namespace Sql
namespace Storage

open Wire Effects

/-! ## Arguments -/

structure Options where
  dryRun : Bool
  destination : Bytes
  source : Bytes

/-- The loop over the arguments; none when the version is printed. -/
def parseArguments (options : Options) : List Bytes → Except StorageError (Option Options)
  | [] => .ok (some options)
  | argument :: arguments =>
    if argument = ascii "--version" then .ok none
    else if argument = ascii "--dry-run" then parseArguments { options with dryRun := true } arguments
    else if argument = ascii "--destination" then
      match arguments with
      | [] => .error (.invalidArgument "--destination requires a path")
      | path :: arguments => parseArguments { options with destination := path } arguments
    else if argument.head? = some 45 then .error (.invalidArgument ("Unknown option: " ++ text argument))
    else if options.source = [] then parseArguments { options with source := argument } arguments
    else .error (.invalidArgument "Only one v1 table can be migrated per invocation")

/-- The path of the destination. -/
def Options.path (options : Options) : String :=
  if options.destination = [] then Table.databasePath options.source else text options.destination

/-! ## The tool -/

def initializeOwnedEmptyFile (path : String) (fields : List Bytes) (rows : List (List Bytes)) : Call Unit := do
  let disk ← observe id
  attempt (throwIf (disk.database ≠ some [])
    (.runtimeError ("Owned migration file is not an empty regular file: " ++ path)))
  attempt (throwIf (disk.wal.isSome = true) (.runtimeError ("Owned migration WAL already exists: " ++ walPath path)))
  let image ← attempt (buildImage fields rows 1)
  commitImage image 1 ∅

/-- The source as it was read before the first effect. -/
structure Plan where
  schemaBefore : Bytes
  rowsBefore : Bytes
  legacy : LegacyTable

/-- `main` up to its first effect; none for a dry run. -/
def prepare (options : Options) (files : Files) : Except StorageError (Option Plan) := do
  let schemaBefore ← readBytes files (Table.fieldFile options.source)
  let rowsBefore ← readBytes files (Table.tableFile options.source)
  let legacy ← readLegacy options.source files
  if options.dryRun then pure none
  else
    throwIf ((files options.path).isSome = true ∨ (files (walPath options.path)).isSome = true)
      (.runtimeError ("Destination already exists: " ++ options.path))
    pure (some ⟨schemaBefore, rowsBefore, legacy⟩)

/-- The source must be what it was. -/
def recheck (source schemaBefore rowsBefore : Bytes) (files : Files) : Except StorageError Unit := do
  let changed := StorageError.runtimeError "V1 source changed during migration; promotion aborted"
  let schema ← readBytes files (Table.fieldFile source)
  throwIf (schema ≠ schemaBefore) changed
  let rowBytes ← readBytes files (Table.tableFile source)
  throwIf (rowBytes ≠ rowsBefore) changed

/-- The try block up to `link`, which replaces nothing. -/
def verifyCopy (options : Options) (plan : Plan) (temporary : String) : FileCall Unit := do
  onDisk temporary (initializeOwnedEmptyFile temporary plan.legacy.fields plan.legacy.rows)
  let migrated ← onDisk temporary (openTable temporary)
  attempt (throwIf (migrated.fields ≠ plan.legacy.fields ∨ migrated.rows ≠ plan.legacy.rows)
    (.runtimeError "V2 verification does not match the v1 source"))
  perform (.remove (walPath temporary))
  let files ← observe id
  attempt (recheck options.source plan.schemaBefore plan.rowsBefore files)
  attempt (throwIf ((files options.path).isSome = true)
    (.runtimeError "Unable to promote without replacing the destination: File exists"))

/-- The try block.  From the link on nothing writes to the file that both names stand for. -/
def promote (options : Options) (plan : Plan) (temporary : String) : FileCall Unit := do
  verifyCopy options plan temporary
  performAll [.link temporary options.path, .remove temporary]

/-- The catch block. -/
def cleanup (temporary : String) : List FileEffect := [.remove temporary, .remove (walPath temporary)]

/-- The name `mkstemp` makes of its template. -/
def Options.temporary (options : Options) (suffix : String) : String := options.path ++ ".tmp." ++ suffix

/-- `main` from `mkstemp` on, which tries the name with `suffix`. -/
def stage (options : Options) (suffix : String) (plan : Plan) : FileCall Nat := do
  let taken ← observe (fun files : Files => (files (options.temporary suffix)).isSome)
  attempt (throwIf (taken = true) (.runtimeError "Unable to create an exclusive migration file: File exists"))
  perform (.create (options.temporary suffix))
  rescue (promote options plan (options.temporary suffix)) (cleanup (options.temporary suffix))
  pure 0

/-- `main` behind its arguments. -/
def migrate (options : Options) (suffix : String) : FileCall Nat := do
  let files ← observe id
  let plan ← attempt (prepare options files)
  plan.elim (pure 0) (stage options suffix)

def main (arguments : List Bytes) (suffix : String) : FileCall Nat := do
  let options ← attempt (parseArguments ⟨false, [], []⟩ arguments)
  match options with
  | none => pure 0
  | some options => if options.source = [] then pure 2 else migrate options suffix

/-! ## Runs that are cut off -/

/-- What `migrate` may leave behind.  The try block is cut off after `k` effects by a kill or an exception, and so is the
catch block behind it; a try block that came to its end has left nothing to clean up. -/
inductive Leaves (options : Options) (suffix : String) (files : Files) : Files → Prop
  | untouched : Leaves options suffix files files
  | cut {plan : Plan} (hplan : prepare options files = .ok (some plan)) (hfresh : files (options.temporary suffix) = none)
      (k j : Nat) : Leaves options suffix files (after files (.create (options.temporary suffix) ::
        (promote options plan (options.temporary suffix)
          (Function.update files (options.temporary suffix) (some []))).effects.take k ++
        (cleanup (options.temporary suffix)).take j))

theorem stage_leaves {options : Options} (suffix : String) {files : Files} {plan : Plan}
    (hplan : prepare options files = .ok (some plan)) :
    Leaves options suffix files (after files (stage options suffix plan files).effects) := by
  unfold stage
  rw [observe_bind]
  by_cases hfresh : (files (options.temporary suffix)).isSome = true
  · rw [throwIf, if_pos hfresh]
    exact .untouched
  · have hcut := @Leaves.cut options suffix files plan hplan (by simpa using hfresh)
    rw [throwIf_neg hfresh, attempt_ok_bind, perform_bind_effects, bind_pure_effects]
    rcases rescue_effects (promote options plan (options.temporary suffix)) (cleanup (options.temporary suffix))
      (Function.update files (options.temporary suffix) (some [])) with heffects | heffects
    · have h := hcut (promote options plan (options.temporary suffix)
        (Function.update files (options.temporary suffix) (some []))).effects.length 0
      rw [List.take_length, List.take_zero, List.append_nil, ← heffects] at h
      exact h
    · have h := hcut (promote options plan (options.temporary suffix)
        (Function.update files (options.temporary suffix) (some []))).effects.length 2
      rw [List.take_length, show (cleanup (options.temporary suffix)).take 2 = cleanup (options.temporary suffix) from rfl,
        List.cons_append, ← heffects] at h
      exact h

/-- A run that nothing disturbs is one of them. -/
theorem migrate_leaves (options : Options) (suffix : String) (files : Files) :
    Leaves options suffix files (after files (migrate options suffix files).effects) := by
  unfold migrate
  rw [observe_id_bind]
  cases hplan : prepare options files with
  | error e => exact .untouched
  | ok plan =>
    cases plan with
    | none => exact .untouched
    | some plan => exact stage_leaves suffix hplan

theorem main_leaves (arguments : List Bytes) (suffix : String) (files : Files) :
    (main arguments suffix files).effects = [] ∨ ∃ options, parseArguments ⟨false, [], []⟩ arguments = .ok (some options) ∧
      Leaves options suffix files (after files (main arguments suffix files).effects) := by
  unfold main
  cases hparse : parseArguments ⟨false, [], []⟩ arguments with
  | error e => exact Or.inl rfl
  | ok parsed =>
    rw [attempt_ok_bind]
    cases parsed with
    | none => exact Or.inl rfl
    | some options =>
      by_cases hsource : options.source = []
      · left
        simp only [hsource, if_true]
        rfl
      · right
        simp only [hsource, if_false]
        exact ⟨options, rfl, migrate_leaves options suffix files⟩

/-! ## Effects on the temporary file -/

/-- Effects on the temporary file and its log. -/
def Scratch (temporary : String) : FileEffect → Prop
  | .disk path _ => path = temporary
  | .create path => path = temporary
  | .remove path => path = temporary ∨ path = walPath temporary
  | .link _ _ => False

theorem act_scratch {temporary other : String} {e : FileEffect} (he : Scratch temporary e) (h : other ≠ temporary)
    (hw : other ≠ walPath temporary) (files : Files) : e.act files other = files other := by
  cases e with
  | disk path effect =>
    obtain rfl : path = temporary := he
    exact withDisk_other _ h hw
  | create path =>
    obtain rfl : path = temporary := he
    exact Function.update_of_ne h _ _
  | remove path =>
    rcases he with rfl | rfl
    · exact Function.update_of_ne h _ _
    · exact Function.update_of_ne hw _ _
  | link source destination => exact he.elim

/-- **Scratch effects** leave every other file alone. -/
theorem after_scratch {temporary other : String} (h : other ≠ temporary) (hw : other ≠ walPath temporary) :
    ∀ {es : List FileEffect}, (∀ e ∈ es, Scratch temporary e) → ∀ files : Files, after files es other = files other
  | [], _, _ => rfl
  | e :: es, hes, files => by
    rw [after_cons, after_scratch h hw (fun e' he' => hes e' (List.mem_cons_of_mem e he'))]
    exact act_scratch (hes e List.mem_cons_self) h hw files

theorem cleanup_scratch (temporary : String) : ∀ e ∈ cleanup temporary, Scratch temporary e := by
  simp [cleanup, Scratch]

theorem emits_onDisk {α : Type} (temporary : String) (call : Call α) : Emits (onDisk temporary call) (Scratch temporary) :=
  fun files e he => by
    obtain ⟨effect, -, rfl⟩ := List.mem_map.1 he
    rfl

theorem verifyCopy_scratch (options : Options) (plan : Plan) (temporary : String) :
    Emits (verifyCopy options plan temporary) (Scratch temporary) := by
  unfold verifyCopy
  refine Emits.bind (emits_onDisk temporary _) (fun _ => ?_)
  refine Emits.bind (emits_onDisk temporary _) (fun migrated => ?_)
  refine Emits.bind (emits_attempt _ _) (fun _ => ?_)
  refine Emits.bind (emits_perform ?_) (fun _ => ?_)
  · exact Or.inr rfl
  refine Emits.bind (emits_observe _ _) (fun files => ?_)
  refine Emits.bind (emits_attempt _ _) (fun _ => ?_)
  exact emits_attempt _ _

/-- **In front of the link** the temporary file has been read back. -/
theorem verifyCopy_ok {options : Options} {plan : Plan} {temporary : String} {files : Files} {es : List FileEffect}
    {u : Unit}
    (h : verifyCopy options plan temporary files = ⟨es, .ok u⟩) :
      ∃ image P, after files es temporary = some image ∧ parseImage image false = .ok P ∧
        P.table.fields = plan.legacy.fields ∧ P.table.rows = plan.legacy.rows := by
  unfold verifyCopy at h
  obtain ⟨es₁, _, es₂, -, h1, rfl⟩ := run_bind_ok.1 h
  obtain ⟨es₃, migrated, es₄, hopen, h2, rfl⟩ := run_bind_ok.1 h1
  obtain ⟨_, hsame, h3⟩ := attempt_bind_ok.1 h2
  obtain ⟨es₅, _, es₆, hremove, h4, rfl⟩ := run_bind_ok.1 h3
  obtain ⟨rfl, -⟩ : [FileEffect.remove (walPath temporary)] = es₅ ∧ _ := Outcome.mk.inj hremove
  rw [observe_bind] at h4
  obtain ⟨_, -, h5⟩ := attempt_bind_ok.1 h4
  obtain ⟨-, rfl⟩ := attempt_ok.1 h5
  obtain ⟨des, hdisk, rfl⟩ := onDisk_ok hopen
  obtain ⟨-, image, P, hdb, hP, rfl⟩ := openTable_after hdisk
  rw [← diskAt_after] at hdb
  obtain ⟨hfields, hrows⟩ := not_or.1 (throwIf_ok.1 hsame)
  rw [List.append_nil, after_append, after_append]
  refine ⟨image, P, ?_, hP, not_not.1 hfields, not_not.1 hrows⟩
  exact (Function.update_of_ne (walPath_ne temporary).symm _ _).trans hdb

/-- **The try block, cut off**: scratch effects, or a verified copy, the link and scratch effects. -/
theorem promote_cut (options : Options) (plan : Plan) (temporary : String) (files : Files) (k : Nat) :
    (∀ e ∈ (promote options plan temporary files).effects.take k, Scratch temporary e) ∨
      ∃ before behind, (promote options plan temporary files).effects.take k =
          before ++ FileEffect.link temporary options.path :: behind ∧
        (∀ e ∈ before, Scratch temporary e) ∧ (∀ e ∈ behind, Scratch temporary e) ∧
        ∃ image P, after files before temporary = some image ∧ parseImage image false = .ok P ∧
          P.table.fields = plan.legacy.fields ∧ P.table.rows = plan.legacy.rows := by
  have hscratch := verifyCopy_scratch options plan temporary files
  rcases hrun : verifyCopy options plan temporary files with ⟨es, _ | u⟩
  · left
    rw [promote, bind_run_error hrun]
    rw [hrun] at hscratch
    exact fun e he => hscratch e (List.mem_of_mem_take he)
  · rw [promote, bind_run_ok hrun]
    rw [hrun] at hscratch
    by_cases hk : k ≤ es.length
    · left
      rw [List.take_append_of_le_length hk]
      exact fun e he => hscratch e (List.mem_of_mem_take he)
    · right
      obtain ⟨m, rfl⟩ := Nat.exists_eq_add_of_lt (Nat.lt_of_not_le hk)
      refine ⟨es, [FileEffect.remove temporary].take m, ?_, hscratch, fun e he => ?_, verifyCopy_ok hrun⟩
      · rw [List.take_append, List.take_of_length_le (by omega), show es.length + m + 1 - es.length = m + 1 by omega]
        rfl
      · obtain rfl := List.mem_singleton.1 (List.mem_of_mem_take he)
        exact Or.inl rfl

/-- **A try block and a catch block, both cut off**: only the destination may differ outside the temporary files, and then
it is the verified copy. -/
theorem promote_leaves {options : Options} {temporary : String} (hne : options.path ≠ temporary)
    (hnw : options.path ≠ walPath temporary) (plan : Plan) (files : Files) (k j : Nat) {files' : Files}
    (hfiles' : files' = after files ((promote options plan temporary files).effects.take k ++ (cleanup temporary).take j)) :
    (∀ path, path ≠ temporary → path ≠ walPath temporary → path ≠ options.path → files' path = files path) ∧
    (files' options.path = files options.path ∨ ∃ image P, files' options.path = some image ∧
      parseImage image false = .ok P ∧ P.table.fields = plan.legacy.fields ∧ P.table.rows = plan.legacy.rows) := by
  have hclean : ∀ e ∈ (cleanup temporary).take j, Scratch temporary e := fun e he =>
    cleanup_scratch temporary e (List.mem_of_mem_take he)
  rcases promote_cut options plan temporary files k with
    hscratch | ⟨before, behind, htake, hbefore, hbehind, image, P, himage, hP, hfields, hrows⟩
  · have hall : ∀ e ∈ (promote options plan temporary files).effects.take k ++ (cleanup temporary).take j,
        Scratch temporary e := fun e he => (List.mem_append.1 he).elim (hscratch e) (hclean e)
    subst hfiles'
    exact ⟨fun path h1 h2 _ => after_scratch h1 h2 hall files, Or.inl (after_scratch hne hnw hall files)⟩
  · have hlater : ∀ e ∈ behind ++ (cleanup temporary).take j, Scratch temporary e := fun e he =>
      (List.mem_append.1 he).elim (hbehind e) (hclean e)
    rw [htake, List.append_assoc, List.cons_append, after_append, after_cons] at hfiles'
    have hlink : files' options.path = some image := by
      rw [hfiles', after_scratch hne hnw hlater]
      exact (Function.update_self _ _ _).trans himage
    refine ⟨fun path h1 h2 h3 => ?_, Or.inr ⟨image, P, hlink, hP, hfields, hrows⟩⟩
    rw [hfiles', after_scratch h1 h2 hlater]
    exact (Function.update_of_ne h3 _ _).trans (after_scratch h1 h2 hbefore files)

/-! ## Promotion -/

theorem length_walPath (path : String) : (walPath path).length = path.length + 4 := by
  have hwal : "-wal".length = 4 := by decide
  rw [walPath, String.length_append, hwal]

theorem Options.length_temporary (options : Options) (suffix : String) :
    (options.temporary suffix).length = options.path.length + 5 + suffix.length := by
  have htmp : ".tmp.".length = 5 := by decide
  rw [Options.temporary, String.length_append, String.length_append, htmp]

theorem ne_of_length {s t : String} (h : s.length ≠ t.length) : s ≠ t := fun heq => h (congrArg String.length heq)

/-- No log is a v1 file. -/
theorem walPath_ne_of_last {path name : String} (h : name.toList.getLast? = some 'n') : name ≠ walPath path := by
  rintro rfl
  simp [walPath] at h

theorem fieldFile_ne_walPath (source : Bytes) (path : String) : Table.fieldFile source ≠ walPath path :=
  walPath_ne_of_last (by simp [Table.fieldFile])

theorem tableFile_ne_walPath (source : Bytes) (path : String) : Table.tableFile source ≠ walPath path :=
  walPath_ne_of_last (by simp [Table.tableFile])

theorem prepare_ok {options : Options} {files : Files} {plan : Plan} (h : prepare options files = .ok (some plan)) :
    files (Table.fieldFile options.source) = some plan.schemaBefore ∧
      files (Table.tableFile options.source) = some plan.rowsBefore ∧
      readLegacy options.source files = .ok plan.legacy ∧ files options.path = none ∧
      files (walPath options.path) = none := by
  unfold prepare at h
  obtain ⟨schema, hschema, h1⟩ := except_bind_ok.1 h
  obtain ⟨rowBytes, hbytes, h2⟩ := except_bind_ok.1 h1
  obtain ⟨legacy, hlegacy, h3⟩ := except_bind_ok.1 h2
  by_cases hdry : options.dryRun = true
  · rw [if_pos hdry] at h3
    cases h3
  · rw [if_neg hdry] at h3
    obtain ⟨_, hnone, h4⟩ := except_bind_ok.1 h3
    obtain rfl := Option.some.inj (Except.ok.inj h4)
    obtain ⟨hpath, hwal⟩ := not_or.1 (throwIf_ok.1 hnone)
    exact ⟨readBytes_ok.1 hschema, readBytes_ok.1 hbytes, hlegacy, by simpa using hpath, by simpa using hwal⟩

/-- **Promotion is all-or-nothing**: wherever a run is cut off, the source files and the log of the destination are what
they were, and the destination is what it was or, where there was none, an image that holds what `read_legacy` found. -/
theorem promotion_atomic {options : Options} {suffix : String} {files files' : Files}
    (h : Leaves options suffix files files') :
    files' (Table.fieldFile options.source) = files (Table.fieldFile options.source) ∧
    files' (Table.tableFile options.source) = files (Table.tableFile options.source) ∧
    files' (walPath options.path) = files (walPath options.path) ∧
    (files' options.path = files options.path ∨ files options.path = none ∧ ∃ legacy image P,
      readLegacy options.source files = .ok legacy ∧ files' options.path = some image ∧
      parseImage image false = .ok P ∧ P.table.fields = legacy.fields ∧ P.table.rows = legacy.rows) := by
  cases h with
  | untouched => exact ⟨rfl, rfl, rfl, Or.inl rfl⟩
  | @cut plan hplan hfresh k j =>
    obtain ⟨hschema, hbytes, hlegacy, hpath, hwal⟩ := prepare_ok hplan
    have htlen := options.length_temporary suffix
    have hplen := length_walPath options.path
    generalize options.temporary suffix = temporary at hfresh htlen ⊢
    have hwlen := length_walPath temporary
    have hne : options.path ≠ temporary := ne_of_length (by omega)
    have hnew : ∀ path, path ≠ temporary → Function.update files temporary (some []) path = files path :=
      fun path h => Function.update_of_ne h _ _
    obtain ⟨hsame, hdestination⟩ := promote_leaves hne (ne_of_length (by omega)) plan
      (Function.update files temporary (some [])) k j rfl
    -- a path that had a file is neither the temporary file nor the destination
    have hsource : ∀ path, (files path).isSome = true → path ≠ walPath temporary →
        after (Function.update files temporary (some [])) ((promote options plan temporary
          (Function.update files temporary (some []))).effects.take k ++ (cleanup temporary).take j) path = files path := by
      intro path hsome hpw
      have hpt : path ≠ temporary := by
        rintro rfl
        rw [hfresh] at hsome
        cases hsome
      have hpd : path ≠ options.path := by
        rintro rfl
        rw [hpath] at hsome
        cases hsome
      exact (hsame path hpt hpw hpd).trans (hnew path hpt)
    refine ⟨hsource _ (by rw [hschema]; rfl) (fieldFile_ne_walPath options.source temporary),
      hsource _ (by rw [hbytes]; rfl) (tableFile_ne_walPath options.source temporary), ?_, ?_⟩
    · have hwt : walPath options.path ≠ temporary := ne_of_length (by omega)
      exact (hsame _ hwt (ne_of_length (by omega)) (walPath_ne options.path)).trans (hnew _ hwt)
    · rcases hdestination with hkept | ⟨image, P, himage, hP, hfields, hrows⟩
      · exact Or.inl (hkept.trans (hnew _ hne))
      · exact Or.inr ⟨hpath, plan.legacy, image, P, hlegacy, himage, hP, hfields, hrows⟩

/-- **A run that returned** and was not a dry run has put the table in its place, and removed the temporary file. -/
theorem migrate_returned {options : Options} {suffix : String} {files : Files} {es : List FileEffect} {code : Nat}
    (hdry : options.dryRun = false) (h : migrate options suffix files = ⟨es, .ok code⟩) :
    (∃ legacy image P, readLegacy options.source files = .ok legacy ∧ after files es options.path = some image ∧
      parseImage image false = .ok P ∧ P.table.fields = legacy.fields ∧ P.table.rows = legacy.rows) ∧
    after files es (options.temporary suffix) = none := by
  unfold migrate at h
  rw [observe_bind] at h
  obtain ⟨plan, hplan, h1⟩ := attempt_bind_ok.1 h
  cases plan with
  | none =>
    unfold prepare at hplan
    obtain ⟨_, -, h2⟩ := except_bind_ok.1 hplan
    obtain ⟨_, -, h3⟩ := except_bind_ok.1 h2
    obtain ⟨_, -, h4⟩ := except_bind_ok.1 h3
    rw [if_neg (by rw [hdry]; exact Bool.false_ne_true)] at h4
    obtain ⟨_, -, h5⟩ := except_bind_ok.1 h4
    cases h5
  | some plan =>
    obtain ⟨hschema, hbytes, hlegacy, hpath, hwal⟩ := prepare_ok hplan
    unfold stage at h1
    rw [Option.elim_some, observe_bind] at h1
    obtain ⟨_, -, h2⟩ := attempt_bind_ok.1 h1
    obtain ⟨es₁, _, es₂, hcreate, h3, rfl⟩ := run_bind_ok.1 h2
    obtain ⟨es₃, _, es₄, hpromote, h4, rfl⟩ := run_bind_ok.1 h3
    obtain ⟨-, rfl⟩ := return_ok.1 h4
    obtain ⟨es₅, _, es₆, hverify, h5, rfl⟩ := run_bind_ok.1 (rescue_ok.1 hpromote)
    obtain ⟨image, P, himage, hP, hfields, hrows⟩ := verifyCopy_ok hverify
    obtain ⟨rfl, -⟩ : [FileEffect.link (options.temporary suffix) options.path, .remove (options.temporary suffix)] = es₆ ∧
      _ :=
      Outcome.mk.inj h5
    rw [List.append_nil, after_append, after_append]
    have hne : options.path ≠ options.temporary suffix := ne_of_length (by rw [options.length_temporary suffix]; omega)
    refine ⟨⟨plan.legacy, image, P, hlegacy, ?_, hP, hfields, hrows⟩, Function.update_self _ _ _⟩
    rw [after_cons, after_cons, after_nil]
    exact (Function.update_of_ne hne _ _).trans ((Function.update_self _ _ _).trans himage)

/-! ## Runs that nothing disturbs -/

/-- **The copy is made** in an empty file of its own. -/
theorem initializeOwnedEmptyFile_run (path : String) {fields : List Bytes} {rows : List (List Bytes)} {image : Bytes}
    (himage : buildImage fields rows 1 = .ok image) (hw : Written image fields rows 1) :
    ∃ es, initializeOwnedEmptyFile path fields rows ⟨some [], none⟩ = ⟨es, .ok ()⟩ ∧
      after (⟨some [], none⟩ : Disk) es = ⟨some image, some []⟩ := by
  have hrun : initializeOwnedEmptyFile path fields rows ⟨some [], none⟩ = commitImage image 1 ∅ ⟨some [], none⟩ := by
    unfold initializeOwnedEmptyFile
    rw [observe_bind, throwIf_neg (by simp), attempt_ok_bind, throwIf_neg (by simp), attempt_ok_bind, himage,
      attempt_ok_bind]
  obtain ⟨hresult, hafter⟩ := @after_commitImage fields rows 1 ⟨some [], none⟩ image hw
  rw [hrun]
  exact ⟨_, congrArg (Outcome.mk _) hresult, hafter⟩

/-- A source that is what it was passes. -/
theorem recheck_ok {source schemaBefore rowsBefore : Bytes} {files : Files}
    (hschema : files (Table.fieldFile source) = some schemaBefore)
      (hrows : files (Table.tableFile source) = some rowsBefore) :
    recheck source schemaBefore rowsBefore files = .ok () := by
  unfold recheck
  refine except_bind_ok.2 ⟨_, readBytes_ok.2 hschema, except_bind_ok.2 ⟨(), throwIf_neg (not_not.2 rfl), ?_⟩⟩
  exact except_bind_ok.2 ⟨_, readBytes_ok.2 hrows, throwIf_neg (not_not.2 rfl)⟩

/-- **The try block reaches its link** in a fresh file without a log, if the pages of the image can be numbered. -/
theorem verifyCopy_run {options : Options} {plan : Plan} {temporary : String} {files : Files} {image : Bytes}
    (hplan : prepare options files = .ok (some plan)) (hfresh : files temporary = none)
    (hlog : files (walPath temporary) = none) (hne : options.path ≠ temporary) (hnw : options.path ≠ walPath temporary)
    (himage : buildImage plan.legacy.fields plan.legacy.rows 1 = .ok image)
    (hw : Written image plan.legacy.fields plan.legacy.rows 1) :
    ∃ es, verifyCopy options plan temporary (Function.update files temporary (some [])) = ⟨es, .ok ()⟩ ∧
      after (Function.update files temporary (some [])) es temporary = some image := by
  obtain ⟨hschema, hbytes, -, hpath, -⟩ := prepare_ok hplan
  have hstart : diskAt (Function.update files temporary (some [])) temporary = ⟨some [], none⟩ := by
    rw [diskAt, Function.update_self, Function.update_of_ne (walPath_ne temporary), hlog]
  obtain ⟨es, hrun, hafter⟩ := initializeOwnedEmptyFile_run temporary himage hw
  obtain ⟨P, hP, hholds⟩ := hw.parse false
  generalize hmid : after (Function.update files temporary (some [])) (es.map (FileEffect.disk temporary)) = mid
  have hdisk : diskAt mid temporary = ⟨some image, some []⟩ := by rw [← hmid, diskAt_after, hstart, hafter]
  -- a path that has a file is not the temporary one
  have hother : ∀ path, path ≠ temporary → path ≠ walPath temporary →
      (FileEffect.remove (walPath temporary)).act mid path = files path := fun path h1 h2 => by
    rw [FileEffect.act, Function.update_of_ne h2, ← hmid, after_onDisk_other h1 h2, Function.update_of_ne h1]
  have hthere : ∀ {path bytes}, files path = some bytes → path ≠ temporary := fun h heq => by
    rw [heq, hfresh] at h
    cases h
  have hsame := recheck_ok ((hother _ (hthere hschema) (fieldFile_ne_walPath _ _)).trans hschema)
    ((hother _ (hthere hbytes) (tableFile_ne_walPath _ _)).trans hbytes)
  have hnone : ¬ ((FileEffect.remove (walPath temporary)).act mid options.path).isSome = true := by
    rw [hother _ hne hnw, hpath]
    exact Bool.false_ne_true
  have hmade : onDisk temporary (initializeOwnedEmptyFile temporary plan.legacy.fields plan.legacy.rows)
      (Function.update files temporary (some [])) = ⟨es.map (FileEffect.disk temporary), .ok ()⟩ := by
    rw [onDisk, hstart, hrun]
  have hopened : onDisk temporary (openTable temporary) mid = ⟨[], .ok P.table⟩ := by
    rw [onDisk, hdisk, openTable_clean rfl rfl hP]
    rfl
  refine ⟨es.map (FileEffect.disk temporary) ++ [FileEffect.remove (walPath temporary)], ?_, ?_⟩
  · unfold verifyCopy
    rw [bind_run_ok hmade, hmid, bind_run_pure hopened, throwIf_neg (by simp [hholds.fields_eq, hholds.rows_eq]),
      attempt_ok_bind, bind_run_ok (show perform _ mid = ⟨[FileEffect.remove (walPath temporary)], .ok ()⟩ from rfl),
      observe_id_bind, after_cons, after_nil,
      show Acts.act (FileEffect.remove (walPath temporary)) mid = (FileEffect.remove (walPath temporary)).act mid from rfl,
      hsame, attempt_ok_bind, throwIf_neg hnone]
    rfl
  · rw [after_append, hmid, after_cons, after_nil]
    exact (Function.update_of_ne (walPath_ne temporary).symm _ _).trans (congrArg Disk.database hdisk)

/-- **A migration that nothing disturbs** returns with its copy at the destination. -/
theorem migrate_promotes {options : Options} {suffix : String} {files : Files} {plan : Plan} {image : Bytes}
    (hplan : prepare options files = .ok (some plan)) (hfresh : files (options.temporary suffix) = none)
    (hlog : files (walPath (options.temporary suffix)) = none)
    (himage : buildImage plan.legacy.fields plan.legacy.rows 1 = .ok image)
    (hw : Written image plan.legacy.fields plan.legacy.rows 1) : (migrate options suffix files).result = .ok 0 ∧
      after files (migrate options suffix files).effects options.path = some image := by
  have htlen := options.length_temporary suffix
  have hstage : migrate options suffix files = stage options suffix plan files := by
    unfold migrate
    rw [observe_id_bind, hplan]
    rfl
  rw [hstage]
  unfold stage
  generalize options.temporary suffix = temporary at hfresh hlog htlen ⊢
  have hwlen := length_walPath temporary
  have hne : options.path ≠ temporary := ne_of_length (by omega)
  obtain ⟨es, hverify, hcopy⟩ := verifyCopy_run hplan hfresh hlog hne (ne_of_length (by omega)) himage hw
  have hpromote : promote options plan temporary (Function.update files temporary (some [])) =
      ⟨es ++ [.link temporary options.path, .remove temporary], .ok ()⟩ := by
    rw [promote, bind_run_ok hverify]
    rfl
  rw [observe_bind, throwIf_neg (by simp [hfresh]), attempt_ok_bind,
    bind_run_ok (show perform _ files = ⟨[FileEffect.create temporary], .ok ()⟩ from rfl), after_cons, after_nil,
    show Acts.act (FileEffect.create temporary) files = Function.update files temporary (some []) from rfl,
    bind_run_ok (rescue_ok.2 hpromote)]
  refine ⟨rfl, ?_⟩
  rw [after_append, after_cons, after_nil, pure_run, List.append_nil,
    show Acts.act (FileEffect.create temporary) files = Function.update files temporary (some []) from rfl, after_append,
    after_cons, after_cons, after_nil]
  exact (Function.update_of_ne hne _ _).trans ((Function.update_self _ _ _).trans hcopy)

theorem path_twoLegacy : (Options.mk false [] (ascii "t")).path = Table.databasePath (ascii "t") := if_pos rfl

theorem prepare_twoLegacy : prepare ⟨false, [], ascii "t"⟩ twoLegacy = .ok (some
    ⟨(ascii "2" :: oneFields).flatMap slotOf, oneRows.flatten.flatMap slotOf, ⟨oneFields, oneRows⟩⟩) := by
  have hpath : twoLegacy (Table.databasePath (ascii "t")) = none := legacyFiles_database _ _
  have hwal : twoLegacy (walPath (Table.databasePath (ascii "t"))) = none :=
    legacyFiles_other _ _ (tableFile_ne_walPath _ _).symm (fieldFile_ne_walPath _ _).symm
  unfold prepare
  refine except_bind_ok.2 ⟨_, readBytes_ok.2 (legacyFiles_schema _ _), except_bind_ok.2 ⟨_,
    readBytes_ok.2 (legacyFiles_rows _ _), except_bind_ok.2 ⟨_, readLegacy_twoLegacy, ?_⟩⟩⟩
  rw [if_neg Bool.false_ne_true, path_twoLegacy, throwIf_neg (by rw [hpath, hwal]; simp)]
  rfl

theorem migrate_twoLegacy : after twoLegacy (migrate ⟨false, [], ascii "t"⟩ "abcdef" twoLegacy).effects
    (Table.databasePath (ascii "t")) = some (imageOf onePages) := by
  have hnone : ∀ {path : String} {c : Char}, path.toList.getLast? = some c → c ≠ 'n' → twoLegacy path = none := fun h hc =>
    legacyFiles_other _ _
      (fun heq => hc (by rw [heq] at h; simpa [Table.tableFile] using h.symm))
      (fun heq => hc (by rw [heq] at h; simpa [Table.fieldFile] using h.symm))
  have hfresh : twoLegacy ((Options.mk false [] (ascii "t")).temporary "abcdef") = none :=
    hnone (c := 'f') (by simp [Options.temporary]) (by decide)
  have hlog : twoLegacy (walPath ((Options.mk false [] (ascii "t")).temporary "abcdef")) = none :=
    hnone (c := 'l') (by simp [walPath]) (by decide)
  exact path_twoLegacy ▸ (migrate_promotes prepare_twoLegacy hfresh hlog buildImage_onePages onePages_written).2

/-- The whole run: the destination holds the two rows, and the v1 files stay. -/
theorem promotion_atomic_twoLegacy : ∃ files' image P, Leaves ⟨false, [], ascii "t"⟩ "abcdef" twoLegacy files' ∧
    files' (Table.tableFile (ascii "t")) = twoLegacy (Table.tableFile (ascii "t")) ∧
    files' (Table.databasePath (ascii "t")) = some image ∧ parseImage image false = .ok P ∧
    P.table.fields = oneFields ∧ P.table.rows = oneRows := by
  have hleaves := migrate_leaves ⟨false, [], ascii "t"⟩ "abcdef" twoLegacy
  obtain ⟨-, hrows, -, hdestination⟩ := promotion_atomic hleaves
  rw [path_twoLegacy] at hdestination
  rcases hdestination with hsame | ⟨-, legacy, image, P, hread, himage, hP, hfields, hrows'⟩
  · rw [migrate_twoLegacy, show twoLegacy (Table.databasePath (ascii "t")) = none from legacyFiles_database _ _] at hsame
    cases hsame
  · obtain rfl := Except.ok.inj (readLegacy_twoLegacy.symm.trans hread)
    exact ⟨_, image, P, hleaves, hrows, himage, hP, hfields, hrows'⟩

end Storage
end Sql
