import SqlEngine.Growth
/-!
# Creation — a table that is being made

Creating a table may be killed after any effect.  Until its log record is complete there is no table, and a part of the
record blocks the name for good; from then on the table exists although its database is missing, empty or blank (`Rising`),
and whoever opens it finishes the work (`recover_rising`).  `createTable_cuts` says where a cut falls.
-/
namespace Sql
namespace Storage

open Wire BTree Blocks Effects

/-! ## Blank files -/

/-- No byte has been written to the first page. -/
def Blank (file : Bytes) : Prop := file = [] ∨ (pageSize ≤ file.length ∧ block pageSize file 0 = zeros pageSize)

/-- **A blank file is corrupt**, whatever its other pages are. -/
theorem Blank.parse {file : Bytes} (h : Blank file) (walPresent : Bool) :
    ∃ c, parseImage file walPresent = .error (.corruption c) := by
  rcases h with rfl | ⟨hlen, hblock⟩
  · exact ⟨_, by rw [parseImage, throwIf, if_pos (Or.inl rfl)]; rfl⟩
  rcases parseImage_pages file walPresent with hc | ⟨pages, rfl, hpages, -, -⟩
  · exact hc
  · cases pages with
    | nil => exact absurd hlen (by decide)
    | cons page pages =>
      rw [imageOf, block_flatMap hpages.length_pageImage (by rfl : (page :: pages)[0]? = some page)] at hblock
      have hhead := congrArg List.head? hblock
      rw [pageImage, pageBytes] at hhead
      cases hhead

theorem Blank.resize {file : Bytes} (h : Blank file) {n : Nat} (hn : pageSize ≤ n) : Blank (Blocks.resize n file) := by
  refine Or.inr ⟨by rw [length_resize]; exact hn, ?_⟩
  rcases h with rfl | ⟨hlen, hblock⟩
  · have hzeros : Blocks.resize n ([] : Bytes) = zeros n := by simp [Blocks.resize, zeros]
    rw [hzeros, block, Nat.zero_mul, List.drop_zero, zeros, zeros, List.take_replicate, Nat.min_eq_left hn]
  · rw [block_resize (by omega) (by omega), hblock]

/-! ## Tables whose database is not there yet -/

variable {fields : List Bytes} {rows : List (List Bytes)} {generation : Nat} {image : Bytes}

/-- The log holds the table as a complete record; the database is missing or blank. -/
def Rising (disk : Disk) (fields : List Bytes) (rows : List (List Bytes)) (generation : Nat) : Prop :=
  ∃ image, Written image fields rows generation ∧ disk.wal = some (walRecord image generation) ∧
    ∀ file ∈ disk.database, Blank file

/-- **The table is there**, at the latest when it is opened. -/
def Recoverable (disk : Disk) (fields : List Bytes) (rows : List (List Bytes)) (generation : Nat) : Prop :=
  Stands disk fields rows generation ∨ Rising disk fields rows generation

/-- What the database of a rising table goes through. -/
def Filling (wal : Option Bytes) (generation : Nat) (disk : Disk) : Prop :=
  disk.wal = wal ∧ ∀ file ∈ disk.database, Blank file ∨ Fronted file generation

theorem Filling.recoverable {disk : Disk} (h : Filling (some (walRecord image generation)) generation disk)
    (hw : Written image fields rows generation) : Recoverable disk fields rows generation := by
  obtain ⟨hwal, hfile⟩ := h
  obtain ⟨database, wal⟩ := disk
  obtain rfl : wal = some (walRecord image generation) := hwal
  rcases database with _ | file
  · exact Or.inr ⟨image, hw, rfl, fun file hf => by cases hf⟩
  · rcases hfile file rfl with hblank | hfront
    · exact Or.inr ⟨image, hw, rfl, fun file' hf => Option.some.inj hf ▸ hblank⟩
    · exact Or.inl (Or.inr ⟨image, file, hw, hfront, rfl⟩)

/-- **However far applying gets** on a missing or blank database, the first page is blank or one the code wrote. -/
theorem applyEffects_filling {disk : Disk} {buffer : PageBuffer} (hblank : ∀ file ∈ disk.database, Blank file)
    (hw : Written buffer.image fields rows generation) :
    Cuts disk (applyEffects buffer) (Filling disk.wal generation) := by
  have hsize := hw.size.1
  have hstart : Filling disk.wal generation disk := ⟨rfl, fun file hf => Or.inl (hblank file hf)⟩
  -- the database is there, then as long as the image
  have hopen : Filling disk.wal generation (Acts.act DiskEffect.openDatabase disk) := by
    refine ⟨rfl, fun file hf => Or.inl ?_⟩
    obtain rfl : disk.database.getD [] = file := Option.some.inj hf
    cases hdb : disk.database with
    | none => exact Or.inl rfl
    | some file => exact hblank file hdb
  have hlong : ∀ t, (∃ file, (Blank file ∨ Fronted file generation) ∧ file.length = buffer.image.length ∧
      t = (⟨some file, disk.wal⟩ : Disk)) → Filling disk.wal generation t := by
    rintro t ⟨file, hfile, -, rfl⟩
    exact ⟨rfl, fun file' hf => Option.some.inj hf ▸ hfile⟩
  have hsized : ∃ file, (Blank file ∨ Fronted file generation) ∧ file.length = buffer.image.length ∧
      Acts.act (DiskEffect.sizeDatabase buffer.image.length) (Acts.act DiskEffect.openDatabase disk) =
        (⟨some file, disk.wal⟩ : Disk) := by
    refine ⟨Blocks.resize buffer.image.length (disk.database.getD []), Or.inl ?_, length_resize _ _, rfl⟩
    refine Blank.resize ?_ hsize
    cases hdb : disk.database with
    | none => exact Or.inl rfl
    | some file => exact hblank file hdb
  unfold applyEffects
  rw [Cuts_append, Cuts_cons, Cuts_cons, Cuts_nil]
  refine ⟨⟨hstart, hopen, hlong _ hsized⟩, ?_⟩
  refine Cuts.mono (Cuts.of_invariant (C := fun t => ∃ file, (Blank file ∨ Fronted file generation) ∧
    file.length = buffer.image.length ∧ t = (⟨some file, disk.wal⟩ : Disk)) (fun e he t ht => ?_) hsized) hlong
  obtain ⟨id, hid, rfl⟩ := List.mem_map.1 he
  obtain ⟨file, hfile, hlen, rfl⟩ := ht
  have hend : id * pageSize + pageSize ≤ buffer.image.length := by
    rw [buffer.length_image]
    exact block_end_le (buffer.dirty_lt id (PageBuffer.mem_order.1 hid))
  have hdata : (buffer.pageData id).length = pageSize := length_block hend
  have hlen' : (Blocks.writeAt (id * pageSize) (buffer.pageData id) file).length = buffer.image.length := by
    rw [length_writeAt (by rw [hdata]; omega), hlen]
  refine ⟨_, ?_, hlen', rfl⟩
  by_cases h0 : id = 0
  · subst h0
    refine Or.inr ⟨by rw [hlen']; exact hsize, buffer.image, fields, rows, generation, hw, Nat.le_refl _, ?_⟩
    rw [block_writeAt_self hdata (by omega)]
    rfl
  · rcases hfile with (rfl | ⟨hpage, hblock⟩) | hfront
    · rw [← hlen, List.length_nil] at hsize
      exact absurd hsize (by decide)
    · refine Or.inl (Or.inr ⟨by rw [hlen']; exact hsize, ?_⟩)
      rw [block_writeAt_other hdata (by omega) (fun h => h0 h.symm), hblock]
    · exact Or.inr (hfront.writeAt hw (Nat.le_refl _) hend hlen)

/-- **Recovery makes the table**: wherever it is cut off the table is still there, and when it returns the table is clean. -/
theorem recover_rising {disk : Disk} (h : Rising disk fields rows generation) : ∃ es, recover disk = ⟨es, .ok ()⟩ ∧
    Cuts disk es (fun t => Recoverable t fields rows generation) ∧ Clean (after disk es) fields rows generation := by
  obtain ⟨image, hw, hwal, hblank⟩ := h
  obtain ⟨hsize, hlen, hgen⟩ := hw.size
  obtain ⟨P, hP, hholds⟩ := hw.parse true
  have hrecord := parseWal_walRecord hP hholds.generation_eq (by omega) hgen
  have hne : walRecord image generation ≠ [] := by
    rw [← List.length_pos_iff, length_walRecord]; omega
  have hstale : checkStale ⟨image, generation⟩ disk.database = .ok () := by
    cases hdb : disk.database with
    | none => rfl
    | some file =>
      obtain ⟨c, hc⟩ := (hblank file hdb).parse true
      exact checkStale_ok (fun P hP => by rw [hc] at hP; cases hP) (fun e he => ⟨c, Except.error.inj (he.symm.trans hc)⟩)
  obtain ⟨buffer, himage, hdirty, hrun⟩ := recoverFrom_run disk hrecord hstale
  dsimp only at himage hdirty
  have hafter : after disk (applyEffects buffer) = ⟨some image, disk.wal⟩ := by
    rw [after_applyAll (by rw [hdirty, himage]), himage]
  have hclean : Clean (⟨some image, some []⟩ : Disk) fields rows generation := ⟨rfl, image, rfl, hw⟩
  refine ⟨_, (recover_present hwal hne).trans hrun, ?_, ?_⟩
  · rw [Cuts_append, Cuts_cons, Cuts_nil, hafter]
    refine ⟨(applyEffects_filling hblank (himage.symm ▸ hw)).mono (fun t ht => Filling.recoverable (hwal ▸ ht) hw), ?_,
      Or.inl (Or.inl hclean)⟩
    exact Or.inl (Or.inr ⟨image, image, hw, hw.fronted, by rw [hwal]⟩)
  · rw [after_append, hafter]
    exact hclean

theorem recover_recoverable {disk : Disk} (h : Recoverable disk fields rows generation) : ∃ es,
    recover disk = ⟨es, .ok ()⟩ ∧ Cuts disk es (fun t => Recoverable t fields rows generation) ∧
    Clean (after disk es) fields rows generation := by
  rcases h with hstands | hrising
  · obtain ⟨es, hrun, hcuts, hclean, -⟩ := recover_stands hstands
    exact ⟨es, hrun, hcuts.mono (fun t ht => Or.inl ht), hclean⟩
  · exact recover_rising hrising

/-! ## Creating, cut off -/

/-- No table, and nothing in the way of one. -/
def Free (disk : Disk) : Prop := disk.database = none ∧ walPresent disk = false

/-- **A creation, cut off**: as long as the record is not complete there is no table, and perhaps a part of the record;
once it is complete the table is there. -/
theorem createTable_cuts {path : String} {disk : Disk} (hfree : Free disk) (hf : FieldsOk fields) :
    ∃ es, createTable path fields disk = ⟨es, .ok ()⟩ ∧ Clean (after disk es) fields [] 1 ∧ ∀ k,
      Free (after disk (es.take k)) ∨
      (Stuck (after disk (es.take k)) ∧ (after disk (es.take k)).database = none) ∨
      Recoverable (after disk (es.take k)) fields [] 1 := by
  obtain ⟨hdb, hwal⟩ := hfree
  obtain ⟨hresult, hclean⟩ := @createTable_tidy _ _ path hdb hwal hf
  obtain ⟨-, -, image, himage⟩ := createFromRows_inv (show (createFromRows path fields [] disk).result = .ok () from hresult)
  have hcreate : createTable path fields disk = commitImage image 1 ∅ disk := createFromRows_ok hdb hwal himage
  have hw : Written image fields [] 1 := by
    have hmake : ∃ buffer, PageBuffer.make image ∅ = .ok buffer := by
      cases hmake : PageBuffer.make image ∅ with
      | ok buffer => exact ⟨buffer, rfl⟩
      | error e =>
        rw [hcreate, commitImage, hmake, attempt_error_bind] at hresult
        cases hresult
    exact buildImage_buffer himage hmake.choose_spec
  obtain ⟨buffer, hmake, hbuffer, hdirty⟩ := hw.buffer
  obtain ⟨hsize, hlen, hgenlt⟩ := hw.size
  have hoff : offsetMax = 2 ^ 63 - 1 := rfl
  have hrun := hcreate.trans (@commitImage_run image 1 ∅ buffer hmake hbuffer (by omega) disk)
  generalize hrec : walRecord image 1 = record at hrun
  have hpos : 0 < record.length := by rw [← hrec, length_walRecord]; omega
  rw [hrun] at hclean
  refine ⟨_, hrun, hclean.clean, fun k => ?_⟩
  have hwrites : writeEffects record = (List.range record.length).map (fun n => .writeWal record (n + 1)) := rfl
  have hdone : after disk (.truncateWal :: writeEffects record) = ⟨none, some record⟩ := by
    rw [hwrites, after_writes, hdb, List.take_length]
  have hlength : (DiskEffect.truncateWal :: writeEffects record).length = record.length + 1 := by
    simp [writeEffects]
  by_cases hk : k ≤ record.length
  · -- the record is not complete
    rw [List.take_append_of_le_length (by omega)]
    cases k with
    | zero => exact Or.inl ⟨hdb, hwal⟩
    | succ j =>
      rw [List.take_succ_cons, take_writeEffects record (by omega), after_writes, hdb]
      by_cases hj : j = 0
      · subst hj
        exact Or.inl ⟨rfl, rfl⟩
      · exact Or.inr (Or.inl ⟨⟨image, 1, j, by omega, hgenlt, by omega, by rw [hrec]; omega, by rw [hrec]⟩, rfl⟩)
  · right; right
    rw [List.take_append, hlength, List.take_of_length_le (by omega), after_append, hdone]
    have hfill : Cuts (⟨none, some record⟩ : Disk) (applyEffects buffer) (Filling (some record) 1) :=
      applyEffects_filling (fun file hf => by cases hf) (hbuffer.symm ▸ hw)
    have happlied : after (⟨none, some record⟩ : Disk) (applyEffects buffer) = ⟨some image, some record⟩ := by
      rw [after_applyAll (by rw [hdirty, hbuffer]), hbuffer]
    have hcuts : Cuts (⟨none, some record⟩ : Disk) (applyEffects buffer ++ [.truncateWal])
        (fun t => Recoverable t fields [] 1) := by
      rw [Cuts_append, Cuts_cons, Cuts_nil, happlied]
      refine ⟨hfill.mono (fun t ht => Filling.recoverable (hrec ▸ ht) hw), ?_, Or.inl (Or.inl ⟨rfl, image, rfl, hw⟩)⟩
      exact Or.inl (Or.inr ⟨image, image, hw, hw.fronted, by rw [hrec]⟩)
    exact hcuts _

end Storage
end Sql
