import SqlEngine.Recovery
/-!
# Crash — runs of calls that may be killed anywhere

A table file on disk is clean, or a complete log record is waiting to be applied to it (`Stands`), or its log holds part
of a record (`Stuck`).  `recover_pending`, `commit_cuts` and `insertRow_cuts` say what is left when a call is cut off
after any effect; `crash_safety` carries that along every run.
-/
namespace Sql
namespace Storage

open Wire BTree Blocks Effects

/-! ## The first page of a torn database -/

/-- The first page is one that the code wrote, and not a newer one. -/
def Fronted (file : Bytes) (generation : Nat) : Prop :=
  pageSize ≤ file.length ∧ ∃ image fields rows g, Written image fields rows g ∧ g ≤ generation ∧
    block pageSize file 0 = block pageSize image 0

/-- **No torn database parses as a newer one**, and none stops recovery with another error. -/
theorem Fronted.parse {file : Bytes} {generation : Nat} (h : Fronted file generation) (walPresent : Bool) :
    (∀ P, parseImage file walPresent = .ok P → P.table.inspection.generation ≤ generation) ∧
    ∀ e, parseImage file walPresent = .error e → ∃ c, e = .corruption c := by
  obtain ⟨hlen, image, fields, rows, g, ⟨pages, L, rfl, hL, -, rfl, rfl, rfl⟩, hg, hb⟩ := h
  obtain ⟨hok, herror⟩ := parse_of_block hL hb walPresent
  exact ⟨fun P hP => hok P hP ▸ hg, herror⟩

theorem checkStale_fronted {file image : Bytes} {generation : Nat} (h : Fronted file generation) :
    checkStale ⟨image, generation⟩ (some file) = .ok () :=
  checkStale_ok (h.parse true).1 (h.parse true).2

/-! ## Images the code wrote -/

variable {image : Bytes} {fields : List Bytes} {rows : List (List Bytes)} {generation : Nat}

theorem Written.size (h : Written image fields rows generation) :
    pageSize ≤ image.length ∧ image.length < 2 ^ 44 ∧ generation < 2 ^ 64 := by
  obtain ⟨pages, L, rfl, hL, -, -, -, rfl⟩ := h
  have hpos := lt_of_getElem?_some hL.super_at
  have hlt := hL.length_lt
  have hsize : pageSize = 4096 := rfl
  rw [length_imageOf hL.pages_ok, hsize]
  exact ⟨by omega, by omega, hL.generation_lt⟩

theorem Written.fronted (h : Written image fields rows generation) : Fronted image generation :=
  ⟨h.size.1, image, fields, rows, generation, h, Nat.le_refl _, rfl⟩

theorem Fronted.mono {file : Bytes} {g g' : Nat} (h : Fronted file g) (hle : g ≤ g') : Fronted file g' := by
  obtain ⟨hlen, image, fields, rows, g0, hw, hg, hb⟩ := h
  exact ⟨hlen, image, fields, rows, g0, hw, Nat.le_trans hg hle, hb⟩

/-- The buffer of a whole image. -/
theorem Written.buffer (h : Written image fields rows generation) : ∃ buffer, PageBuffer.make image ∅ = .ok buffer ∧
    buffer.image = image ∧ buffer.dirtyPages = Finset.range (image.length / pageSize) := by
  obtain ⟨pages, L, rfl, hL, -, -, -, rfl⟩ := h
  obtain ⟨buffer, hmake, himage, hdirty⟩ := PageBuffer.make_ok hL.pages_ok (lt_of_getElem?_some hL.super_at) hL.length_lt
    (by simp : ∀ id ∈ (∅ : Finset Nat), id < pages.length)
  refine ⟨buffer, hmake, himage, ?_⟩
  rw [hdirty, if_pos rfl, length_imageOf hL.pages_ok, Nat.mul_div_cancel _ (by decide)]

/-- An insert that returned has written the table with the row at its end. -/
theorem buildIncrementalInsert_next {row : List Bytes} {next : IncrementalImage}
    (h : Written image fields rows generation) (hnext : buildIncrementalInsert image row = .ok next) :
    next.generation = generation + 1 ∧ Written next.image fields (rows ++ [row]) (generation + 1) := by
  obtain ⟨P, P', w, hparse, hrun, henc, hparse', -, hgen⟩ := buildIncrementalInsert_ok hnext
  obtain ⟨P0, hP0, hholds⟩ := h.parse false
  obtain rfl : P0 = P := Except.ok.inj (hP0.symm.trans hparse)
  obtain ⟨hrow, hmax, -⟩ := insertRowPages_ok hrun
  rw [hholds.fields_eq] at hrow
  rw [hholds.generation_eq] at hmax hgen
  have hlt := h.size.2.2
  obtain ⟨P1, w1, hP1, hw1, hwritten⟩ := buildIncrementalInsert_written h hrow (by omega)
  obtain rfl : P0 = P1 := Except.ok.inj (hP0.symm.trans hP1)
  obtain rfl : w = w1 := Except.ok.inj (hrun.symm.trans hw1)
  have hbound : w.pages.length < 2 ^ 32 := by
    obtain ⟨himage, hpages⟩ := encodePages_inv henc
    obtain ⟨himage', L', hL', -⟩ := parseImage_ok hparse'
    have hlen := hL'.length_lt
    have h1 : next.image.length = w.pages.length * pageSize := by rw [himage]; exact length_flatMap_block hpages
    have h2 : next.image.length = P'.pages.length * pageSize := by rw [himage', length_imageOf hL'.pages_ok]
    have := Nat.eq_of_mul_eq_mul_right (by decide : 0 < pageSize) (h1.symm.trans h2)
    omega
  obtain ⟨next', hnext', -, hW⟩ := hwritten hbound
  obtain rfl : next = next' := Except.ok.inj (hnext.symm.trans hnext')
  exact ⟨hgen, hW⟩

/-! ## Disks between calls -/

/-- The log is empty and the database is the table. -/
def Clean (disk : Disk) (fields : List Bytes) (rows : List (List Bytes)) (generation : Nat) : Prop :=
  walPresent disk = false ∧ ∃ image, disk.database = some image ∧ Written image fields rows generation

/-- The log holds the table as a complete record; the database is older, or a mix of pages. -/
def Pending (disk : Disk) (fields : List Bytes) (rows : List (List Bytes)) (generation : Nat) : Prop :=
  ∃ image file, Written image fields rows generation ∧ Fronted file generation ∧
    disk = ⟨some file, some (walRecord image generation)⟩

def Stands (disk : Disk) (fields : List Bytes) (rows : List (List Bytes)) (generation : Nat) : Prop :=
  Clean disk fields rows generation ∨ Pending disk fields rows generation

/-- The log holds a part of a record, and not nothing. -/
def Stuck (disk : Disk) : Prop := ∃ image generation n, image.length < 2 ^ 64 ∧ generation < 2 ^ 64 ∧ 0 < n ∧
  n < (walRecord image generation).length ∧ disk.wal = some ((walRecord image generation).take n)

/-- Stuck, and only by its log: with the log emptied the table is there. -/
def Torn (disk : Disk) (fields : List Bytes) (rows : List (List Bytes)) (generation : Nat) : Prop :=
  Stuck disk ∧ Clean ⟨disk.database, some []⟩ fields rows generation

/-! ## Applying a buffer, cut off -/

theorem Fronted.resize {file : Bytes} {g n : Nat} (h : Fronted file g) (hn : pageSize ≤ n) :
    Fronted (Blocks.resize n file) g := by
  obtain ⟨hlen, image, fields, rows, g0, hw, hg, hb⟩ := h
  refine ⟨by rw [length_resize]; exact hn, image, fields, rows, g0, hw, hg, ?_⟩
  rw [block_resize (by omega) (by omega), hb]

/-- A page of an image the code wrote, written into the file. -/
theorem Fronted.writeAt {file : Bytes} {g id : Nat} (h : Fronted file g) (hw : Written image fields rows generation)
    (hg : generation ≤ g) (hid : id * pageSize + pageSize ≤ image.length) (hlen : file.length = image.length) :
    Fronted (Blocks.writeAt (id * pageSize) (block pageSize image id) file) g := by
  have hd : (block pageSize image id).length = pageSize := length_block hid
  obtain ⟨hsize, image0, fields0, rows0, g0, hw0, hg0, hb⟩ := h
  refine ⟨by rw [length_writeAt (by omega)]; exact hsize, ?_⟩
  by_cases h0 : id = 0
  · subst h0
    exact ⟨image, fields, rows, generation, hw, hg, block_writeAt_self hd (by omega)⟩
  · refine ⟨image0, fields0, rows0, g0, hw0, hg0, ?_⟩
    rw [block_writeAt_other hd (by omega) (fun h => h0 h.symm), hb]

/-- **However far applying gets**, the first page stays one the code wrote. -/
theorem applyEffects_cuts (disk : Disk) {file : Bytes} {g : Nat} {buffer : PageBuffer} (hd : disk.database = some file)
    (hf : Fronted file g) (hw : Written buffer.image fields rows generation) (hg : generation ≤ g) :
    Cuts disk (applyEffects buffer) (fun t => ∃ file', Fronted file' g ∧ t = ⟨some file', disk.wal⟩) := by
  have hdisk : disk = ⟨some file, disk.wal⟩ := by rw [← hd]
  have hopen : Acts.act DiskEffect.openDatabase disk = disk := by rw [hdisk]; rfl
  have hsize : Acts.act (DiskEffect.sizeDatabase buffer.image.length) disk =
      (⟨some (Blocks.resize buffer.image.length file), disk.wal⟩ : Disk) := by rw [hdisk]; rfl
  have hf' := hf.resize hw.size.1
  unfold applyEffects
  rw [Cuts_append, Cuts_cons, Cuts_cons, Cuts_nil, hopen, hsize]
  refine ⟨⟨⟨file, hf, hdisk⟩, ⟨file, hf, hdisk⟩, _, hf', rfl⟩, ?_⟩
  simp only [after_cons, after_nil, hopen, hsize]
  -- from here on the file has the length of the image
  have hpages : Cuts (⟨some (Blocks.resize buffer.image.length file), disk.wal⟩ : Disk)
      (buffer.order.map (fun id => DiskEffect.writePage id (buffer.pageData id)))
      (fun t => ∃ file', (Fronted file' g ∧ file'.length = buffer.image.length) ∧ t = ⟨some file', disk.wal⟩) := by
    refine Cuts.of_invariant (fun e he t ht => ?_) ⟨_, ⟨hf', length_resize _ _⟩, rfl⟩
    obtain ⟨id, hid, rfl⟩ := List.mem_map.1 he
    obtain ⟨file', ⟨hfile', hlen'⟩, rfl⟩ := ht
    have hend : id * pageSize + pageSize ≤ buffer.image.length := by
      rw [buffer.length_image]
      exact block_end_le (buffer.dirty_lt id (PageBuffer.mem_order.1 hid))
    have hblock : (buffer.pageData id).length = pageSize := length_block hend
    refine ⟨_, ⟨hfile'.writeAt hw hg hend hlen', ?_⟩, rfl⟩
    rw [length_writeAt (by rw [length_block hend]; omega), hlen']
  exact hpages.mono (fun t ⟨file', h, ht⟩ => ⟨file', h.1, ht⟩)

/-! ## Recovery -/

/-- **Recovery refuses a part of a record** and leaves the files alone. -/
theorem recover_stuck {disk : Disk} (h : Stuck disk) : ∃ c, recover disk = ⟨[], .error (.corruption c)⟩ := by
  obtain ⟨image, generation, n, hlen, hgen, hpos, hn, hwal⟩ := h
  obtain ⟨c, hc⟩ := parseWal_prefix hlen hgen hn
  have hne : (walRecord image generation).take n ≠ [] := by
    rw [← List.length_pos_iff, List.length_take]; omega
  refine ⟨c, ?_⟩
  rw [recover_present hwal hne]
  unfold recoverFrom
  exact bind_run_error (show attempt (parseWal _) disk = ⟨[], .error (.corruption c)⟩ by rw [hc]; rfl)

/-- Recovery applies the complete record of an image the code wrote, unless the database is newer. -/
theorem Written.recover_run {file : Bytes} (hw : Written image fields rows generation)
    (hstale : checkStale ⟨image, generation⟩ (some file) = .ok ()) : ∃ buffer : PageBuffer, buffer.image = image ∧
      buffer.dirtyPages = Finset.range (image.length / pageSize) ∧
      recover ⟨some file, some (walRecord image generation)⟩ = ⟨applyEffects buffer ++ [.truncateWal], .ok ()⟩ := by
  obtain ⟨hsize, hlen, hgen⟩ := hw.size
  obtain ⟨P, hP, hholds⟩ := hw.parse true
  have hwal := parseWal_walRecord hP hholds.generation_eq (by omega) hgen
  have hne : walRecord image generation ≠ [] := by
    rw [← List.length_pos_iff, length_walRecord]; omega
  obtain ⟨buffer, himage, hdirty, hrun⟩ := recoverFrom_run ⟨some file, some (walRecord image generation)⟩ hwal hstale
  exact ⟨buffer, himage, hdirty, (recover_present rfl hne).trans hrun⟩

/-- **Recovery from a complete record**: wherever it is cut off the record is still there or already applied, and when it
returns the table is clean. -/
theorem recover_pending {disk : Disk} (h : Pending disk fields rows generation) : ∃ es, recover disk = ⟨es, .ok ()⟩ ∧
    Cuts disk es (fun t => Stands t fields rows generation) ∧ Clean (after disk es) fields rows generation ∧
    ∀ record n, DiskEffect.writeWal record n ∉ es := by
  obtain ⟨image, file, hw, hf, rfl⟩ := h
  let disk : Disk := ⟨some file, some (walRecord image generation)⟩
  obtain ⟨buffer, himage, hdirty, hrun⟩ := hw.recover_run (checkStale_fronted hf)
  have happly := applyEffects_cuts disk rfl hf (himage.symm ▸ hw) (Nat.le_refl generation)
  have hafter : after disk (applyEffects buffer) = ⟨some image, some (walRecord image generation)⟩ := by
    rw [after_applyAll (by rw [hdirty, himage]), himage]
  have hclean : Clean (⟨some image, some []⟩ : Disk) fields rows generation := ⟨rfl, image, rfl, hw⟩
  refine ⟨_, hrun, ?_, ?_, ?_⟩
  · rw [Cuts_append, Cuts_cons, Cuts_nil, hafter]
    refine ⟨happly.mono (fun t ⟨file', hf', ht⟩ => Or.inr ⟨image, file', hw, hf', ht⟩), Or.inr ?_, Or.inl hclean⟩
    exact ⟨image, image, hw, hw.fronted, rfl⟩
  · rw [after_append, hafter]
    exact hclean
  · intro record n hm
    simp [applyEffects] at hm

/-! ## Committing -/

/-- The effects of writing a record, one for each prefix. -/
def writeEffects (record : Bytes) : List DiskEffect :=
  (List.range record.length).map (fun n => .writeWal record (n + 1))

/-- The log record of this call is begun. -/
def Begun (es : List DiskEffect) : Prop := ∃ record n, DiskEffect.writeWal record n ∈ es

/-- The log record of this call is complete. -/
def Durable (es : List DiskEffect) : Prop := ∃ record, DiskEffect.writeWal record record.length ∈ es

theorem Durable.begun {es : List DiskEffect} : Durable es → Begun es := fun ⟨record, h⟩ => ⟨record, _, h⟩

theorem not_begun_nil : ¬ Begun [] := fun ⟨_, _, h⟩ => by cases h

theorem take_writeEffects (record : Bytes) {k : Nat} (hk : k ≤ record.length) :
    (writeEffects record).take k = (List.range k).map (fun n => .writeWal record (n + 1)) := by
  rw [writeEffects, ← List.map_take, List.take_range, Nat.min_eq_left hk]

theorem after_writes (record : Bytes) (disk : Disk) : ∀ k, after disk (.truncateWal :: (List.range k).map
    (fun n => DiskEffect.writeWal record (n + 1))) = ⟨disk.database, some (record.take k)⟩
  | 0 => rfl
  | k + 1 => by
    rw [List.range_succ, List.map_append, ← List.cons_append, after_append, after_writes record disk k]
    rfl

theorem begun_writes (record : Bytes) {k : Nat} : k ≠ 0 ↔
    Begun (.truncateWal :: (List.range k).map (fun n => DiskEffect.writeWal record (n + 1))) := by
  constructor
  · exact fun hk => ⟨record, 1, List.mem_cons_of_mem _ (List.mem_map.2 ⟨0, List.mem_range.2 (Nat.pos_of_ne_zero hk), rfl⟩)⟩
  · rintro ⟨r, n, hr⟩ rfl
    rcases List.mem_cons.1 hr with hr | hr
    · cases hr
    · cases hr

theorem not_durable_writes {record : Bytes} {k : Nat} (hk : k < record.length) :
    ¬ Durable (.truncateWal :: (List.range k).map (fun n => DiskEffect.writeWal record (n + 1))) := by
  rintro ⟨r, hr⟩
  rcases List.mem_cons.1 hr with hr | hr
  · cases hr
  · obtain ⟨n, hn, heq⟩ := List.mem_map.1 hr
    obtain ⟨rfl, hlen⟩ := DiskEffect.writeWal.inj heq
    have := List.mem_range.1 hn
    omega

theorem commitImage_run {image : Bytes} {generation : Nat} {dirty : Finset Nat} {buffer : PageBuffer}
    (hmake : PageBuffer.make image dirty = .ok buffer) (himage : buffer.image = image) (h : image.length ≤ offsetMax)
    (disk : Disk) : commitImage image generation dirty disk = ⟨.truncateWal :: writeEffects (walRecord image generation) ++
      (applyEffects buffer ++ [.truncateWal]), .ok ()⟩ := by
  unfold commitImage
  rw [hmake, attempt_ok_bind, himage]
  rw [bind_run_ok (show perform _ disk = ⟨[_], .ok ()⟩ from rfl)]
  rw [bind_run_ok (show performAll _ _ = ⟨_, .ok ()⟩ from rfl)]
  rw [bind_run_ok (applyImage_run (by rw [himage]; exact h) _)]
  -- the bytes of the record do not matter here
  generalize walRecord image generation = record
  rfl

/-- A commit can be cut off inside its record. -/
theorem commit_torn {image : Bytes} {generation : Nat} {dirty : Finset Nat} {buffer : PageBuffer}
    (hmake : PageBuffer.make image dirty = .ok buffer) (h : image.length ≤ offsetMax) (disk : Disk) :
    ∃ k, Begun ((commitImage image generation dirty disk).effects.take k) ∧
      ¬ Durable ((commitImage image generation dirty disk).effects.take k) := by
  refine ⟨2, ?_⟩
  have hlen := length_walRecord image generation
  rw [commitImage_run hmake (PageBuffer.make_inv hmake).1 h disk]
  generalize walRecord image generation = record at hlen
  have hlong : 1 < record.length := by omega
  have htake : (DiskEffect.truncateWal :: writeEffects record ++ (applyEffects buffer ++ [DiskEffect.truncateWal])).take 2 =
      DiskEffect.truncateWal :: (List.range 1).map (fun n => .writeWal record (n + 1)) := by
    rw [List.cons_append, List.take_succ_cons, List.take_append_of_le_length (by simp [writeEffects]; omega),
      take_writeEffects record hlong.le]
  rw [htake]
  exact ⟨(begun_writes record).1 (by decide), not_durable_writes hlong⟩

/-- A commit of the next table leaves its image. -/
theorem after_commit {disk : Disk} {image : Bytes} {row : List Bytes} {next : IncrementalImage}
    (hdb : disk.database = some image) (hnext : buildIncrementalInsert image row = .ok next)
    (hlen : next.image.length ≤ offsetMax) :
    after disk (commitImage next.image next.generation next.dirtyPages disk).effects = ⟨some next.image, some []⟩ := by
  obtain ⟨-, -, -, buffer, hmake, -, -, hdisk⟩ := dirtyPages_suffice hnext
  have himage : buffer.image = next.image := (PageBuffer.make_inv hmake).1
  rw [commitImage_run hmake himage hlen disk]
  generalize walRecord next.image next.generation = record
  have hwrites : writeEffects record = (List.range record.length).map (fun n => .writeWal record (n + 1)) := rfl
  have happly := (hdisk ⟨some image, some record⟩ rfl).2
  rw [applyImage_run (by rw [himage]; exact hlen)] at happly
  rw [after_append, hwrites, after_writes, hdb, List.take_length, after_append, happly]
  rfl

/-- **A commit of the next table, cut off**: in front of the record the table is as it was, inside the record it is torn, and
once the record is complete the next table stands. -/
theorem commit_cuts {disk : Disk} {image : Bytes} {row : List Bytes} {next : IncrementalImage}
    (hwal : walPresent disk = false) (hdb : disk.database = some image) (hw : Written image fields rows generation)
    (hnext : buildIncrementalInsert image row = .ok next) :
    ∃ es, commitImage next.image next.generation next.dirtyPages disk = ⟨es, .ok ()⟩ ∧
      Clean (after disk es) fields (rows ++ [row]) (generation + 1) ∧ Durable es ∧ ∀ k,
        (¬ Begun (es.take k) ∧ Clean (after disk (es.take k)) fields rows generation) ∨
        (Begun (es.take k) ∧ ¬ Durable (es.take k) ∧ Torn (after disk (es.take k)) fields rows generation) ∨
        (Durable (es.take k) ∧ Stands (after disk (es.take k)) fields (rows ++ [row]) (generation + 1)) := by
  obtain ⟨hgen, hw'⟩ := buildIncrementalInsert_next hw hnext
  obtain ⟨-, -, -, buffer, hmake, -, -, hdisk⟩ := dirtyPages_suffice hnext
  obtain ⟨hsize, hlen, hgenlt⟩ := hw'.size
  have hoff : offsetMax = 2 ^ 63 - 1 := rfl
  have himage : buffer.image = next.image := (PageBuffer.make_inv hmake).1
  rw [hgen, commitImage_run hmake himage (by omega) disk]
  generalize hrec : walRecord next.image (generation + 1) = record
  have hpos : 0 < record.length := by rw [← hrec, length_walRecord]; omega
  -- the disk with the complete record
  let done : Disk := ⟨some image, some record⟩
  have hwrites : writeEffects record = (List.range record.length).map (fun n => .writeWal record (n + 1)) := rfl
  have hdone : after disk (.truncateWal :: writeEffects record) = done := by
    rw [hwrites, after_writes, hdb, List.take_length]
  have hdurable : ∀ es, Durable (.truncateWal :: writeEffects record ++ es) := fun es =>
    ⟨record, List.mem_append_left _ (List.mem_cons_of_mem _ (List.mem_map.2
      ⟨record.length - 1, List.mem_range.2 (by omega), by rw [Nat.sub_add_cancel hpos]⟩))⟩
  have happly := applyEffects_cuts done rfl (hw.fronted.mono (Nat.le_succ generation))
    (himage.symm ▸ hw') (Nat.le_refl (generation + 1))
  have hafter : after done (applyEffects buffer) = ⟨some next.image, some record⟩ := by
    have := (hdisk done rfl).2
    rwa [applyImage_run (by rw [himage]; omega)] at this
  have hclean : Clean (⟨some next.image, some []⟩ : Disk) fields (rows ++ [row]) (generation + 1) :=
    ⟨rfl, next.image, rfl, hw'⟩
  have hcuts : Cuts done (applyEffects buffer ++ [.truncateWal])
      (fun t => Stands t fields (rows ++ [row]) (generation + 1)) := by
    rw [Cuts_append, Cuts_cons, Cuts_nil, hafter]
    refine ⟨happly.mono (fun t ⟨file', hf', ht⟩ => Or.inr ⟨next.image, file', hw', hf', by rw [ht, hrec]⟩), Or.inr ?_,
      Or.inl hclean⟩
    exact ⟨next.image, next.image, hw', hw'.fronted, by rw [hrec]⟩
  refine ⟨_, rfl, ?_, hdurable _, fun k => ?_⟩
  · rw [after_append, hdone, after_append, hafter]
    exact hclean
  · have hA : (DiskEffect.truncateWal :: writeEffects record).length = record.length + 1 := by
      simp [writeEffects]
    by_cases hk : k ≤ record.length
    · -- the record is not complete
      rw [List.take_append_of_le_length (by omega)]
      cases k with
      | zero =>
        rw [List.take_zero]
        exact Or.inl ⟨not_begun_nil, hwal, image, hdb, hw⟩
      | succ j =>
        rw [List.take_succ_cons, take_writeEffects record (by omega), after_writes]
        by_cases hj : j = 0
        · subst hj
          exact Or.inl ⟨fun hb => (begun_writes record).2 hb rfl, rfl, image, hdb, hw⟩
        · have hstuck : Stuck ⟨disk.database, some (record.take j)⟩ :=
            ⟨next.image, generation + 1, j, by omega, hgenlt, by omega, by rw [hrec]; omega, by rw [hrec]⟩
          exact Or.inr (Or.inl ⟨(begun_writes record).1 hj, not_durable_writes (by omega), hstuck, rfl, image, hdb, hw⟩)
    · right; right
      rw [List.take_append, hA, List.take_of_length_le (by omega)]
      refine ⟨hdurable _, ?_⟩
      rw [after_append, hdone]
      exact hcuts _

/-! ## The calls, cut off -/

theorem recover_stands {disk : Disk} (h : Stands disk fields rows generation) : ∃ es, recover disk = ⟨es, .ok ()⟩ ∧
    Cuts disk es (fun t => Stands t fields rows generation) ∧ Clean (after disk es) fields rows generation ∧
    ∀ record n, DiskEffect.writeWal record n ∉ es := by
  cases h with
  | inl hclean => exact ⟨[], recover_clean hclean.1, Cuts_nil.2 (Or.inl hclean), hclean, fun _ _ h => by cases h⟩
  | inr hpending => exact recover_pending hpending

theorem openTable_stuck (path : String) {disk : Disk} (h : Stuck disk) :
    ∃ c, openTable path disk = ⟨[], .error (.corruption c)⟩ := by
  obtain ⟨c, hc⟩ := recover_stuck h
  exact ⟨c, bind_run_error hc⟩

theorem insertRow_stuck (path : String) (row : List Bytes) {disk : Disk} (h : Stuck disk) :
    ∃ c, insertRow path row disk = ⟨[], .error (.corruption c)⟩ := by
  obtain ⟨c, hc⟩ := recover_stuck h
  exact ⟨c, bind_run_error hc⟩

/-- **Opening a table that stands** returns it, and leaves it clean. -/
theorem openTable_stands (path : String) {disk : Disk} (h : Stands disk fields rows generation) :
    ∃ es table, openTable path disk = ⟨es, .ok table⟩ ∧ table.fields = fields ∧ table.rows = rows ∧
      Cuts disk es (fun t => Stands t fields rows generation) ∧ Clean (after disk es) fields rows generation := by
  obtain ⟨es, hrun, hcuts, hclean, -⟩ := recover_stands h
  obtain ⟨hwal, image, hdb, hw⟩ := hclean
  obtain ⟨P, hP, hholds⟩ := hw.parse (walPresent (after disk es))
  refine ⟨es, P.table, ?_, hholds.fields_eq, hholds.rows_eq, hcuts, hwal, image, hdb, hw⟩
  exact openTable_ok hrun (by rw [hdb]; rfl) hP

/-- Behind recovery an insert builds the next image and commits it. -/
theorem insertRow_run (path : String) {row : List Bytes} {disk : Disk} {es : List DiskEffect} {image : Bytes}
    (hrun : recover disk = ⟨es, .ok ()⟩) (hdb : (after disk es).database = some image) :
    (∀ next, buildIncrementalInsert image row = .ok next → insertRow path row disk =
      ⟨es ++ (commitImage next.image next.generation next.dirtyPages (after disk es)).effects,
        (commitImage next.image next.generation next.dirtyPages (after disk es)).result⟩) ∧
    (∀ e, buildIncrementalInsert image row = .error e → insertRow path row disk = ⟨es, .error e⟩) := by
  have hread : ∀ {α : Type} (f : Disk → Bytes → Call α), (observe id >>= fun t : Disk =>
      attempt (readFile path t.database) >>= f t) (after disk es) = f (after disk es) image (after disk es) := fun f => by
    rw [observe_id_bind, hdb, bind_run_pure (show attempt (readFile path (some image)) _ = ⟨[], .ok image⟩ from rfl)]
  constructor
  · intro next hnext
    unfold insertRow
    rw [bind_run_ok hrun, hread, hnext, attempt_ok_bind]
  · intro e he
    unfold insertRow
    rw [bind_run_ok hrun, hread, he, attempt_error_bind,
      List.append_nil]

/-- **An insert into a table that stands**: returned, refused, or cut off after any effect. -/
theorem insertRow_cuts (path : String) (row : List Bytes) {disk : Disk} (h : Stands disk fields rows generation) :
    ∃ es result, insertRow path row disk = ⟨es, result⟩ ∧
      (∀ u : Unit, result = .ok u → Clean (after disk es) fields (rows ++ [row]) (generation + 1)) ∧
      (∀ e, result = .error e → Clean (after disk es) fields rows generation) ∧ ∀ k,
        (¬ Begun (es.take k) ∧ Stands (after disk (es.take k)) fields rows generation) ∨
        (Begun (es.take k) ∧ ¬ Durable (es.take k) ∧ Torn (after disk (es.take k)) fields rows generation) ∨
        (Durable (es.take k) ∧ Stands (after disk (es.take k)) fields (rows ++ [row]) (generation + 1)) := by
  obtain ⟨es, hrun, hcuts, hclean, hnowal⟩ := recover_stands h
  obtain ⟨hwal, image, hdb, hw⟩ := id hclean
  obtain ⟨hok, herror⟩ := insertRow_run path hrun hdb
  have hnot : ∀ k, ¬ Begun (es.take k) := fun k ⟨record, n, hm⟩ => hnowal record n (List.mem_of_mem_take hm)
  cases hnext : buildIncrementalInsert image row with
  | error e =>
    refine ⟨es, .error e, herror e hnext, ?_, fun _ _ => hclean, fun k => Or.inl ⟨hnot k, hcuts k⟩⟩
    intro u hu
    cases hu
  | ok next =>
    obtain ⟨es', hcommit, hclean', hdurable, hcut⟩ := commit_cuts hwal hdb hw hnext
    have hinsert := hok next hnext
    rw [hcommit] at hinsert
    refine ⟨es ++ es', .ok (), hinsert, fun _ _ => ?_, ?_, fun k => ?_⟩
    · rw [after_append]
      exact hclean'
    · intro e he
      cases he
    · rw [List.take_append]
      by_cases hk : k ≤ es.length
      · -- killed in the recovery
        rw [Nat.sub_eq_zero_of_le hk, List.take_zero, List.append_nil]
        exact Or.inl ⟨hnot k, hcuts k⟩
      · rw [List.take_of_length_le (by omega), after_append]
        have hdiff : Durable (es ++ es'.take (k - es.length)) ↔ Durable (es'.take (k - es.length)) :=
          ⟨fun ⟨record, hr⟩ => ⟨record, (List.mem_append.1 hr).resolve_left (hnowal record _)⟩,
            fun ⟨record, hr⟩ => ⟨record, List.mem_append_right _ hr⟩⟩
        have hbiff : Begun (es ++ es'.take (k - es.length)) ↔ Begun (es'.take (k - es.length)) :=
          ⟨fun ⟨record, n, hr⟩ => ⟨record, n, (List.mem_append.1 hr).resolve_left (hnowal record n)⟩,
            fun ⟨record, n, hr⟩ => ⟨record, n, List.mem_append_right _ hr⟩⟩
        rw [hdiff, hbiff]
        exact (hcut (k - es.length)).imp_left (fun h => ⟨h.1, Or.inl h.2⟩)

/-- The pages of the next table can be numbered. -/
def Room (disk : Disk) (row : List Bytes) : Prop := ∀ image P w,
  (after disk (recover disk).effects).database = some image → parseImage image false = .ok P →
    insertRowPages P row = .ok w → w.pages.length < 2 ^ 32

theorem insertRow_returns (path : String) {row : List Bytes} {disk : Disk} (h : Stands disk fields rows generation)
    (hrow : RowOk fields.length row) (hgen : generation + 1 < 2 ^ 64) (hroom : Room disk row) :
    (insertRow path row disk).result = .ok () := by
  obtain ⟨es, hrun, -, hclean, -⟩ := recover_stands h
  obtain ⟨hwal, image, hdb, hw⟩ := hclean
  obtain ⟨P, w, hP, hw', hnext⟩ := buildIncrementalInsert_written hw hrow hgen
  obtain ⟨next, hnext, -⟩ := hnext (hroom image P w (by rw [hrun]; exact hdb) hP hw')
  obtain ⟨es', hcommit, -⟩ := commit_cuts hwal hdb hw hnext
  rw [(insertRow_run path hrun hdb).1 next hnext, hcommit]

/-! ## Creating a table -/

theorem createFromRows_ok {path : String} {disk : Disk} {image : Bytes} (hdb : disk.database = none)
    (hwal : walPresent disk = false) (himage : buildImage fields rows 1 = .ok image) :
    createFromRows path fields rows disk = commitImage image 1 ∅ disk := by
  unfold createFromRows
  rw [observe_id_bind, throwIf_neg (by simp [hdb]), attempt_ok_bind, throwIf_neg (by simp [hwal]), attempt_ok_bind,
    himage, attempt_ok_bind]

theorem createFromRows_inv {path : String} {disk : Disk} (h : (createFromRows path fields rows disk).result = .ok ()) :
    disk.database = none ∧ walPresent disk = false ∧ ∃ image, buildImage fields rows 1 = .ok image := by
  unfold createFromRows at h
  rw [observe_id_bind] at h
  by_cases h1 : disk.database.isSome = true
  · rw [bind_run_error (show attempt _ disk = ⟨[], .error _⟩ by rw [throwIf, if_pos h1]; rfl)] at h
    cases h
  rw [throwIf_neg h1, attempt_ok_bind] at h
  by_cases h2 : walPresent disk = true
  · rw [bind_run_error (show attempt _ disk = ⟨[], .error _⟩ by rw [throwIf, if_pos h2]; rfl)] at h
    cases h
  rw [throwIf_neg h2, attempt_ok_bind] at h
  refine ⟨by simpa using h1, by simpa using h2, ?_⟩
  cases himage : buildImage fields rows 1 with
  | error e =>
    rw [himage, attempt_error_bind] at h
    cases h
  | ok image => exact ⟨image, rfl⟩

/-- The first commit of a table leaves its image. -/
theorem after_commitImage {disk : Disk} {image : Bytes} (h : Written image fields rows generation) :
    (commitImage image generation ∅ disk).result = .ok () ∧
      after disk (commitImage image generation ∅ disk).effects = ⟨some image, some []⟩ := by
  obtain ⟨buffer, hmake, hbuffer, hdirty⟩ := h.buffer
  obtain ⟨-, hlen, -⟩ := h.size
  have hoff : offsetMax = 2 ^ 63 - 1 := rfl
  rw [commitImage_run hmake hbuffer (by omega) disk]
  refine ⟨rfl, ?_⟩
  simp only [after_append]
  rw [after_applyAll (by rw [hdirty, hbuffer]), hbuffer]
  rfl

/-- **An image that the page buffer takes** is the one of its table. -/
theorem buildImage_buffer {image : Bytes} {buffer : PageBuffer} (himage : buildImage fields rows 1 = .ok image)
    (hbuffer : PageBuffer.make image ∅ = .ok buffer) : Written image fields rows 1 := by
  obtain ⟨pages, hpages, hencode⟩ := except_bind_ok.1 (show buildPages fields rows 1 >>= encodePages = .ok image from himage)
  obtain ⟨u, hv, -⟩ := except_bind_ok.1 (show validateSchema fields rows >>= _ = _ from hpages)
  obtain ⟨rfl, hlen⟩ := encodePages_inv hencode
  have hcount : pages.length < 2 ^ 32 := by
    have hle := (PageBuffer.make_inv hbuffer).2
    rw [show (imageOf pages).length = pages.length * pageSize from length_flatMap_block hlen,
      Nat.mul_div_cancel _ (by decide)] at hle
    omega
  obtain ⟨image', himage', hw⟩ := buildImage_written hv (by decide : 1 < 2 ^ 64) (fun pages' hpages' => by
    obtain rfl : pages = pages' := Except.ok.inj (hpages.symm.trans hpages')
    exact hcount)
  obtain rfl := Except.ok.inj (himage.symm.trans himage')
  exact hw

/-- **A table that was created** is clean and has generation one. -/
theorem createFromRows_clean {path : String} {disk : Disk}
    (h : (createFromRows path fields rows disk).result = .ok ()) :
    Clean (after disk (createFromRows path fields rows disk).effects) fields rows 1 := by
  obtain ⟨hdb, hwal, image, himage⟩ := createFromRows_inv h
  rw [createFromRows_ok hdb hwal himage] at h ⊢
  cases hmake : PageBuffer.make image ∅ with
  | error e =>
    unfold commitImage at h
    rw [hmake, attempt_error_bind] at h
    cases h
  | ok buffer =>
    have hw := buildImage_buffer himage hmake
    rw [(after_commitImage hw).2]
    exact ⟨rfl, image, rfl, hw⟩

/-- Creation that throws does so in front of its first effect. -/
theorem createFromRows_refused {path : String} {disk : Disk} {e : StorageError}
    (h : (createFromRows path fields rows disk).result = .error e) :
      (createFromRows path fields rows disk).effects = [] := by
  by_cases hready : disk.database = none ∧ walPresent disk = false
  · cases himage : buildImage fields rows 1 with
    | error e =>
      unfold createFromRows
      rw [himage]
      exact bind_quiet rfl (fun t _ => bind_quiet rfl (fun _ _ => bind_quiet rfl (fun _ _ => rfl)))
    | ok image =>
      rw [createFromRows_ok hready.1 hready.2 himage] at h ⊢
      cases hmake : PageBuffer.make image ∅ with
      | error e =>
        unfold commitImage
        rw [hmake]
        rfl
      | ok buffer =>
        rw [(after_commitImage (buildImage_buffer himage hmake)).1] at h
        cases h
  · unfold createFromRows
    rw [observe_id_bind]
    refine bind_quiet rfl (fun _ hdb => bind_quiet rfl (fun _ hwal => absurd ⟨?_, ?_⟩ hready))
    · simpa using throwIf_ok.1 hdb
    · simpa using throwIf_ok.1 hwal

end Storage
end Sql
