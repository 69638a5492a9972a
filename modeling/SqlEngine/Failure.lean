import SqlEngine.Accepted
/-!
# Failure — an insert whose system call fails

The process lives on: the call that failed has done a part of its work or nothing, the handlers close the descriptors and
throw, and the next call finds the files as they are.  Page zero may then be a mix of the old and the new one, in bytes; no
such mix parses as a newer table, and none has a row count the new table does not reach (`Headed`).  `failedInsert_opens`:
only the record of the log must not be left in part.
-/
namespace Sql
namespace Storage

open Wire BTree Blocks Effects

/-! ## Mixes of bytes -/

theorem val_append : ∀ xs ys : Bytes, val (xs ++ ys) = val xs + 256 ^ xs.length * val ys
  | [], ys => by simp [val]
  | x :: xs, ys => by
    rw [List.cons_append, val, val, val_append xs ys, List.length_cons, pow_succ]
    ring

/-- The low bytes of a number and the high bytes of a smaller one are no more than the number. -/
theorem val_mix_le {xs ys : Bytes} (hlen : xs.length = ys.length) (h : val xs ≤ val ys) (c : Nat) :
    val (ys.take c ++ xs.drop c) ≤ val ys := by
  have hx := val_append (xs.take c) (xs.drop c)
  have hy := val_append (ys.take c) (ys.drop c)
  rw [List.take_append_drop] at hx hy
  have hsize : (xs.take c).length = (ys.take c).length := by rw [List.length_take, List.length_take, hlen]
  have hlow := val_lt (ys.take c)
  rw [hsize] at hx
  rw [val_append, hy]
  generalize 256 ^ (ys.take c).length = b at hx hy hlow ⊢
  refine Nat.add_le_add_left (Nat.mul_le_mul_left _ ?_) _
  by_contra hlt
  have hstep : b * (val (ys.drop c) + 1) ≤ b * val (xs.drop c) := Nat.mul_le_mul_left _ (Nat.lt_of_not_le hlt)
  rw [Nat.mul_add, Nat.mul_one] at hstep
  omega

theorem uintAt_take {bs : Bytes} {n offset k : Nat} (h : offset + k ≤ n) :
    uintAt (bs.take n) offset k = uintAt bs offset k := by
  rw [uintAt, uintAt, List.drop_take, List.take_take, Nat.min_eq_left (by omega)]

/-- A field of a file whose first bytes are those of another. -/
theorem uintAt_torn_le {old new : Bytes} {m offset k : Nat} (hold : offset + k ≤ old.length) (hnew : offset + k ≤ new.length)
    (hm : m ≤ new.length) (h : uintAt old offset k ≤ uintAt new offset k) :
    uintAt (new.take m ++ old.drop m) offset k ≤ uintAt new offset k := by
  have hmix : ((new.take m ++ old.drop m).drop offset).take k =
      ((new.drop offset).take k).take (m - offset) ++ ((old.drop offset).take k).drop (m - offset) := by
    have hfront : ((new.drop offset).take (m - offset)).length = m - offset := by
      rw [List.length_take, List.length_drop]
      omega
    rw [List.drop_append, List.drop_take, List.take_append, hfront, List.take_take, List.take_take, Nat.min_comm,
      List.drop_drop, List.drop_take, List.drop_drop, List.length_take, Nat.min_eq_left hm,
      show m + (offset - m) = offset + (m - offset) by omega]
  rw [uintAt, hmix]
  exact val_mix_le (by simp only [List.length_take, List.length_drop]; omega) h _

/-! ## The head of a database -/

/-- The generation and the row count in page zero, as bytes of the file. -/
def headGeneration (file : Bytes) : Nat := uintAt file 32 8

def headRows (file : Bytes) : Nat := uintAt file 68 8

theorem head_imageOf {pages : List Page} {super : Superblock} (hok : PagesOk pages)
    (h : pages[0]? = some ⟨.superblock, 0, noPage, superPayload super⟩) (hfits : super.Fits) :
    headGeneration (imageOf pages) = super.generation ∧ headRows (imageOf pages) = super.rowCount := by
  have hblock := pageSlice_imageOf hok h
  have hpage : ∀ {offset}, offset + 8 ≤ pageSize → uintAt (imageOf pages) offset 8 =
      uintAt (pageImage ⟨.superblock, 0, noPage, superPayload super⟩) offset 8 := fun {offset} hoffset => by
    rw [← hblock, pageSlice, Nat.zero_mul, List.drop_zero, uintAt_take hoffset]
  rw [headGeneration, headRows, hpage (by decide), hpage (by decide), pageImage]
  generalize crc32 _ = c
  constructor
  · rw [show pageBytes ⟨.superblock, 0, noPage, superPayload super⟩ c =
      (pageMagic ++ le 1 PageType.superblock.code ++ le 1 0 ++
      le 2 formatVersion ++ le 4 0 ++ le 4 (superPayload super).length ++ le 4 noPage ++ le 4 c ++ zeros 8) ++
      (le 8 super.generation ++ (le 4 pageSize ++ le 4 super.pageCount ++ le 4 super.schemaHead ++ le 4 super.rowsHead ++
        le 4 super.indexDirectoryHead ++ le 4 super.freeHead ++ le 4 super.fieldCount ++ le 8 super.rowCount ++
        zeros (pagePayloadSize - (superPayload super).length))) by simp only [pageBytes, superPayload, List.append_assoc]]
    exact uintAt_append (by simp [pageMagic, zeros]) hfits.generation_lt
  · rw [show pageBytes ⟨.superblock, 0, noPage, superPayload super⟩ c =
      (pageMagic ++ le 1 PageType.superblock.code ++ le 1 0 ++
      le 2 formatVersion ++ le 4 0 ++ le 4 (superPayload super).length ++ le 4 noPage ++ le 4 c ++ zeros 8 ++
      le 8 super.generation ++ le 4 pageSize ++ le 4 super.pageCount ++ le 4 super.schemaHead ++ le 4 super.rowsHead ++
      le 4 super.indexDirectoryHead ++ le 4 super.freeHead ++ le 4 super.fieldCount) ++ (le 8 super.rowCount ++
        zeros (pagePayloadSize - (superPayload super).length)) by simp only [pageBytes, superPayload, List.append_assoc]]
    exact uintAt_append (by simp [pageMagic, zeros]) hfits.rowCount_lt

/-- **The head is not ahead of another one**, in the generation and in the row count. -/
structure Headed (file image : Bytes) : Prop where
  size : pageSize ≤ file.length
  generation : headGeneration file ≤ headGeneration image
  rows : headRows file ≤ headRows image

/-- A head that is not ahead of an accepted image neither parses as a newer one nor throws anything but corruption. -/
theorem Headed.parse {file : Bytes} {pages : List Page} {L : Layout} (h : Headed file (imageOf pages)) (hL : L.On pages)
    (walPresent : Bool) : (∀ P, parseImage file walPresent = .ok P → P.table.inspection.generation ≤ L.generation) ∧
      ∀ e, parseImage file walPresent = .error e → ∃ c, e = .corruption c := by
  obtain ⟨hgen, hrows⟩ := head_imageOf hL.pages_ok hL.super_at hL.super_fits
  constructor
  · intro P hP
    obtain ⟨rfl, L', hL', hPL⟩ := parseImage_ok hP
    have hgen' := (head_imageOf hL'.pages_ok hL'.super_at hL'.super_fits).1
    have hle := h.generation
    rw [hgen', hgen] at hle
    rw [hPL]
    exact hle
  · intro e he
    rcases parseImage_error he with hc | ⟨pages', super, rfl, hok, hp0, hfits, hmax⟩
    · exact hc
    · -- the row count is no larger than one the vector can hold
      have hle := h.rows
      rw [(head_imageOf hok hp0 hfits).2, hrows] at hle
      exact absurd (Nat.le_trans hle hL.rows_le) (Nat.not_le.2 hmax)

theorem Headed.resize {file image : Bytes} {n : Nat} (h : Headed file image) (hn : pageSize ≤ n) :
    Headed (Blocks.resize n file) image := by
  have hsize := h.size
  have hsame : ∀ {offset}, offset + 8 ≤ pageSize → uintAt (Blocks.resize n file) offset 8 = uintAt file offset 8 :=
    fun {offset} hoffset => by
      rw [← uintAt_take hoffset, ← @uintAt_take file _ _ _ hoffset, Blocks.resize, List.take_append_of_le_length,
        List.take_take, Nat.min_eq_left hn]
      rw [List.length_take]
      omega
  exact ⟨by rw [length_resize]; exact hn, (hsame (by decide)).le.trans h.generation, (hsame (by decide)).le.trans h.rows⟩

/-- A page of the image, or the front of one, written into the file. -/
theorem Headed.writeAt {file image : Bytes} (h : Headed file image) {id : Nat}
    (hid : id * pageSize + pageSize ≤ image.length)
    (m : Nat) :
    Headed (Blocks.writeAt (id * pageSize) ((block pageSize image id).take m) file) image := by
  have hblock : (block pageSize image id).length = pageSize := length_block hid
  have hdata : ((block pageSize image id).take m).length = min m pageSize := by rw [List.length_take, hblock]
  have hsize := h.size
  have hfield : ∀ {offset}, offset + 8 ≤ pageSize → uintAt file offset 8 ≤ uintAt image offset 8 →
      uintAt (Blocks.writeAt (id * pageSize) ((block pageSize image id).take m) file) offset 8 ≤ uintAt image offset 8 := by
    intro offset hoffset hle
    by_cases h0 : id = 0
    · -- page zero: the front is new, the rest is old
      subst h0
      have hfront : (block pageSize image 0).take m = image.take (min m pageSize) := by
        rw [block, Nat.zero_mul, List.drop_zero, List.take_take]
      have hwrite : Blocks.writeAt (0 * pageSize) ((block pageSize image 0).take m) file =
          image.take (min m pageSize) ++ file.drop (min m pageSize) := by
        rw [Blocks.writeAt, hdata, hfront, Nat.zero_mul, List.take_zero, Nat.zero_sub, List.replicate_zero, Nat.zero_add]
        rfl
      rw [hwrite]
      exact uintAt_torn_le (by omega) (by omega) (by omega) hle
    · -- another page: page zero stays
      have hpage : pageSize ≤ id * pageSize := Nat.le_mul_of_pos_left _ (Nat.pos_of_ne_zero h0)
      have hsame : (Blocks.writeAt (id * pageSize) ((block pageSize image id).take m) file).take pageSize =
          file.take pageSize := by
        rw [Blocks.writeAt, List.append_assoc, List.append_assoc, List.take_append_of_le_length, List.take_take,
          Nat.min_eq_left hpage]
        rw [List.length_take]
        omega
      rw [← uintAt_take hoffset, hsame, uintAt_take hoffset]
      exact hle
  refine ⟨Nat.le_trans hsize ?_, hfield (by decide) h.generation, hfield (by decide) h.rows⟩
  simp only [Blocks.writeAt, List.length_append, List.length_take, List.length_replicate, List.length_drop]
  omega

/-! ## System calls -/

/-- The system calls of `commit_image`, `apply_image` and `clear_wal` that may fail. -/
inductive SystemCall where
  /-- `open` with `O_TRUNC` -/
  | openWal
  | writeWal (record : Bytes)
  | syncWal
  | openDirectory
  | syncDirectory
  | openDatabase
  | sizeDatabase (size : Nat)
  | seekPage (id : Nat)
  | writePage (id : Nat) (bytes : Bytes)
  | syncDatabase
  | reopenWal
  | truncateWal
  | syncTruncated

/-- What a call that succeeded has done. -/
def SystemCall.done : SystemCall → List DiskEffect
  | openWal => [.truncateWal]
  | writeWal record => [.writeWal record record.length]
  | openDatabase => [.openDatabase]
  | sizeDatabase size => [.sizeDatabase size]
  | writePage id bytes => [.writePage id bytes]
  | truncateWal => [.truncateWal]
  | syncWal | openDirectory | syncDirectory | seekPage _ | syncDatabase | reopenWal | syncTruncated => []

/-- What a call that failed has done: a write some of its bytes, any other call nothing. -/
def SystemCall.failed (written : Nat) : SystemCall → List DiskEffect
  | writeWal record => [.writeWal record written]
  | writePage id bytes => [.writePage id (bytes.take written)]
  | _ => []

/-- A write that failed has not written all its bytes. -/
def SystemCall.Short (written : Nat) : SystemCall → Prop
  | writeWal record => written < record.length
  | writePage _ bytes => written < bytes.length
  | _ => True

/-- `fsync_parent`, for a file that was missing. -/
def directoryCalls (file : Option Bytes) : List SystemCall :=
  if file = none then [.openDirectory, .syncDirectory] else []

/-- The calls of `apply_image`. -/
def applyCalls (buffer : PageBuffer) (disk : Disk) : List SystemCall :=
  [.openDatabase, .sizeDatabase buffer.image.length] ++
    buffer.order.flatMap (fun id => [.seekPage id, .writePage id (buffer.pageData id)]) ++ [.syncDatabase] ++
    directoryCalls disk.database

/-- The calls behind the write of the record and in front of its removal. -/
def recordedCalls (buffer : PageBuffer) (disk : Disk) : List SystemCall :=
  [.syncWal] ++ directoryCalls disk.wal ++ applyCalls buffer disk ++ [.reopenWal]

/-- The calls of `commit_image`, with those of `clear_wal` at the end. -/
def commitCalls (buffer : PageBuffer) (generation : Nat) (disk : Disk) : List SystemCall :=
  [.openWal, .writeWal (walRecord buffer.image generation)] ++ recordedCalls buffer disk ++ [.truncateWal, .syncTruncated]

/-- The effects of the calls in front of number `i`, and of that one failing behind `written` bytes. -/
def failedAt (calls : List SystemCall) (i written : Nat) : List DiskEffect :=
  (calls.take i).flatMap SystemCall.done ++ (calls[i]?.map (SystemCall.failed written)).getD []

theorem failedAt_zero (call : SystemCall) (calls : List SystemCall) (written : Nat) :
    failedAt (call :: calls) 0 written = call.failed written := rfl

theorem failedAt_succ (call : SystemCall) (calls : List SystemCall) (i written : Nat) :
    failedAt (call :: calls) (i + 1) written = call.done ++ failedAt calls i written := by
  simp [failedAt]

theorem failedAt_append (xs ys : List SystemCall) {i written : Nat} (h : xs.length ≤ i) :
    failedAt (xs ++ ys) i written = xs.flatMap SystemCall.done ++ failedAt ys (i - xs.length) written := by
  rw [failedAt, failedAt, List.take_append, List.take_of_length_le h, List.getElem?_append_right h, List.flatMap_append,
    List.append_assoc]

theorem directoryCalls_done (file : Option Bytes) : (directoryCalls file).flatMap SystemCall.done = [] := by
  unfold directoryCalls
  split <;> rfl

theorem recordedCalls_done (buffer : PageBuffer) (disk : Disk) :
    (recordedCalls buffer disk).flatMap SystemCall.done = applyEffects buffer := by
  have hpages : (buffer.order.flatMap (fun id => [.seekPage id, .writePage id (buffer.pageData id)])).flatMap
      SystemCall.done = buffer.order.map (fun id => .writePage id (buffer.pageData id)) := by
    rw [List.flatMap_assoc, List.map_eq_flatMap]
    rfl
  simp only [recordedCalls, applyCalls, List.flatMap_append, directoryCalls_done, hpages, applyEffects]
  simp [SystemCall.done]

/-- **All calls together are the commit.** -/
theorem commitCalls_done {image : Bytes} {generation : Nat} {dirty : Finset Nat} {buffer : PageBuffer}
    (hmake : PageBuffer.make image dirty = .ok buffer) (himage : buffer.image = image) (h : image.length ≤ offsetMax)
    (disk : Disk) : after disk ((commitCalls buffer generation disk).flatMap SystemCall.done) =
      after disk (commitImage image generation dirty disk).effects := by
  have hwrites : writeEffects (walRecord image generation) =
    (List.range (walRecord image generation).length).map (fun n => .writeWal (walRecord image generation) (n + 1)) := rfl
  rw [commitImage_run hmake himage h disk, commitCalls, List.flatMap_append, List.flatMap_append, recordedCalls_done,
    after_append, after_append, after_append, hwrites, after_writes, himage, after_append]
  rfl

/-! ## The files behind a failure -/

/-- The record is complete, and the head of the database not ahead of it. -/
def Recorded (image record : Bytes) (disk : Disk) : Prop := ∃ file, Headed file image ∧ disk = ⟨some file, some record⟩

/-- **A call between the record and its removal** keeps the record, done or failed. -/
theorem recordedCalls_recorded {buffer : PageBuffer} {record : Bytes} (hsize : pageSize ≤ buffer.image.length)
    {start : Disk} {call : SystemCall} (hcall : call ∈ recordedCalls buffer start) {disk : Disk}
    (h : Recorded buffer.image record disk) :
    Recorded buffer.image record (after disk call.done) ∧
      ∀ written, Recorded buffer.image record (after disk (call.failed written)) := by
  have hquiet : call.done = [] → (∀ written, call.failed written = []) →
      Recorded buffer.image record (after disk call.done) ∧
        ∀ written, Recorded buffer.image record (after disk (call.failed written)) := fun hdone hfailed =>
    ⟨by rwa [hdone], fun written => by rwa [hfailed]⟩
  have hdirectory : ∀ {file : Option Bytes}, call ∈ directoryCalls file → call = .openDirectory ∨ call = .syncDirectory := by
    intro file hmem
    unfold directoryCalls at hmem
    split at hmem
    · simpa using hmem
    · cases hmem
  obtain ⟨file, hfile, rfl⟩ := id h
  simp only [recordedCalls, applyCalls, List.mem_append, List.mem_flatMap, List.mem_cons, List.not_mem_nil,
    or_false] at hcall
  rcases hcall with ((rfl | hmem) | (((rfl | rfl) | ⟨id, hid, rfl | rfl⟩) | rfl) | hmem) | rfl
  · exact hquiet rfl (fun _ => rfl)
  · rcases hdirectory hmem with rfl | rfl <;> exact hquiet rfl (fun _ => rfl)
  · exact ⟨h, fun _ => h⟩
  · exact ⟨⟨_, hfile.resize hsize, rfl⟩, fun _ => h⟩
  · exact hquiet rfl (fun _ => rfl)
  · have hend : id * pageSize + pageSize ≤ buffer.image.length := by
      rw [buffer.length_image]
      exact block_end_le (buffer.dirty_lt id (PageBuffer.mem_order.1 hid))
    refine ⟨⟨_, ?_, rfl⟩, fun written => ⟨_, hfile.writeAt hend written, rfl⟩⟩
    have hwhole := hfile.writeAt hend pageSize
    rwa [List.take_of_length_le (length_block hend).le] at hwhole
  · exact hquiet rfl (fun _ => rfl)
  · rcases hdirectory hmem with rfl | rfl <;> exact hquiet rfl (fun _ => rfl)
  · exact hquiet rfl (fun _ => rfl)

theorem not_writeWal_of_recorded {buffer : PageBuffer} {disk : Disk} {call : SystemCall}
    (hcall : call ∈ recordedCalls buffer disk) (record : Bytes) : call ≠ .writeWal record := by
  rintro rfl
  simp [recordedCalls, applyCalls, directoryCalls] at hcall

theorem recorded_done {buffer : PageBuffer} {record : Bytes} (hsize : pageSize ≤ buffer.image.length) {start : Disk} :
    ∀ (calls : List SystemCall) {disk : Disk}, (∀ call ∈ calls, call ∈ recordedCalls buffer start) →
      Recorded buffer.image record disk →
      Recorded buffer.image record (after disk (calls.flatMap SystemCall.done))
  | [], _, _, h => h
  | call :: calls, disk, hcalls, h => by
    rw [List.flatMap_cons, after_append]
    exact recorded_done hsize calls (fun other hmem => hcalls other (List.mem_cons_of_mem call hmem))
      (recordedCalls_recorded hsize (hcalls call List.mem_cons_self) h).1

/-- The table opens, as it was or with the row at its end. -/
def Opens (path : String) (disk : Disk) (fields : List Bytes) (rows : List (List Bytes)) (row : List Bytes) : Prop :=
  ∃ es table, openTable path disk = ⟨es, .ok table⟩ ∧ table.fields = fields ∧
    (table.rows = rows ∨ table.rows = rows ++ [row])

theorem Rests.opens {path : String} {disk : Disk} {fields : List Bytes} {rows rows' : List (List Bytes)} {row : List Bytes}
    (h : Rests disk fields rows') (hrows : rows' = rows ∨ rows' = rows ++ [row]) : Opens path disk fields rows row := by
  obtain ⟨table, hopen, hfields, rfl⟩ := openTable_rests path h
  exact ⟨[], table, hopen, hfields, hrows⟩

/-- **From the record the table opens** with the row. -/
theorem Recorded.opens {path : String} {image : Bytes} {fields : List Bytes} {rows : List (List Bytes)} {row : List Bytes}
    {generation : Nat} {disk : Disk} (h : Recorded image (walRecord image generation) disk)
    (hw : Written image fields (rows ++ [row]) generation) : Opens path disk fields rows row := by
  obtain ⟨file, hfile, rfl⟩ := h
  have hstale : checkStale ⟨image, generation⟩ (some file) = .ok () := by
    obtain ⟨pages, L, rfl, hL, -, -, -, rfl⟩ := hw
    obtain ⟨hok, herror⟩ := hfile.parse hL true
    exact checkStale_ok hok herror
  obtain ⟨buffer, himage, hdirty, hrun⟩ := hw.recover_run hstale
  have hclean : Clean (⟨some image, some []⟩ : Disk) fields (rows ++ [row]) generation := ⟨rfl, image, rfl, hw⟩
  rw [← after_recovery himage hdirty ⟨some file, some (walRecord image generation)⟩] at hclean
  obtain ⟨hwal', image', P', hdb', hP', hfields, hrows⟩ := hclean.rests
  exact ⟨_, P'.table, openTable_ok hrun (by rw [hdb']; rfl) (hwal' ▸ hP'), hfields, Or.inr hrows⟩

theorem Written.head {image : Bytes} {fields : List Bytes} {rows : List (List Bytes)} {generation : Nat}
    (h : Written image fields rows generation) : headGeneration image = generation ∧ headRows image = rows.length := by
  obtain ⟨pages, L, rfl, hL, -, -, rfl, rfl⟩ := h
  exact head_imageOf hL.pages_ok hL.super_at hL.super_fits

/-- The record was written in part. -/
def SystemCall.Torn (written : Nat) (call : SystemCall) : Prop := (∃ record, call = writeWal record) ∧ 0 < written

/-- **An insert whose system call fails leaves a table that opens**, with or without the row, unless the call was the write
of the log record and had begun: then opening it reports corruption. -/
theorem failedInsert_opens (path : String) {disk : Disk} {image : Bytes} {fields : List Bytes} {rows : List (List Bytes)}
    {row : List Bytes} {next : IncrementalImage} {buffer : PageBuffer} (h : Rests disk fields rows)
    (hdb : disk.database = some image) (hnext : buildIncrementalInsert image row = .ok next)
    (hmake : PageBuffer.make next.image next.dirtyPages = .ok buffer) {i written : Nat} {call : SystemCall}
    (hcall : (commitCalls buffer next.generation disk)[i]? = some call) (hshort : call.Short written) :
    (¬ call.Torn written → Opens path (after disk (failedAt (commitCalls buffer next.generation disk) i written))
      fields rows row) ∧
    (call.Torn written → ∃ c, openTable path (after disk (failedAt (commitCalls buffer next.generation disk) i written)) =
      ⟨[], .error (.corruption c)⟩) := by
  obtain ⟨hwal, image', P, hdb', hP, rfl, rfl⟩ := id h
  obtain rfl : image = image' := Option.some.inj (hdb.symm.trans hdb')
  obtain ⟨P', hP', hw⟩ := buildIncrementalInsert_extends hnext
  obtain rfl : P = P' := Except.ok.inj (hP.symm.trans hP')
  obtain ⟨hgen, hw'⟩ := buildIncrementalInsert_next hw hnext
  obtain ⟨hsize, hlen, hgenlt⟩ := hw'.size
  have himage : buffer.image = next.image := (PageBuffer.make_inv hmake).1
  have hheaded : Headed image next.image := by
    obtain ⟨hgeneration, hrows⟩ := hw.head
    obtain ⟨hgeneration', hrows'⟩ := hw'.head
    exact ⟨hw.size.1, by omega, by rw [hrows, hrows', List.length_append]; omega⟩
  generalize hrecord : walRecord next.image next.generation = record
  have hcalls : commitCalls buffer next.generation disk =
      .openWal :: .writeWal record :: (recordedCalls buffer disk ++ [.truncateWal, .syncTruncated]) := by
    rw [commitCalls, himage, hrecord]
    rfl
  have hrecorded : ∀ k, Recorded buffer.image record
      (after ⟨some image, some record⟩ (((recordedCalls buffer disk).take k).flatMap SystemCall.done)) := fun k =>
    recorded_done (himage ▸ hsize) _ (fun other hmem => List.mem_of_mem_take hmem) ⟨image, himage ▸ hheaded, rfl⟩
  have hopens : ∀ {t}, Recorded buffer.image record t → Opens path t P.table.fields P.table.rows row := fun ht => by
    rw [himage, ← hrecord, hgen] at ht
    exact ht.opens hw'
  rw [hcalls] at hcall ⊢
  rcases i with _ | _ | i
  · -- the log was not opened
    obtain rfl : SystemCall.openWal = call := Option.some.inj hcall
    exact ⟨fun _ => h.opens (Or.inl rfl), fun ⟨⟨_, hwrite⟩, _⟩ => by cases hwrite⟩
  · -- the record was not written to its end
    obtain rfl : SystemCall.writeWal record = call := Option.some.inj hcall
    have hleft : after disk (SystemCall.openWal.done ++ (SystemCall.writeWal record).failed written) =
        ⟨some image, some (record.take written)⟩ := by
      rw [← hdb]
      rfl
    rw [failedAt_succ, failedAt_zero, hleft]
    refine ⟨fun hwhole => ?_, fun htorn => ?_⟩
    · have hzero : written = 0 := Nat.eq_zero_of_not_pos (fun hpos => hwhole ⟨⟨_, rfl⟩, hpos⟩)
      have hrests : Rests (⟨some image, some (record.take written)⟩ : Disk) P.table.fields P.table.rows :=
        ⟨by rw [hzero]; rfl, image, P, rfl, hP, rfl, rfl⟩
      exact hrests.opens (Or.inl rfl)
    · exact openTable_stuck path ⟨next.image, next.generation, written, by omega, by omega, htorn.2, hrecord ▸ hshort,
        congrArg some (hrecord ▸ rfl)⟩
  · -- the record is complete
    have hleft : ∀ es, after disk (SystemCall.openWal.done ++ ((SystemCall.writeWal record).done ++ es)) =
        after ⟨some image, some record⟩ es := by
      intro es
      rw [← hdb]
      conv => rhs; rw [← List.take_length (l := record)]
      rfl
    rw [failedAt_succ, failedAt_succ, hleft]
    replace hcall : (recordedCalls buffer disk ++ [.truncateWal, .syncTruncated])[i]? = some call := hcall
    rcases Nat.lt_or_ge i (recordedCalls buffer disk).length with hi | hi
    · rw [List.getElem?_append_left hi] at hcall
      have hmem := List.mem_of_getElem? hcall
      refine ⟨fun _ => ?_, fun ⟨⟨_, hwrite⟩, _⟩ => absurd hwrite (not_writeWal_of_recorded hmem _)⟩
      rw [failedAt, List.take_append_of_le_length (Nat.le_of_lt hi), List.getElem?_append_left hi, hcall, after_append]
      exact hopens ((recordedCalls_recorded (himage ▸ hsize) hmem (hrecorded i)).2 written)
    · have hall := hrecorded (recordedCalls buffer disk).length
      rw [List.take_length] at hall
      rw [List.getElem?_append_right hi] at hcall
      rw [failedAt_append _ _ hi, after_append]
      generalize i - (recordedCalls buffer disk).length = j at hcall ⊢
      rcases j with _ | _ | j
      · obtain rfl : SystemCall.truncateWal = call := Option.some.inj hcall
        exact ⟨fun _ => hopens hall, fun ⟨⟨_, hwrite⟩, _⟩ => by cases hwrite⟩
      · -- the log is empty again, and the database the next image
        obtain rfl : SystemCall.syncTruncated = call := Option.some.inj hcall
        refine ⟨fun _ => ?_, fun ⟨⟨_, hwrite⟩, _⟩ => by cases hwrite⟩
        obtain ⟨-, -, -, buffer', hmake', -, -, happly⟩ := dirtyPages_suffice hnext
        obtain rfl : buffer = buffer' := Except.ok.inj (hmake.symm.trans hmake')
        have hdone := (happly ⟨some image, some record⟩ rfl).2
        have hoff : offsetMax = 2 ^ 63 - 1 := rfl
        rw [applyImage_run (by rw [himage]; omega)] at hdone
        rw [recordedCalls_done, hdone]
        have hclean : Clean (⟨some next.image, some []⟩ : Disk) P.table.fields (P.table.rows ++ [row])
            (P.table.inspection.generation + 1) := ⟨rfl, next.image, rfl, hw'⟩
        exact hclean.rests.opens (Or.inr rfl)
      · cases hcall

/-- The table with a cleared log. -/
def oneDisk : Disk := ⟨some (imageOf onePages), some []⟩

theorem oneDisk_rests : Rests oneDisk oneFields oneRows :=
  ⟨rfl, imageOf onePages, _, rfl, parseImage_imageOf oneLayout_on false, rfl, rfl⟩

theorem oneDisk_next : ∃ next buffer, buildIncrementalInsert (imageOf onePages) [[120], [121]] = .ok next ∧
    PageBuffer.make next.image next.dirtyPages = .ok buffer := by
  obtain ⟨next, hnext⟩ := insert_onePages
  obtain ⟨-, -, -, buffer, hmake, -⟩ := dirtyPages_suffice hnext
  exact ⟨next, buffer, hnext, hmake⟩

/-- One byte of the record is written: the table does not open. -/
theorem failedInsert_torn_oneDisk : ∃ next buffer, buildIncrementalInsert (imageOf onePages) [[120], [121]] = .ok next ∧
    PageBuffer.make next.image next.dirtyPages = .ok buffer ∧
    (commitCalls buffer next.generation oneDisk)[1]? = some (.writeWal (walRecord buffer.image next.generation)) ∧
    1 < (walRecord buffer.image next.generation).length ∧
    (∃ c, openTable "t" (after oneDisk (failedAt (commitCalls buffer next.generation oneDisk) 1 1)) =
      ⟨[], .error (.corruption c)⟩) ∧
    ¬ Opens "t" (after oneDisk (failedAt (commitCalls buffer next.generation oneDisk) 1 1)) oneFields oneRows [[120],
      [121]] := by
  obtain ⟨next, buffer, hnext, hmake⟩ := oneDisk_next
  have himage : buffer.image = next.image := (PageBuffer.make_inv hmake).1
  obtain ⟨P, hP, hw⟩ := buildIncrementalInsert_extends hnext
  obtain ⟨hgen, hw'⟩ := buildIncrementalInsert_next hw hnext
  obtain ⟨hsize, hlen, hgenlt⟩ := hw'.size
  have hlong : 1 < (walRecord buffer.image next.generation).length := by rw [length_walRecord]; omega
  have hleft : after oneDisk (failedAt (commitCalls buffer next.generation oneDisk) 1 1) =
      ⟨some (imageOf onePages), some ((walRecord next.image next.generation).take 1)⟩ := by
    rw [← himage]
    rfl
  have hstuck : Stuck ⟨some (imageOf onePages), some ((walRecord next.image next.generation).take 1)⟩ :=
    ⟨next.image, next.generation, 1, by omega, by omega, by decide, himage ▸ hlong, rfl⟩
  obtain ⟨c, hc⟩ := openTable_stuck "t" hstuck
  rw [← hleft] at hc
  refine ⟨next, buffer, hnext, hmake, rfl, hlong, ⟨c, hc⟩, ?_⟩
  rintro ⟨es, table, hopen, -⟩
  rw [hc] at hopen
  cases hopen

/-- The first page that is written is the superblock. -/
theorem oneDisk_order {next : IncrementalImage} {buffer : PageBuffer}
    (hnext : buildIncrementalInsert (imageOf onePages) [[120], [121]] = .ok next)
    (hmake : PageBuffer.make next.image next.dirtyPages = .ok buffer) : ∃ rest, buffer.order = 0 :: rest := by
  obtain ⟨P, P', w, -, hrun, -, -, hdirty, -⟩ := buildIncrementalInsert_ok hnext
  have hzero : 0 ∈ next.dirtyPages := hdirty ▸ insertRowPages_zero hrun
  obtain ⟨-, -, -, buffer', hmake', hbuffer, -⟩ := dirtyPages_suffice hnext
  obtain rfl := Except.ok.inj (hmake.symm.trans hmake')
  have hmem : 0 ∈ buffer.order := PageBuffer.mem_order.2 (hbuffer ▸ hzero)
  have hsorted : buffer.order.Pairwise (· ≤ ·) := buffer.dirtyPages.pairwise_sort (· ≤ ·)
  cases horder : buffer.order with
  | nil =>
    rw [horder] at hmem
    cases hmem
  | cons id rest =>
    rw [horder] at hmem hsorted
    rcases List.mem_cons.1 hmem with rfl | hrest
    · exact ⟨rest, rfl⟩
    · exact ⟨rest, by rw [Nat.eq_zero_of_le_zero ((List.pairwise_cons.1 hsorted).1 0 hrest)]⟩

/-- The first page is torn behind its hundredth byte, with the record complete: the table opens. -/
theorem failedInsert_opens_oneDisk : ∃ next buffer, buildIncrementalInsert (imageOf onePages) [[120], [121]] = .ok next ∧
    PageBuffer.make next.image next.dirtyPages = .ok buffer ∧
    (commitCalls buffer next.generation oneDisk)[6]? = some (.writePage 0 (buffer.pageData 0)) ∧
    Opens "t" (after oneDisk (failedAt (commitCalls buffer next.generation oneDisk) 6 100)) oneFields oneRows
      [[120], [121]] := by
  obtain ⟨next, buffer, hnext, hmake⟩ := oneDisk_next
  obtain ⟨rest, horder⟩ := oneDisk_order hnext hmake
  have hcall : (commitCalls buffer next.generation oneDisk)[6]? = some (.writePage 0 (buffer.pageData 0)) := by
    unfold commitCalls recordedCalls applyCalls
    rw [horder]
    rfl
  have hend : 0 * pageSize + pageSize ≤ buffer.image.length := by
    rw [buffer.length_image]
    exact block_end_le (buffer.dirty_lt 0 (PageBuffer.mem_order.1 (horder ▸ List.mem_cons_self)))
  have hshort : (SystemCall.writePage 0 (buffer.pageData 0)).Short 100 :=
    (show 100 < pageSize by decide).trans_eq (length_block hend).symm
  refine ⟨next, buffer, hnext, hmake, hcall, (failedInsert_opens "t" oneDisk_rests rfl hnext hmake hcall hshort).1 ?_⟩
  rintro ⟨⟨_, hwrite⟩, -⟩
  cases hwrite

end Storage
end Sql
