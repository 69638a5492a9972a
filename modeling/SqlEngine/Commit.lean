import SqlEngine.Disk
import SqlEngine.Wal
/-!
# Commit — the calls on a table file

`recover`, `commit_image`, `create_from_rows`, `open_table` and `insert_row` as programs over the two files of a table.
Whatever they throw before their first effect leaves the files alone; what they leave behind when they are killed is the
subject of `Crash`.
-/
namespace Sql
namespace Storage

open Wire BTree Blocks Effects

def walPath (path : String) : String := path ++ "-wal"

def readFile (path : String) : Option Bytes → Except StorageError Bytes
  | none => .error (.runtimeError ("Table does not exist: " ++ path))
  | some bytes => .ok bytes

/-- Is there a log with something in it? -/
def walPresent (disk : Disk) : Bool := disk.wal.elim false (fun wal => wal ≠ [])

def clearWal : Call Unit := perform .truncateWal

def commitImage (image : Bytes) (generation : Nat) (dirtyPages : Finset Nat) : Call Unit := do
  let buffer ← attempt (PageBuffer.make image dirtyPages)
  let record := walRecord buffer.image generation
  perform .truncateWal
  performAll ((List.range record.length).map (fun n => .writeWal record (n + 1)))
  applyImage buffer
  clearWal

/-- A log may replace a damaged database, and one that is not newer. -/
def checkStale (walImage : WalImage) : Option Bytes → Except StorageError Unit
  | none => .ok ()
  | some bytes =>
    match parseImage bytes true with
    | .ok database => throwIf (database.table.inspection.generation > walImage.generation)
        (.corruption ⟨"stale WAL generation would roll back the database"⟩)
    | .error (.corruption _) => .ok ()
    | .error e => .error e

/-- `recover` with a log that is not empty. -/
def recoverFrom (wal : Bytes) : Call Unit := do
  let walImage ← attempt (parseWal wal)
  let database ← observe Disk.database
  attempt (checkStale walImage database)
  let buffer ← attempt (PageBuffer.make walImage.image ∅)
  applyImage buffer
  clearWal

def recover : Call Unit := do
  let disk ← observe id
  if walPresent disk then recoverFrom (disk.wal.getD []) else pure ()

def createFromRows (path : String) (fields : List Bytes) (rows : List (List Bytes)) : Call Unit := do
  let disk ← observe id
  attempt (throwIf (disk.database.isSome = true) (.runtimeError ("Table already exists: " ++ path)))
  attempt (throwIf (walPresent disk = true) (.runtimeError ("Non-empty WAL already exists: " ++ walPath path)))
  let image ← attempt (buildImage fields rows 1)
  commitImage image 1 ∅

def createTable (path : String) (fields : List Bytes) : Call Unit := createFromRows path fields []

def openTable (path : String) : Call LoadedTable := do
  recover
  let disk ← observe id
  let bytes ← attempt (readFile path disk.database)
  let parsed ← attempt (parseImage bytes (walPresent disk))
  pure parsed.table

def insertRow (path : String) (row : List Bytes) : Call Unit := do
  recover
  let disk ← observe id
  let bytes ← attempt (readFile path disk.database)
  let next ← attempt (buildIncrementalInsert bytes row)
  commitImage next.image next.generation next.dirtyPages

/-! ## Applying a buffer -/

/-- The effects of `apply_image`. -/
def applyEffects (buffer : PageBuffer) : List DiskEffect :=
  [.openDatabase, .sizeDatabase buffer.image.length] ++ buffer.order.map (fun id => .writePage id (buffer.pageData id))

theorem applyImage_run {buffer : PageBuffer} (h : buffer.image.length ≤ offsetMax) (disk : Disk) :
    applyImage buffer disk = ⟨applyEffects buffer, .ok ()⟩ := by
  unfold applyImage
  rw [throwIf_neg (by omega)]
  rfl

theorem after_writePages (image : Bytes) (wal : Option Bytes) : ∀ (ids : List Nat) (file : Bytes),
    after (⟨some file, wal⟩ : Disk) (ids.map (fun id => DiskEffect.writePage id (block pageSize image id))) =
      ⟨some (overwrite pageSize image ids file), wal⟩
  | [], _ => rfl
  | id :: ids, file => by
    rw [List.map_cons, after_cons]
    exact after_writePages image wal ids _

theorem after_applyEffects (buffer : PageBuffer) (disk : Disk) : after disk (applyEffects buffer) =
    ⟨some (overwrite pageSize buffer.image buffer.order (resize buffer.image.length (disk.database.getD []))),
      disk.wal⟩ := by
  unfold applyEffects
  rw [after_append]
  exact after_writePages buffer.image disk.wal buffer.order _

theorem PageBuffer.mem_order {buffer : PageBuffer} {i : Nat} : i ∈ buffer.order ↔ i ∈ buffer.dirtyPages :=
  Finset.mem_sort (· ≤ ·)

theorem PageBuffer.length_image (buffer : PageBuffer) :
    buffer.image.length = buffer.image.length / pageSize * pageSize :=
  (Nat.div_mul_cancel (Nat.dvd_of_mod_eq_zero buffer.complete)).symm

/-- **Applying all pages** gives the image, whatever the file held. -/
theorem after_applyAll {buffer : PageBuffer} (h : buffer.dirtyPages = Finset.range (buffer.image.length / pageSize))
    (disk : Disk) : after disk (applyEffects buffer) = ⟨some buffer.image, disk.wal⟩ := by
  rw [after_applyEffects, overwrite_all buffer.length_image ((length_resize _ _).trans buffer.length_image)]
  intro i
  rw [PageBuffer.mem_order, h, Finset.mem_range]

theorem PageBuffer.make_ok {pages : List Page} (h : PagesOk pages) (hpos : 0 < pages.length) (hlen : pages.length < 2 ^ 32)
    {dirty : Finset Nat} (hd : ∀ id ∈ dirty, id < pages.length) : ∃ buffer,
      PageBuffer.make (imageOf pages) dirty = .ok buffer ∧
      buffer.image = imageOf pages ∧
      buffer.dirtyPages = if dirty = ∅ then Finset.range pages.length else dirty := by
  have hl := length_imageOf h
  have hp : 0 < pageSize := by decide
  have hdiv : (imageOf pages).length / pageSize = pages.length := by rw [hl, Nat.mul_div_cancel _ hp]
  have hne : imageOf pages ≠ [] := by
    rw [← List.length_pos_iff, hl]; exact Nat.mul_pos hpos hp
  have hin : ∀ id ∈ (if dirty = ∅ then Finset.range ((imageOf pages).length / pageSize) else dirty),
      id < (imageOf pages).length / pageSize := fun id hid => by
    rw [hdiv] at hid ⊢
    split at hid
    · exact Finset.mem_range.1 hid
    · exact hd id hid
  unfold PageBuffer.make
  rw [dif_neg (by rw [not_or, not_not, hl]; exact ⟨hne, Nat.mul_mod_left _ _⟩), if_neg (by rw [hdiv]; omega)]
  simp only
  rw [dif_pos hin]
  exact ⟨_, rfl, rfl, by simp only [hdiv]⟩

/-! ## Dirty pages only -/

/-- **Writing the dirty pages only is writing the whole image**: pages outside the dirty set are the same bytes in both
images, new pages are inside, and `apply_image` turns the old file into the image that the log record carries. -/
theorem dirtyPages_suffice {image : Bytes} {row : List Bytes} {next : IncrementalImage}
    (h : buildIncrementalInsert image row = .ok next) :
    image.length / pageSize ≤ next.image.length / pageSize ∧
    (∀ id < image.length / pageSize, id ∉ next.dirtyPages → block pageSize next.image id = block pageSize image id) ∧
    (∀ id, image.length / pageSize ≤ id → id < next.image.length / pageSize → id ∈ next.dirtyPages) ∧
    ∃ buffer, PageBuffer.make next.image next.dirtyPages = .ok buffer ∧ buffer.dirtyPages = next.dirtyPages ∧
      readWal (walRecord buffer.image next.generation) = .ok ⟨next.image, next.generation⟩ ∧
      ∀ disk : Disk, disk.database = some image → (applyImage buffer disk).result = .ok () ∧
        after disk (applyImage buffer disk).effects = ⟨some next.image, disk.wal⟩ := by
  obtain ⟨P, P', w, hparse, hrun, henc, hparse', hdirty, hgen⟩ := buildIncrementalInsert_ok h
  obtain ⟨himage, L, hL, hP⟩ := parseImage_ok hparse
  obtain ⟨himage', L', hL', -⟩ := parseImage_ok hparse'
  obtain ⟨hnext, hpages'⟩ := encodePages_inv henc
  have htracks := insertRowPages_tracks hrun
  have hpages := hL.pages_ok.length_pageImage
  have hp : 0 < pageSize := by decide
  have hlen : image.length / pageSize = P.pages.length := by
    rw [himage, length_imageOf hL.pages_ok, Nat.mul_div_cancel _ hp]
  have hlenw : next.image.length = w.pages.length * pageSize := by rw [hnext]; exact length_flatMap_block hpages'
  have hlen' : next.image.length / pageSize = w.pages.length := by rw [hlenw, Nat.mul_div_cancel _ hp]
  have hcount : P'.pages.length = w.pages.length := by
    rw [← hlen', himage', length_imageOf hL'.pages_ok, Nat.mul_div_cancel _ hp]
  have hbound := hL'.length_lt
  have hsize : pageSize = 4096 := rfl
  have hoff : offsetMax = 2 ^ 63 - 1 := rfl
  have hbytes : next.image.length < 2 ^ 44 := by rw [hlenw, hsize]; omega
  have hgenlt : next.generation < 2 ^ 64 := by
    have h1 := hL.generation_lt
    have h2 := (insertRowPages_ok hrun).2.1
    rw [hP] at h2
    have h3 : (L.parsed P.pages false).table.inspection.generation = L.generation := rfl
    rw [hgen, hP]
    omega
  rw [hlen, hlen', hdirty]
  refine ⟨htracks.le, fun id hid hm => ?_, htracks.fresh, ?_⟩
  · have hx := List.getElem?_eq_getElem hid
    rw [hnext, himage, imageOf, imageOf, block_flatMap hpages' ((htracks.same id hid hm).trans hx), block_flatMap hpages hx]
  · have hlt : ∀ id ∈ w.dirty, id < w.pages.length := fun id hid => (htracks.bound id hid).resolve_left (by simp)
    obtain ⟨buffer, hmake, hbuffer, hdirtyb⟩ := PageBuffer.make_ok hL'.pages_ok
      (lt_of_getElem?_some hL'.super_at) hbound (fun id hid => by rw [hcount]; exact hlt id hid)
    rw [← himage'] at hmake hbuffer
    -- page zero has been written, so the dirty set does not stand for all pages
    have hne : w.dirty ≠ ∅ := Finset.ne_empty_of_mem (insertRowPages_zero hrun)
    rw [if_neg hne] at hdirtyb
    refine ⟨buffer, hmake, hdirtyb, ?_, fun disk hdisk => ?_⟩
    · rw [hbuffer]
      exact readWal_walRecord (by omega) hgenlt
    · rw [applyImage_run (by rw [hbuffer]; omega), after_applyEffects, hdisk, hbuffer, Option.getD_some]
      refine ⟨rfl, ?_⟩
      have horder : ∀ i, i ∈ buffer.order ↔ i ∈ w.dirty := fun i => by rw [PageBuffer.mem_order, hdirtyb]
      have := overwrite_tracked hpages hpages' htracks horder
      rw [hnext, himage]
      simp only [imageOf] at this ⊢
      rw [this]

theorem dirtyPages_suffice_onePages : ∃ next, buildIncrementalInsert (imageOf onePages) [[120], [121]] = .ok next ∧
    6 ≤ next.image.length / pageSize ∧ ∃ buffer, PageBuffer.make next.image next.dirtyPages = .ok buffer ∧
      after (⟨some (imageOf onePages), none⟩ : Disk) (applyImage buffer ⟨some (imageOf onePages), none⟩).effects =
        (⟨some next.image, none⟩ : Disk) := by
  obtain ⟨next, hnext⟩ := insert_onePages
  obtain ⟨hle, -, -, buffer, hmake, -, -, hdisk⟩ := dirtyPages_suffice hnext
  have h6 : (imageOf onePages).length / pageSize = 6 := by
    rw [length_imageOf oneLayout_on.pages_ok, Nat.mul_div_cancel _ (by decide)]
    rfl
  exact ⟨next, hnext, h6 ▸ hle, buffer, hmake, (hdisk ⟨some (imageOf onePages), none⟩ rfl).2⟩

end Storage
end Sql
