import SqlEngine.Dirty
import SqlEngine.Effects
/-!
# Disk — the two files of a table, and `apply_image`

The database file and its write-ahead log as byte strings, absent or present, and what the system calls of
`storage_v2.cpp` do to them.  Writing is one effect for each prefix that may be in the file when the process is killed.
`fsync` changes neither file and is left out.
-/
namespace Sql
namespace Storage

open Wire BTree Blocks Effects

/-! ## Files and effects -/

structure Disk where
  database : Option Bytes
  wal : Option Bytes

inductive DiskEffect where
  /-- The log is opened and cut off at zero bytes. -/
  | truncateWal
  /-- The first bytes of a record are in the log. -/
  | writeWal (record : Bytes) (count : Nat)
  /-- The database file is opened, and created if it is missing. -/
  | openDatabase
  | sizeDatabase (size : Nat)
  | writePage (id : Nat) (bytes : Bytes)

def DiskEffect.act : DiskEffect → Disk → Disk
  | truncateWal, disk => { disk with wal := some [] }
  | writeWal record count, disk => { disk with wal := some (record.take count) }
  | openDatabase, disk => { disk with database := some (disk.database.getD []) }
  | sizeDatabase size, disk => { disk with database := disk.database.map (resize size) }
  | writePage id bytes, disk => { disk with database := disk.database.map (writeAt (id * pageSize) bytes) }

instance : Acts DiskEffect Disk := ⟨DiskEffect.act⟩

abbrev Call (α : Type) := Program Disk DiskEffect StorageError α

/-! ## The page buffer -/

/-- An image with the pages to write: complete pages, and no dirty page outside. -/
structure PageBuffer where
  image : Bytes
  dirtyPages : Finset Nat
  nonempty : image ≠ []
  complete : image.length % pageSize = 0
  dirty_lt : ∀ id ∈ dirtyPages, id < image.length / pageSize

/-- The constructor.  An empty dirty set stands for all pages. -/
def PageBuffer.make (image : Bytes) (dirtyPages : Finset Nat) : Except StorageError PageBuffer :=
  if h : image = [] ∨ image.length % pageSize ≠ 0 then
    .error (.invalidArgument "Page buffer requires a non-empty complete page image")
  else if image.length / pageSize > 2 ^ 32 - 1 then .error (.lengthError "Page buffer contains too many pages")
  else
    let dirty := if dirtyPages = ∅ then Finset.range (image.length / pageSize) else dirtyPages
    if hd : ∀ id ∈ dirty, id < image.length / pageSize then
      .ok ⟨image, dirty, fun h' => h (Or.inl h'), Classical.byContradiction (fun h' => h (Or.inr h')), hd⟩
    else .error (.outOfRange "Dirty page is outside the owned image")

theorem PageBuffer.make_inv {image : Bytes} {dirtyPages : Finset Nat} {buffer : PageBuffer}
    (h : PageBuffer.make image dirtyPages = .ok buffer) :
    buffer.image = image ∧ image.length / pageSize ≤ 2 ^ 32 - 1 := by
  unfold PageBuffer.make at h
  split at h
  · cases h
  split at h
  · cases h
  rename_i hle
  simp only at h
  generalize (if dirtyPages = ∅ then Finset.range (image.length / pageSize) else dirtyPages) = dirty at h
  by_cases hd : ∀ id ∈ dirty, id < image.length / pageSize
  · rw [dif_pos hd] at h
    rw [← Except.ok.inj h]
    exact ⟨rfl, Nat.not_lt.1 hle⟩
  · rw [dif_neg hd] at h
    cases h

def PageBuffer.pageData (buffer : PageBuffer) (id : Nat) : Bytes := block pageSize buffer.image id

/-- The dirty pages in ascending order. -/
def PageBuffer.order (buffer : PageBuffer) : List Nat := buffer.dirtyPages.sort (· ≤ ·)

/-- The largest offset of the platform. -/
def offsetMax : Nat := 2 ^ 63 - 1

def applyImage (buffer : PageBuffer) : Call Unit := do
  attempt (throwIf (buffer.image.length > offsetMax)
    (.lengthError "Database image exceeds the platform file-offset range"))
  perform .openDatabase
  perform (.sizeDatabase buffer.image.length)
  performAll (buffer.order.map (fun id => .writePage id (buffer.pageData id)))

end Storage
end Sql
