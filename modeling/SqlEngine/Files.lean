import Mathlib.Logic.Function.Basic
import SqlEngine.Recovery
/-!
# Files — the files of a directory, by path

All files a call may touch.  The two files of a v2 table are a `Disk` inside them, and a call on that disk is a call on
the files (`onDisk`) that leaves every other path alone (`after_onDisk_other`).
-/
namespace Sql
namespace Storage

open Wire Effects

/-- The content of the regular file at each path. -/
abbrev Files := String → Option Bytes

inductive FileEffect where
  /-- An effect on a database file or its log. -/
  | disk (path : String) (effect : DiskEffect)
  | create (path : String)
  | remove (path : String)
  | link (source destination : String)

/-- The two files of a v2 table. -/
def diskAt (files : Files) (path : String) : Disk := ⟨files path, files (walPath path)⟩

def withDisk (files : Files) (path : String) (disk : Disk) : Files :=
  Function.update (Function.update files path disk.database) (walPath path) disk.wal

def FileEffect.act : FileEffect → Files → Files
  | disk path effect, files => withDisk files path (effect.act (diskAt files path))
  | create path, files => Function.update files path (some [])
  | remove path, files => Function.update files path none
  | link source destination, files => Function.update files destination (files source)

instance : Acts FileEffect Files := ⟨FileEffect.act⟩

abbrev FileCall (α : Type) := Program Files FileEffect StorageError α

/-- A call on the files of one table. -/
def onDisk {α : Type} (path : String) (call : Call α) : FileCall α := fun files =>
  ⟨(call (diskAt files path)).effects.map (.disk path), (call (diskAt files path)).result⟩

theorem walPath_ne (path : String) : walPath path ≠ path := fun h => by
  have := congrArg String.length h
  simp [walPath] at this

@[simp] theorem diskAt_withDisk (files : Files) (path : String) (disk : Disk) :
    diskAt (withDisk files path disk) path = disk := by
  simp [diskAt, withDisk, Function.update_of_ne (walPath_ne path).symm]

theorem withDisk_other {files : Files} {path other : String} (disk : Disk) (h : other ≠ path) (hw : other ≠ walPath path) :
    withDisk files path disk other = files other := by
  simp [withDisk, Function.update_of_ne h, Function.update_of_ne hw]

/-- The disk behind effects on it. -/
theorem diskAt_after (path : String) : ∀ (es : List DiskEffect) (files : Files),
    diskAt (after files (es.map (FileEffect.disk path))) path = after (diskAt files path) es
  | [], _ => rfl
  | e :: es, files => by
    rw [List.map_cons, after_cons, diskAt_after path es, after_cons]
    exact congrArg (fun disk => after disk es) (diskAt_withDisk files path _)

/-- The other files behind effects on a disk. -/
theorem after_onDisk_other {path other : String} (h : other ≠ path) (hw : other ≠ walPath path) :
    ∀ (es : List DiskEffect) (files : Files), after files (es.map (FileEffect.disk path)) other = files other
  | [], _ => rfl
  | e :: es, files => by
    rw [List.map_cons, after_cons, after_onDisk_other h hw es]
    exact withDisk_other _ h hw

end Storage
end Sql
