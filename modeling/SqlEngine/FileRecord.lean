import SqlEngine.Build
/-!
# FileRecord — the fixed-width records of storage format v1

A v1 file is a sequence of 100-byte slots, a value padded with zeros in each.  `FileRecord.read` takes the slots of one
record from a stream; `stoul` is the conversion the field count goes through.
-/
namespace Sql
namespace Storage

open Wire

def slotSize : Nat := 100

/-- A value ends at the first zero byte of its slot. -/
def truncated (slot : Bytes) : Bytes := slot.takeWhile (· ≠ 0)

/-! ## Reading a record -/

/-- The loop over the values of a record; none of them may be cut off. -/
def readValues : Nat → Bytes → Except StorageError (List Bytes)
  | 0, _ => .ok []
  | columns + 1, stream => do
    throwIf ((stream.take slotSize).length ≠ slotSize) (.runtimeError "Record file contains a partial record")
    let values ← readValues columns (stream.drop slotSize)
    pure (truncated (stream.take slotSize) :: values)

/-- Record `recno` of a file of records with `columns` values; `none` when the stream is at its end. -/
def readRecord (columns recno : Nat) (file : Bytes) : Except StorageError (Option (List Bytes)) := do
  throwIf (columns = 0) (.invalidArgument "Record shape and number must be valid")
  let stream := file.drop (recno * slotSize * columns)
  if stream = [] then pure none
  else
    let values ← readValues columns stream
    pure (some values)

theorem readRecord_some {columns recno : Nat} {file : Bytes} {values : List Bytes}
    (h : readRecord columns recno file = .ok (some values)) : 0 < columns ∧ recno * slotSize * columns < file.length := by
  unfold readRecord at h
  obtain ⟨u, hu, h⟩ := except_bind_ok.1 h
  refine ⟨Nat.pos_of_ne_zero (throwIf_ok.1 hu), ?_⟩
  by_cases hs : file.drop (recno * slotSize * columns) = []
  · simp only [hs, if_true] at h
    cases h
  · rw [List.drop_eq_nil_iff, not_le] at hs
    exact hs

/-! ## Numbers -/

def isSpace (b : UInt8) : Bool := b = 32 ∨ 9 ≤ b ∧ b ≤ 13

def isDigit (b : UInt8) : Bool := 48 ≤ b ∧ b ≤ 57

/-- The number a string of digits stands for. -/
def decimal (digits : Bytes) : Nat := digits.foldl (fun n b => 10 * n + (b.toNat - 48)) 0

/-- `std::stoul` of the platform: blanks, a sign, digits.  The value and the number of bytes read, or none when it throws;
a minus sign negates modulo 2⁶⁴. -/
def stoul (text : Bytes) : Option (Nat × Nat) :=
  let blanks := text.takeWhile isSpace
  let signed := text.drop blanks.length
  let sign := signed.takeWhile (fun b => b = 43 ∨ b = 45) |>.take 1
  let digits := (signed.drop sign.length).takeWhile isDigit
  if digits = [] ∨ 2 ^ 64 ≤ decimal digits then none
  else some (if sign = [45] then (2 ^ 64 - decimal digits) % 2 ^ 64 else decimal digits,
    blanks.length + sign.length + digits.length)

end Storage
end Sql
