import Mathlib.Data.List.Sort
import Mathlib.Logic.Function.Basic
/-!
# BPlusTree — the in-memory B+ tree, as `bplustree.h` has it

A node owns its items and its subtrees, and has an address.  The links between leaves are the one part that is not owned:
they live in `Memory`, by address, together with the address of the next `new`.  Items are compared by a key; an item type
with an order of its own is its own key.
-/
namespace Sql
namespace BPlus

structure BPlusTree (α : Type) where
  id : Nat
  data : List α
  subset : List (BPlusTree α)

structure Memory where
  fresh : Nat
  next : Nat → Option Nat

/-- `new BPlusTree()`: an address whose link is null. -/
def Memory.new (m : Memory) : Nat × Memory := (m.fresh, ⟨m.fresh + 1, Function.update m.next m.fresh none⟩)

def Memory.setNext (m : Memory) (id : Nat) (target : Option Nat) : Memory :=
  { m with next := Function.update m.next id target }

def minimum : Nat := 1
def maximum : Nat := 2 * minimum

/-! ## Arrays -/

section Arrays
variable {α β K : Type} [LinearOrder K] (key : α → K)

/-- The first index whose item is not less than the entry. -/
def firstGe : List α → α → Nat
  | [], _ => 0
  | x :: data, entry => if ¬ key x < key entry then 0 else firstGe data entry + 1

/-- `i < data_count && !(entry < data[i])`. -/
def foundAt (data : List α) (i : Nat) (entry : α) : Bool :=
  match data[i]? with
  | none => false
  | some x => ¬ key entry < key x

def insertItem (data : List β) (i : Nat) (entry : β) : List β := data.take i ++ entry :: data.drop i

def orderedInsert (data : List α) (entry : α) : List α := insertItem data (firstGe key data entry) entry

def attachItem (data : List β) (entry : β) : List β := data ++ [entry]

/-- The item at an index, and the array without it. -/
def deleteItem [Inhabited β] (data : List β) (i : Nat) : β × List β := (data.getD i default, data.eraseIdx i)

def detachItem [Inhabited β] (data : List β) : β × List β := (data.getLastD default, data.dropLast)

/-- Half of the items, rounded down, move to the second array. -/
def split (data : List β) : List β × List β :=
  (data.take (data.length - data.length / 2), data.drop (data.length - data.length / 2))

end Arrays

namespace BPlusTree
variable {α K : Type} [Inhabited α] [LinearOrder K] (key : α → K)

instance : Inhabited (BPlusTree α) := ⟨⟨0, [], []⟩⟩

def isLeaf (t : BPlusTree α) : Prop := t.subset = []

instance (t : BPlusTree α) : Decidable t.isLeaf := inferInstanceAs (Decidable (t.subset = []))

def child (t : BPlusTree α) (i : Nat) : BPlusTree α := t.subset.getD i default

def setChild (t : BPlusTree α) (i : Nat) (c : BPlusTree α) : BPlusTree α := { t with subset := t.subset.set i c }

def getSmallestNode : BPlusTree α → BPlusTree α
  | ⟨id, data, []⟩ => ⟨id, data, []⟩
  | ⟨_, _, first :: _⟩ => getSmallestNode first

def getSmall : BPlusTree α → α
  | ⟨_, data, []⟩ => data.headD default
  | ⟨_, _, first :: _⟩ => getSmall first

/-! ## Lookup -/

def contains (t : BPlusTree α) (entry : α) : Bool :=
  let index := firstGe key t.data entry
  let found := foundAt key t.data index entry
  if t.isLeaf then found
  else
    match _h : t.subset[if found then index + 1 else index]? with
    | none => false  -- not reached
    | some child => contains child entry
termination_by t
decreasing_by
  have hlt := List.sizeOf_lt_of_mem (List.mem_of_getElem? _h)
  cases t
  simp only [BPlusTree.mk.sizeOf_spec] at hlt ⊢
  omega

/-- An item of a node in memory; null is the end. -/
structure Iterator where
  it : Option Nat
  keyPtr : Nat
  deriving DecidableEq

def Iterator.end : Iterator := ⟨none, 0⟩

def find (t : BPlusTree α) (entry : α) : Iterator :=
  let index := firstGe key t.data entry
  let found := foundAt key t.data index entry
  if t.isLeaf then if found then ⟨some t.id, index⟩ else Iterator.end
  else
    match _h : t.subset[if found then index + 1 else index]? with
    | none => Iterator.end  -- not reached
    | some child => find child entry
termination_by t
decreasing_by
  have hlt := List.sizeOf_lt_of_mem (List.mem_of_getElem? _h)
  cases t
  simp only [BPlusTree.mk.sizeOf_spec] at hlt ⊢
  omega

/-! ## Insert -/

/-- Split child `i`, which has one item too many. -/
def fixExcess (i : Nat) (t : BPlusTree α) (m : Memory) : BPlusTree α × Memory :=
  let sb := t.child i
  let (spId, m) := m.new
  let (sbData, spData) := split sb.data
  let (sbSubset, spSubset) := split sb.subset
  let (newThing, sbData) := detachItem sbData
  let data := orderedInsert key t.data newThing
  let (spData, m) :=
    if sbSubset = [] then
      (orderedInsert key spData newThing, (m.setNext spId (m.next sb.id)).setNext sb.id (some spId))
    else (spData, m)
  let subset := t.subset.set i ⟨sb.id, sbData, sbSubset⟩
  (⟨t.id, data, insertItem subset (i + 1) ⟨spId, spData, spSubset⟩⟩, m)

def looseInsert (t : BPlusTree α) (entry : α) (m : Memory) : Bool × BPlusTree α × Memory :=
  let ge := firstGe key t.data entry
  let found := foundAt key t.data ge entry
  if t.isLeaf then
    if found then (false, t, m) else (true, { t with data := insertItem t.data ge entry }, m)
  else
    let i := if found then ge + 1 else ge
    match _h : t.subset[i]? with
    | none => (false, t, m)  -- not reached
    | some child =>
      let (ans, child, m) := looseInsert child entry m
      if child.data.length > maximum then (ans, fixExcess key i (t.setChild i child) m) else (ans, t.setChild i child, m)
termination_by t
decreasing_by
  have hlt := List.sizeOf_lt_of_mem (List.mem_of_getElem? _h)
  cases t
  simp only [BPlusTree.mk.sizeOf_spec] at hlt ⊢
  omega

/-- A root with one item too many is copied to a child of its own and split there. -/
def insert (t : BPlusTree α) (entry : α) (m : Memory) : Bool × BPlusTree α × Memory :=
  let (ans, t, m) := looseInsert key t entry m
  if ans = false then (false, t, m)
  else if t.data.length > maximum then
    let (id, m) := m.new
    (true, fixExcess key 0 ⟨t.id, [], [⟨id, t.data, t.subset⟩]⟩ m)
  else (true, t, m)

/-! ## Erase -/

def transferFromLeft (i : Nat) (t : BPlusTree α) : BPlusTree α :=
  let left := t.child (i - 1)
  let right := t.child i
  if left.isLeaf then
    let (item, leftData) := detachItem left.data
    let subset := t.subset.set (i - 1) { left with data := leftData }
    ⟨t.id, t.data.set (i - 1) item, subset.set i { right with data := insertItem right.data 0 item }⟩
  else
    let (item, data) := deleteItem t.data (i - 1)
    let rightData := orderedInsert key right.data item
    let (item, leftData) := detachItem left.data
    let (node, leftSubset) := detachItem left.subset
    let subset := t.subset.set (i - 1) ⟨left.id, leftData, leftSubset⟩
    ⟨t.id, orderedInsert key data item, subset.set i ⟨right.id, rightData, insertItem right.subset 0 node⟩⟩

def transferFromRight (i : Nat) (t : BPlusTree α) : BPlusTree α :=
  let left := t.child i
  let right := t.child (i + 1)
  if right.isLeaf then
    let (entry, rightData) := deleteItem right.data 0
    let subset := t.subset.set i { left with data := attachItem left.data entry }
    ⟨t.id, t.data.set i (rightData.headD default), subset.set (i + 1) { right with data := rightData }⟩
  else
    let (item, data) := deleteItem t.data i
    let leftData := orderedInsert key left.data item
    let (item, rightData) := deleteItem right.data 0
    let (node, rightSubset) := deleteItem right.subset 0
    let subset := t.subset.set i ⟨left.id, leftData, attachItem left.subset node⟩
    ⟨t.id, orderedInsert key data item, subset.set (i + 1) ⟨right.id, rightData, rightSubset⟩⟩

def mergeWithNextSubset (i : Nat) (t : BPlusTree α) (m : Memory) : BPlusTree α × Memory :=
  let left := t.child i
  let right := t.child (i + 1)
  let (item, data) := deleteItem t.data i
  let leftData := if left.isLeaf then left.data else attachItem left.data item
  let merged : BPlusTree α := ⟨left.id, leftData ++ right.data, left.subset ++ right.subset⟩
  let m := if merged.isLeaf then m.setNext left.id (m.next right.id) else m
  ({ t with data := data, subset := (t.subset.set i merged).eraseIdx (i + 1) }, m)

/-- Repair child `i`, which has lost its last item; the third component is the index of the repaired subset. -/
def fixShortage (i : Nat) (t : BPlusTree α) (m : Memory) : BPlusTree α × Memory × Nat :=
  if i > 0 ∧ (t.child (i - 1)).data.length > minimum then (transferFromLeft key i t, m, i)
  else if i + 1 < t.subset.length ∧ (t.child (i + 1)).data.length > minimum then (transferFromRight key i t, m, i)
  else if i > 0 ∧ (t.child (i - 1)).data.length ≤ minimum then
    let (t, m) := mergeWithNextSubset (i - 1) t m
    (t, m, i - 1)
  else if i + 1 < t.subset.length ∧ (t.child (i + 1)).data.length ≤ minimum then
    let (t, m) := mergeWithNextSubset i t m
    (t, m, i)
  else (t, m, i)

/-- `idx < count - 1` on unsigned numbers. -/
def belowLast (idx count : Nat) : Prop := idx + 1 < count ∨ count = 0

instance (idx count : Nat) : Decidable (belowLast idx count) := inferInstanceAs (Decidable (_ ∨ _))

/-- `subset[i + 1]->get_small(data[i])`. -/
def replaceData (i : Nat) (t : BPlusTree α) : BPlusTree α := { t with data := t.data.set i (t.child (i + 1)).getSmall }

/-- The end of `loose_erase` when the entry was an item of an internal node: the item is replaced wherever it is now. -/
def replaceErased (ge : Nat) (entry : α) (fixed : Option Nat) (t : BPlusTree α) : BPlusTree α :=
  let unfixed := if ge < t.data.length ∧ (t.child (ge + 1)).data.length ≥ minimum then replaceData ge t else t
  match fixed with
  | none => unfixed
  | some f =>
    let dataIdx := firstGe key t.data entry
    let subsetIdx := firstGe key (t.child f).data entry
    if belowLast dataIdx t.subset.length ∧ foundAt key t.data dataIdx entry then replaceData dataIdx t
    else if belowLast subsetIdx (t.child f).subset.length ∧ foundAt key (t.child f).data subsetIdx entry then
      t.setChild f (replaceData subsetIdx (t.child f))
    else unfixed

def looseErase (t : BPlusTree α) (entry : α) (m : Memory) : Bool × BPlusTree α × Memory :=
  let ge := firstGe key t.data entry
  let found := foundAt key t.data ge entry
  if t.isLeaf then
    if found then (true, { t with data := (deleteItem t.data ge).2 }, m) else (false, t, m)
  else
    let i := if found then ge + 1 else ge
    match _h : t.subset[i]? with
    | none => (false, t, m)  -- not reached
    | some child =>
      let (ans, child, m) := looseErase child entry m
      let t := t.setChild i child
      if child.data.length < minimum then
        let (t, m, fixed) := fixShortage key i t m
        (ans, if found then replaceErased key ge entry (some fixed) t else t, m)
      else (ans, if found then replaceErased key ge entry none t else t, m)
termination_by t
decreasing_by
  have hlt := List.sizeOf_lt_of_mem (List.mem_of_getElem? _h)
  cases t
  simp only [BPlusTree.mk.sizeOf_spec] at hlt ⊢
  omega

/-- A root without items takes the place of its only child. -/
def erase (t : BPlusTree α) (entry : α) (m : Memory) : Bool × BPlusTree α × Memory :=
  let (ans, t, m) := looseErase key t entry m
  if ans = false then (false, t, m)
  else if t.data.length < minimum ∧ t.subset.length > 0 then
    (true, ⟨t.id, (t.child 0).data, (t.child 0).subset⟩, m)
  else (true, t, m)

/-! ## Clear and copy -/

/-- The subtrees are deleted. -/
def clearTree (t : BPlusTree α) (m : Memory) : BPlusTree α × Memory := (⟨t.id, [], []⟩, m.setNext t.id none)

mutual
/-- Copy a tree to the node at `id`; `last` is the last leaf that was copied. -/
def copyTree : BPlusTree α → Nat → Option Nat → Memory → BPlusTree α × Option Nat × Memory
  | ⟨_, data, subset⟩, id, last, m =>
    let (copies, last, m) := copySubset subset last (m.setNext id none)
    if subset = [] then
      (⟨id, data, copies⟩, some id, match last with
        | none => m
        | some last => m.setNext last (some id))
    else (⟨id, data, copies⟩, last, m)
def copySubset : List (BPlusTree α) → Option Nat → Memory → List (BPlusTree α) × Option Nat × Memory
  | [], last, m => ([], last, m)
  | source :: sources, last, m =>
    let (id, m) := m.new
    let (copy, last, m) := copyTree source id last m
    let (copies, last, m) := copySubset sources last m
    (copy :: copies, last, m)
end

end BPlusTree
end BPlus
end Sql
