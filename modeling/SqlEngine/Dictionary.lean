import SqlEngine.Cursor
import SqlEngine.MultiMap
import SqlEngine.OrderedMap
import SqlEngine.Simulation
/-!
# Dictionary — the B+ trees of pairs are ordered maps

`Map` and `MMap` keep their pairs in a B+ tree.  A tree holds an ordered map when its leaves show the items of the map
(`HoldsMap`).  Every operation keeps that, in lockstep with the operations of the map; and then the queries, the iterators
and the sizes are the map's (`Mapped`).
-/
namespace Sql
namespace BPlus

open BPlusTree Simulation

/-! ## Pairs as items -/

section Lists
variable {α K W : Type} [LinearOrder K] {key : α → K} {value : α → W}

theorem insertSorted_items (entry : α) : ∀ items : List α, (insertSorted key entry items).map (fun x => (key x, value x)) =
    Maps.alterItems (key entry) (fun old => old.getD (value entry)) (items.map (fun x => (key x, value x)))
  | [] => rfl
  | x :: items => by
    rw [insertSorted, List.map_cons, Maps.alterItems]
    by_cases h1 : key entry < key x
    · rw [if_pos h1, if_pos h1]
      rfl
    · rw [if_neg h1, if_neg h1]
      by_cases h2 : key x < key entry
      · rw [if_pos h2, if_pos h2, List.map_cons, insertSorted_items entry items]
      · rw [if_neg h2, if_neg h2]
        rfl

theorem eraseSorted_items (k : K) (items : List α) : (eraseSorted key k items).map (fun x => (key x, value x)) =
    (items.map (fun x => (key x, value x))).filter (fun item => decide (item.1 ≠ k)) := by
  rw [eraseSorted, List.filter_map]
  rfl

/-- A change of the value of a key that is there. -/
theorem changeAt_items {k : K} {change : α → α} {g : Option W → W} (hkey : ∀ x, key (change x) = key x)
    (hvalue : ∀ x, value (change x) = g (some (value x))) : ∀ {items : List α}, Sorted key items → Holds key k items →
      (changeAt key k change items).map (fun x => (key x, value x)) =
        Maps.alterItems k g (items.map (fun x => (key x, value x)))
  | [], _, ⟨_, hx, _⟩ => absurd hx List.not_mem_nil
  | x :: items, hs, ⟨y, hy, hyk⟩ => by
    obtain ⟨hx, hitems⟩ := List.pairwise_cons.1 hs
    rw [changeAt, List.map_cons, List.map_cons, List.map_cons, Maps.alterItems]
    rcases List.mem_cons.1 hy with rfl | hy
    · rw [if_pos hyk, if_neg hyk.not_gt, if_neg hyk.not_lt, hkey, hvalue]
      have hrest := @changeAt_of_ne _ _ _ key k change items (fun z hz => (hyk ▸ hx z hz).ne')
      rw [changeAt] at hrest
      rw [hrest]
    · have hlt : key x < k := hyk ▸ hx y hy
      rw [if_neg hlt.ne, if_neg hlt.not_gt, if_pos hlt, ← changeAt_items hkey hvalue hitems ⟨y, hy, hyk⟩]
      rfl

theorem find?_items (k : K) (items : List α) : (items.find? (fun x => decide (key x = k))).map value =
    Maps.lookupItems k (items.map (fun x => (key x, value x))) := by
  rw [Maps.lookupItems, List.find?_map, Option.map_map]
  rfl

theorem holds_items {k : K} {items : List α} : Holds key k items ↔
    (Maps.lookupItems k (items.map (fun x => (key x, value x)))).isSome = true := by
  rw [← find?_items, Option.isSome_map, List.find?_isSome]
  simp [Holds]

end Lists

/-! ## What a tree holds -/

section Trees
variable {α K W : Type} [LinearOrder K] (key : α → K) (value : α → W)

/-- The leaves show the items of the map. -/
def HoldsMap (t : BPlusTree α) (m : Maps.OrderedMap K W) : Prop := t.items.map (fun x => (key x, value x)) = m.items

/-- What an operation on a tree that holds a map leaves. -/
structure Becomes (memory : Memory) (t : BPlusTree α) (memory' : Memory) (t' : BPlusTree α)
    (m' : Maps.OrderedMap K W) : Prop where
  rooted : Rooted key memory' t'
  kept : Kept memory memory' t.ids t'.ids
  holds : HoldsMap key value t' m'

variable {key value} {memory memory' : Memory} {t t' : BPlusTree α} {m : Maps.OrderedMap K W}

theorem HoldsMap.holds_iff (h : HoldsMap key value t m) (k : K) : Holds key k t.items ↔ m.contains k = true := by
  rw [@holds_items _ _ _ _ key value, h]
  rfl

theorem HoldsMap.contains (h : HoldsMap key value t m) (hroot : Rooted key memory t) (entry : α) :
    t.contains key entry = m.contains (key entry) := by
  obtain ⟨n, hgood⟩ := hroot.shape
  exact Bool.eq_iff_iff.2 ((contains_iff entry n t hgood hroot.sorted).trans (h.holds_iff (key entry)))

theorem HoldsMap.getItem (h : HoldsMap key value t m) (hroot : Rooted key memory t) (entry : α) :
    (t.getItem key entry).map value = m.lookup (key entry) := by
  obtain ⟨n, hgood⟩ := hroot.shape
  rw [getItem_spec entry n t hgood hroot.sorted, find?_items, h]
  rfl

/-- A change of a value through a reference. -/
theorem HoldsMap.change (h : HoldsMap key value t m) (hroot : Rooted key memory t) {entry : α} (change : α → α)
    (g : Option W → W) (hkey : ∀ x, key (change x) = key x) (hvalue : ∀ x, value (change x) = g (some (value x)))
    (hpresent : m.contains (key entry) = true) :
    Becomes key value memory t memory (t.changeItem key entry change) (m.alter (key entry) g) := by
  obtain ⟨hroot', hkept, hitems⟩ := change_spec hroot hkey entry
  refine ⟨hroot', hkept, ?_⟩
  rw [HoldsMap, hitems, changeAt_items hkey hvalue hroot.sorted ((h.holds_iff _).2 hpresent), h]
  rfl

variable [Inhabited α]

/-- An insertion leaves the value of a key that is there. -/
theorem HoldsMap.insert (h : HoldsMap key value t m) (hroot : Rooted key memory t) (entry : α) :
    Becomes key value memory t (t.insert key entry memory).2.2 (t.insert key entry memory).2.1
      (m.alter (key entry) (fun old => old.getD (value entry))) := by
  rcases hins : t.insert key entry memory with ⟨ans, t', memory'⟩
  obtain ⟨hroot', hkept, hitems, -⟩ := insert_spec hroot entry hins
  refine ⟨hroot', hkept, ?_⟩
  rw [HoldsMap, hitems, insertSorted_items, h]
  rfl

theorem HoldsMap.erase (h : HoldsMap key value t m) (hroot : Rooted key memory t) (entry : α) :
    Becomes key value memory t (t.erase key entry memory).2.2 (t.erase key entry memory).2.1 (m.erase (key entry)) := by
  rcases herase : t.erase key entry memory with ⟨ans, t', memory'⟩
  obtain ⟨hroot', hkept, hitems, -⟩ := erase_spec hroot entry herase
  refine ⟨hroot', hkept, ?_⟩
  rw [HoldsMap, hitems, eraseSorted_items, h]
  rfl

/-- **What a reference reads, and what it leaves**: a missing key is there afterwards. -/
theorem HoldsMap.get (h : HoldsMap key value t m) (hroot : Rooted key memory t) (entry : α) :
    ((t.get key entry memory).1.map value = some ((m.lookup (key entry)).getD (value entry))) ∧
    Becomes key value memory t (t.get key entry memory).2.2 (t.get key entry memory).2.1
      (m.alter (key entry) (fun old => old.getD (value entry))) := by
  rw [BPlusTree.get, h.contains hroot entry]
  cases hlookup : m.lookup (key entry) with
  | some v =>
    rw [if_pos (by rw [Maps.OrderedMap.contains, hlookup]; rfl)]
    refine ⟨(h.getItem hroot entry).trans hlookup, hroot, ⟨le_refl _, fun j hj => Or.inl hj, fun _ _ _ => rfl⟩, ?_⟩
    exact Eq.trans h (Maps.alterItems_self (f := fun old => old.getD (value entry)) rfl m.ascending hlookup).symm
  | none =>
    rw [if_neg (by rw [Maps.OrderedMap.contains, hlookup]; exact Bool.false_ne_true)]
    have hbecomes := h.insert hroot entry
    refine ⟨(hbecomes.holds.getItem hbecomes.rooted entry).trans ?_, hbecomes⟩
    rw [Maps.OrderedMap.lookup_alter, if_pos rfl, hlookup]

omit [Inhabited α] in
theorem HoldsMap.clear (hroot : Rooted key memory t) :
    Becomes key value memory t (t.clearTree memory).2 (t.clearTree memory).1 (.empty : Maps.OrderedMap K W) := by
  obtain ⟨hroot', hkept⟩ := clear_spec hroot
  exact ⟨hroot', hkept, congrArg (List.map _) (items_nil t.id [])⟩

end Trees
/-! ## Operations on one of many -/

/-- An operation on the tree with this number. -/
def Forest.onTree {α A : Type} (f : Forest α) (i : Nat) (op : BPlusTree α → Memory → Option (A × BPlusTree α × Memory)) :
    Option (A × Forest α) := do
  let t ← f.trees[i]?
  let (ans, t, m) ← op t f.memory
  pure (ans, ⟨m, f.trees.set i t⟩)

/-- The same on a map. -/
def onMap {M A : Type} (maps : List M) (i : Nat) (op : M → Option (A × M)) : Option (A × List M) := do
  let m ← maps[i]?
  let (ans, m) ← op m
  pure (ans, maps.set i m)

section Forests
variable {α K W A : Type} [LinearOrder K] {key : α → K} {value : α → W} {f : Forest α} {maps : List (Maps.OrderedMap K W)}

/-- **An operation on a tree and its map.** -/
theorem stands_onTree (h : f.Stands key (HoldsMap key value) maps) (i : Nat)
    (op : BPlusTree α → Memory → Option (A × BPlusTree α × Memory))
    (op' : Maps.OrderedMap K W → Option (A × Maps.OrderedMap K W))
    (hop : ∀ t m, Rooted key f.memory t → HoldsMap key value t m →
      Paired (fun tree m' => Becomes key value f.memory t tree.2 tree.1 m') (op t f.memory) (op' m)) :
    Paired (Forest.Stands key (HoldsMap key value)) (f.onTree i op) (onMap maps i op') := by
  unfold Forest.onTree onMap
  cases ht : f.trees[i]? with
  | none =>
    rw [h.none ht]
    exact .none
  | some t =>
    obtain ⟨m, hm, hroot, hholds⟩ := h.get ht
    rw [hm]
    exact (hop t m hroot hholds).bind (fun ans tree m' hbecomes =>
      .answered ans (h.set ht hbecomes.rooted hbecomes.holds hbecomes.kept))

theorem HoldsMap.items {t t' : BPlusTree α} {m : Maps.OrderedMap K W} (heq : t'.items = t.items)
    (h : HoldsMap key value t m) :
    HoldsMap key value t' m := by
  rw [HoldsMap, heq]
  exact h

theorem stands_construct (h : f.Stands key (HoldsMap key value) maps) (ans : A) :
    Paired (Forest.Stands key (HoldsMap key value)) (some (ans, f.construct)) (some (ans, maps ++ [.empty])) :=
  .answered ans (h.construct (congrArg (List.map _) (items_nil _ [])))

theorem stands_copy (h : f.Stands key (HoldsMap key value) maps) (source : Nat) (ans : A) :
    Paired (Forest.Stands key (HoldsMap key value)) (do let f ← f.copy source; pure (ans, f))
      (do let m ← maps[source]?; pure (ans, maps ++ [m])) := by
  cases hcopy : f.copy source with
  | none =>
    rw [h.copy_none hcopy]
    exact .none
  | some f' =>
    obtain ⟨m, hm, hstands⟩ := h.copy (fun heq hholds => hholds.items heq) hcopy
    rw [hm]
    exact .answered ans hstands

theorem stands_assign (h : f.Stands key (HoldsMap key value) maps) (i source : Nat) (ans : A) :
    Paired (Forest.Stands key (HoldsMap key value)) (do let f ← f.assign i source; pure (ans, f))
      (do let _ ← maps[i]?; let m ← maps[source]?; pure (ans, maps.set i m)) := by
  cases hassign : f.assign i source with
  | none =>
    rcases h.assign_none hassign with hnone | hnone
    · rw [hnone]
      exact .none
    · rw [hnone]
      cases maps[i]? with
      | none => exact .none
      | some _ => exact .none
  | some f' =>
    obtain ⟨m, m', hm, hm', hstands⟩ := h.assign (fun heq hholds => hholds.items heq) hassign
    rw [hm, hm']
    exact .answered ans hstands

end Forests

/-! ## `MMap` -/

namespace Multimaps
variable {K V : Type} [LinearOrder K]

/-- What the operations are on the multimaps of the library. -/
def step (maps : List (Maps.MMap K V)) : MapOp K V → Option (Option (List V) × List (Maps.MMap K V))
  | .create => some (none, maps ++ [.empty])
  | .insert i k v => onMap maps i (fun m => some (none, m.insert k v))
  | .insertKey i k => onMap maps i (fun m => if m.contains k then none else some (none, m.insertKey k))
  | .read i k => onMap maps i (fun m => some (some (m.get k), m.touch k))
  | .erase i k => onMap maps i (fun m => some (none, m.erase k))
  | .copy source => do
    let m ← maps[source]?
    pure (none, maps ++ [m])
  | .assign i source => do
    let _ ← maps[i]?
    let m ← maps[source]?
    pure (none, maps.set i m)

end Multimaps

section Multimaps
variable {K V : Type} [Inhabited K] [LinearOrder K]

theorem mmap_run (f : Forest (MPair K V)) : ∀ ops : List (MapOp K V), MMap.run f ops = runSteps MMap.step f ops := by
  intro ops
  induction ops generalizing f with
  | nil => rfl
  | cons op ops ih =>
    rw [MMap.run, runSteps]
    simp only [ih]

variable {memory : Memory} {t : BPlusTree (MPair K V)} {m : Maps.MMap K V}

theorem mmap_insert (hholds : HoldsMap MPair.key MPair.valueList t m) (hroot : Rooted MPair.key memory t) (k : K) (v : V) :
    Becomes MPair.key MPair.valueList memory t (MMap.insert t k v memory).2 (MMap.insert t k v memory).1 (m.insert k v) := by
  have hcontains : t.contains MPair.key (MMap.probe k) = m.contains k := hholds.contains hroot (MMap.probe k)
  rw [MMap.insert, MMap.contains, hcontains]
  by_cases hpresent : m.contains k = true
  · have hget : t.get MPair.key (MMap.probe k) memory = (t.getItem MPair.key (MMap.probe k), t, memory) := by
      rw [BPlusTree.get, hcontains, if_pos hpresent]
    have hchange := @HoldsMap.change _ _ _ _ _ _ _ _ _ hholds hroot (MMap.probe k)
      (fun p => { p with valueList := p.valueList ++ [v] }) (fun values => values.getD [] ++ [v])
        (fun _ => rfl) (fun _ => rfl)
      hpresent
    rw [if_pos hpresent, hget, Maps.MMap.insert, if_pos hpresent]
    exact hchange
  · have hinsert := hholds.insert hroot ⟨k, [v]⟩
    rw [Maps.OrderedMap.alter_absent hpresent] at hinsert
    rw [if_neg hpresent, Maps.MMap.insert, if_neg hpresent]
    exact hinsert

/-- **`MMap` and the multimap of the library are in lockstep.** -/
theorem mmap_lockstep : Lockstep (Forest.Stands MPair.key (HoldsMap MPair.key MPair.valueList))
    (MMap.step : Forest (MPair K V) → _) Multimaps.step := by
  intro f maps op h
  cases op with
  | create => exact stands_construct h none
  | insert i k v =>
    exact stands_onTree h i (fun t memory => some (none, MMap.insert t k v memory)) _
      (fun t m hroot hholds => .answered none (mmap_insert hholds hroot k v))
  | insertKey i k =>
    have hstep : MMap.step f (.insertKey i k) =
        f.onTree i (fun t memory => (MMap.insertKey t k memory).map (fun r => (none, r))) := by
      simp only [MMap.step, Forest.onTree, Option.bind_eq_bind]
      cases f.trees[i]? with
      | none => rfl
      | some t =>
        simp only [Option.bind_some]
        cases MMap.insertKey t k f.memory <;> rfl
    rw [hstep]
    refine stands_onTree h i _ _ (fun t m hroot hholds => ?_)
    have hcontains : MMap.contains t k = m.contains k := hholds.contains hroot (MMap.probe k)
    rw [MMap.insertKey, hcontains]
    by_cases hpresent : m.contains k = true
    · rw [if_pos hpresent, if_pos hpresent]
      exact .none
    · rw [if_neg hpresent, if_neg hpresent]
      have hinsert := hholds.insert hroot (MMap.probe k)
      rw [show (MMap.probe k : MPair K V).key = k from rfl, Maps.OrderedMap.alter_absent hpresent] at hinsert
      exact .answered none hinsert
  | read i k =>
    refine stands_onTree h i (fun t memory => some (MMap.read t k memory)) _ (fun t m hroot hholds => ?_)
    obtain ⟨hvalue, hbecomes⟩ := hholds.get hroot (MMap.probe k)
    exact .some ⟨hvalue, hbecomes⟩
  | erase i k =>
    exact stands_onTree h i (fun t memory => some (none, MMap.erase t k memory)) _
      (fun t m hroot hholds => .answered none (hholds.erase hroot (MMap.probe k)))
  | copy source => exact stands_copy h source none
  | assign i source => exact stands_assign h i source none

end Multimaps

/-! ## `Map` -/

structure Pair (K V : Type) where
  key : K
  value : V
  deriving Inhabited

inductive PairOp (K V : Type)
  | create
  | insert (i : Nat) (k : K) (v : V)
  | get (i : Nat) (k : K)
  /-- `at` of a constant map. -/
  | constGet (i : Nat) (k : K)
  /-- `m[k] = v`. -/
  | put (i : Nat) (k : K) (v : V)
  | erase (i : Nat) (k : K)
  | clear (i : Nat)
  | copy (source : Nat)
  | assign (i source : Nat)

namespace Map
variable {K V : Type} [Inhabited K] [Inhabited V] [LinearOrder K]

/-- `Pair(k)`. -/
def probe (k : K) : Pair K V := ⟨k, default⟩

def contains (t : BPlusTree (Pair K V)) (target : Pair K V) : Bool := t.contains Pair.key target

/-- `at` of a constant map; `none` is the exception. -/
def atKey (t : BPlusTree (Pair K V)) (k : K) : Option V := (t.getItem Pair.key (probe k)).map Pair.value

/-- `at`, `operator[]` and `get`. -/
def get (t : BPlusTree (Pair K V)) (k : K) (m : Memory) : Option V × BPlusTree (Pair K V) × Memory :=
  let (item, t, m) := t.get Pair.key (probe k) m
  (item.map Pair.value, t, m)

def put (t : BPlusTree (Pair K V)) (k : K) (v : V) (m : Memory) : BPlusTree (Pair K V) × Memory :=
  let (_, t, m) := t.get Pair.key (probe k) m
  (t.changeItem Pair.key (probe k) (fun p => { p with value := v }), m)

def insert (t : BPlusTree (Pair K V)) (k : K) (v : V) (m : Memory) : BPlusTree (Pair K V) × Memory :=
  (t.insert Pair.key ⟨k, v⟩ m).2

def erase (t : BPlusTree (Pair K V)) (k : K) (m : Memory) : BPlusTree (Pair K V) × Memory :=
  (t.erase Pair.key (probe k) m).2

/-- One operation on the maps, and the value it reads. -/
def step (f : Forest (Pair K V)) : PairOp K V → Option (Option V × Forest (Pair K V))
  | .create => some (none, f.construct)
  | .insert i k v => f.onTree i (fun t m => some (none, insert t k v m))
  | .get i k => f.onTree i (fun t m => some (get t k m))
  | .constGet i k => f.onTree i (fun t m => some (atKey t k, t, m))
  | .put i k v => f.onTree i (fun t m => some (none, put t k v m))
  | .erase i k => f.onTree i (fun t m => some (none, erase t k m))
  | .clear i => f.onTree i (fun t m => some (none, t.clearTree m))
  | .copy source => do
    let f ← f.copy source
    pure (none, f)
  | .assign i source => do
    let f ← f.assign i source
    pure (none, f)

end Map

namespace Dictionaries
variable {K V : Type} [Inhabited V] [LinearOrder K]

/-- What the operations are on ordered maps: an insertion does not overwrite, and a read of a missing key brings it. -/
def step (maps : List (Maps.OrderedMap K V)) : PairOp K V → Option (Option V × List (Maps.OrderedMap K V))
  | .create => some (none, maps ++ [.empty])
  | .insert i k v => onMap maps i (fun m => some (none, m.alter k (fun old => old.getD v)))
  | .get i k => onMap maps i (fun m => some (some ((m.lookup k).getD default), m.alter k (fun old => old.getD default)))
  | .constGet i k => onMap maps i (fun m => some (m.lookup k, m))
  | .put i k v => onMap maps i (fun m => some (none, m.assign k v))
  | .erase i k => onMap maps i (fun m => some (none, m.erase k))
  | .clear i => onMap maps i (fun _ => some (none, .empty))
  | .copy source => do
    let m ← maps[source]?
    pure (none, maps ++ [m])
  | .assign i source => do
    let _ ← maps[i]?
    let m ← maps[source]?
    pure (none, maps.set i m)

end Dictionaries

section Dictionaries
variable {K V : Type} [Inhabited K] [Inhabited V] [LinearOrder K] {memory : Memory} {t : BPlusTree (Pair K V)}
  {m : Maps.OrderedMap K V}

theorem map_put (hholds : HoldsMap Pair.key Pair.value t m) (hroot : Rooted Pair.key memory t) (k : K) (v : V) :
    Becomes Pair.key Pair.value memory t (Map.put t k v memory).2 (Map.put t k v memory).1 (m.assign k v) := by
  obtain ⟨-, hroot', hkept, hholds'⟩ := hholds.get hroot (Map.probe k)
  rw [Map.put]
  rcases hget : t.get Pair.key (Map.probe k) memory with ⟨item, t', memory'⟩
  rw [hget] at hroot' hkept hholds'
  have hpresent : (m.alter k (fun old => old.getD default)).contains k = true := by
    rw [Maps.OrderedMap.contains, Maps.OrderedMap.lookup_alter, if_pos rfl]
    rfl
  obtain ⟨hend, hchanged, hend'⟩ := @HoldsMap.change _ _ _ _ _ _ _ _ _ hholds' hroot' (Map.probe k)
    (fun p => { p with value := v }) (fun _ => v) (fun _ => rfl) (fun _ => rfl) hpresent
  refine ⟨hend, hkept.trans hchanged, Eq.trans hend' ?_⟩
  exact Maps.alterItems_again _ (fun _ => v) m.ascending

/-- **`Map` and the ordered map are in lockstep.** -/
theorem map_lockstep : Lockstep (Forest.Stands Pair.key (HoldsMap Pair.key Pair.value))
    (Map.step : Forest (Pair K V) → _) Dictionaries.step := by
  intro f maps op h
  cases op with
  | create => exact stands_construct h none
  | insert i k v =>
    exact stands_onTree h i (fun t memory => some (none, Map.insert t k v memory)) _
      (fun t m hroot hholds => .answered none (hholds.insert hroot ⟨k, v⟩))
  | get i k =>
    refine stands_onTree h i (fun t memory => some (Map.get t k memory)) _ (fun t m hroot hholds => ?_)
    obtain ⟨hvalue, hbecomes⟩ := hholds.get hroot (Map.probe k)
    exact .some ⟨hvalue, hbecomes⟩
  | constGet i k =>
    refine stands_onTree h i (fun t memory => some (Map.atKey t k, t, memory)) _ (fun t m hroot hholds => ?_)
    have hkept : Kept f.memory f.memory t.ids t.ids := ⟨le_refl _, fun j hj => Or.inl hj, fun _ _ _ => rfl⟩
    exact .some ⟨hholds.getItem hroot (Map.probe k), hroot, hkept, hholds⟩
  | put i k v =>
    exact stands_onTree h i (fun t memory => some (none, Map.put t k v memory)) _
      (fun t m hroot hholds => .answered none (map_put hholds hroot k v))
  | erase i k =>
    exact stands_onTree h i (fun t memory => some (none, Map.erase t k memory)) _
      (fun t m hroot hholds => .answered none (hholds.erase hroot (Map.probe k)))
  | clear i =>
    exact stands_onTree h i (fun t memory => some (none, t.clearTree memory)) _
      (fun t m hroot _ => .answered none (HoldsMap.clear hroot))
  | copy source => exact stands_copy h source none
  | assign i source => exact stands_assign h i source none

end Dictionaries

/-! ## What is to be seen of a tree -/

section Seen
variable {α K W : Type} [Inhabited α] [LinearOrder K] (key : α → K) (value : α → W)

/-- An iterator with these items of the map in front of it. -/
def Leads (f : Forest α) (t : BPlusTree α) (it : Iterator) (items : List (K × W)) : Prop :=
  ∃ rest, f.At t it rest ∧ rest.map (fun x => (key x, value x)) = items

/-- **A tree is seen as its map**: its own check, its sizes, its queries, and its iterators, which are the items in front. -/
structure Mapped (f : Forest α) (t : BPlusTree α) (m : Maps.OrderedMap K W) : Prop where
  valid : t.isValid key = true
  empty : t.data.length = 0 ∧ t.isLeaf ↔ m.items = []
  size : ∀ fuel > m.items.length, f.size fuel t = some m.items.length
  count : t.count + 1 = m.items.length + t.leaves.length
  contains : ∀ entry, t.contains key entry = m.contains (key entry)
  getItem : ∀ entry, (t.getItem key entry).map value = m.lookup (key entry)
  begin : Leads key value f t (Forest.begin t) m.items
  ends : Leads key value f t Iterator.end []
  find : ∀ entry, Leads key value f t (t.find key entry)
    (if m.contains (key entry) then m.items.dropWhile (fun item => decide (item.1 < key entry)) else [])
  lowerBound : ∀ fuel > m.items.length, ∀ entry, ∃ it, Forest.lowerBound key f fuel t entry = some it ∧
    Leads key value f t it (m.items.dropWhile (fun item => decide (item.1 < key entry)))
  upperBound : ∀ fuel > m.items.length, ∀ entry, ∃ it, Forest.upperBound key f fuel t entry = some it ∧
    Leads key value f t it (m.items.dropWhile (fun item => decide (item.1 ≤ key entry)))
  equal : ∀ {it it' items items'}, Leads key value f t it items → Leads key value f t it' items' →
    (it = it' ↔ items = items')
  scan : ∀ fuel > m.items.length, ∀ {it last between items}, Leads key value f t it (between ++ items) →
    Leads key value f t last items → (f.scanLoop fuel it last).map (List.map (fun x => (key x, value x))) = some between

variable {key value} {f : Forest α} {t : BPlusTree α} {m : Maps.OrderedMap K W} {maps : List (Maps.OrderedMap K W)}

omit [Inhabited α] [LinearOrder K] in
theorem at_suffix {it : Iterator} {rest : List α} (h : f.At t it rest) : rest <:+ t.items := by
  obtain ⟨its, n, -, -, rfl⟩ := h
  exact List.drop_suffix n t.items

omit [Inhabited α] [LinearOrder K] in
/-- What is left of the items of a tree is known by its pairs. -/
theorem suffix_same {rest rest' items : List α} (h : rest <:+ items) (h' : rest' <:+ items)
    (heq : rest.map (fun x => (key x, value x)) = rest'.map (fun x => (key x, value x))) : rest = rest' := by
  have hlen : rest.length = rest'.length := by simpa using congrArg List.length heq
  exact (List.suffix_of_suffix_length_le h h' hlen.le).eq_of_length hlen

omit [Inhabited α] in
theorem dropWhile_items (h : HoldsMap key value t m) (p : K → Bool) :
    (t.items.dropWhile (fun x => p (key x))).map (fun x => (key x, value x)) = m.items.dropWhile (fun item => p item.1) := by
  rw [← h, List.dropWhile_map]
  rfl

omit [Inhabited α] in
theorem empty_iff {memory : Memory} (hroot : Rooted key memory t) : t.data.length = 0 ∧ t.isLeaf ↔ t.items = [] := by
  obtain ⟨n, hgood⟩ := hroot.shape
  refine ⟨fun ⟨hdata, hleaf⟩ => by rw [items_leaf hleaf, List.length_eq_zero_iff.1 hdata], fun hnil => ?_⟩
  by_cases hleaf : t.subset = []
  · rw [items_leaf hleaf] at hnil
    exact ⟨by rw [hnil]; rfl, hleaf⟩
  · exact absurd hnil (hgood.items_ne ⟨hroot.pos hleaf, hroot.le⟩)

omit [Inhabited α] in
/-- A loop between two iterators: the first is in front of the second. -/
theorem scan_leads (hholds : HoldsMap key value t m) {fuel : Nat} (hfuel : fuel > m.items.length) {it last : Iterator}
    {between items : List (K × W)} (hfirst : Leads key value f t it (between ++ items))
    (hlast : Leads key value f t last items) :
    (f.scanLoop fuel it last).map (List.map (fun x => (key x, value x))) = some between := by
  obtain ⟨rest, hat, hrest⟩ := hfirst
  obtain ⟨rest', hat', rfl⟩ := hlast
  obtain ⟨front, back, rfl, rfl, hback⟩ := List.map_eq_append_iff.1 hrest
  obtain rfl := suffix_same ((List.suffix_append front back).trans (at_suffix hat)) (at_suffix hat') hback
  have hlen : t.items.length = m.items.length := by rw [← hholds, List.length_map]
  have hle := hat.length_le
  rw [List.length_append] at hle
  rw [hat'.scan fuel hat (by omega), Option.map_some]

/-- **A standing tree that holds a map is seen as it.** -/
theorem mapped_of (h : f.Stands key (HoldsMap key value) maps) (ht : t ∈ f.trees) (hroot : Rooted key f.memory t)
    (hholds : HoldsMap key value t m) : Mapped key value f t m := by
  obtain ⟨n, hgood⟩ := hroot.shape
  have hnode : ∀ l ∈ t.leaves, f.node l.id = some l := fun l hl => f.node_eq h.nodup ht ((leaves_sublist t).subset hl)
  have htour := Forest.tour_tree hroot hnode
  have hlen : t.items.length = m.items.length := by rw [← hholds, List.length_map]
  have hempty : t.data.length = 0 ∧ t.isLeaf ↔ m.items = [] := by
    rw [empty_iff hroot, ← hholds, List.map_eq_nil_iff]
  refine {
    valid := isValid_good n t hgood hroot.sorted hroot.le hroot.pos
    empty := hempty
    size := ?size
    count := hlen ▸ count_good hgood
    contains := fun entry => hholds.contains hroot entry
    getItem := fun entry => hholds.getItem hroot entry
    begin := ⟨_, htour.at_begin, hholds⟩
    ends := ⟨_, htour.at_end, rfl⟩
    find := ?find
    lowerBound := ?lowerBound
    upperBound := ?upperBound
    equal := ?equal
    scan := fun _ hfuel => scan_leads hholds hfuel }
  case size =>
    intro fuel hfuel
    by_cases hnil : t.data.length = 0 ∧ t.isLeaf
    · rw [Forest.size, if_pos hnil, hempty.1 hnil]
      rfl
    · have hwalk := f.sizeLoop_walk fuel 0 htour.2 (by rw [htour.2.length, hlen]; exact hfuel)
      rw [Forest.size, if_neg hnil, htour.1, hwalk, hlen, Nat.zero_add]
  case find =>
    intro entry
    have hat := Forest.find_at hroot hnode entry
    rw [hholds.contains hroot] at hat
    refine ⟨_, hat, ?_⟩
    by_cases hpresent : m.contains (key entry) = true
    · rw [if_pos hpresent, if_pos hpresent]
      exact dropWhile_items hholds (fun k => decide (k < key entry))
    · rw [if_neg hpresent, if_neg hpresent]
      rfl
  case lowerBound =>
    intro fuel hfuel entry
    obtain ⟨it, hsearch, hat⟩ := htour.at_begin.search (fun x => ¬ key x < key entry) fuel (hlen ▸ hfuel)
    refine ⟨it, hsearch, _, hat, ?_⟩
    simp only [decide_not, Bool.not_not]
    exact dropWhile_items hholds (fun k => decide (k < key entry))
  case upperBound =>
    intro fuel hfuel entry
    obtain ⟨it, hsearch, hat⟩ := htour.at_begin.search (fun x => key entry < key x) fuel (hlen ▸ hfuel)
    refine ⟨it, hsearch, _, hat, ?_⟩
    simp only [← decide_not, not_lt]
    exact dropWhile_items hholds (fun k => decide (k ≤ key entry))
  case equal =>
    rintro it it' items items' ⟨rest, hat, rfl⟩ ⟨rest', hat', rfl⟩
    rw [hat.eq_iff hat']
    exact ⟨fun heq => by rw [heq], suffix_same (at_suffix hat) (at_suffix hat')⟩

/-- Machines in lockstep from the start. -/
theorem mapped_run {Op Ans : Type} {step : Forest α → Op → Option (Ans × Forest α)}
    {step' : List (Maps.OrderedMap K W) → Op → Option (Ans × List (Maps.OrderedMap K W))}
    (h : Lockstep (Forest.Stands key (HoldsMap key value)) step step') (ops : List Op) :
    Paired (fun f maps => List.Forall₂ (Mapped key value f) f.trees maps) (runSteps step .new ops) (runSteps step' [] ops) :=
  (h.run ops Forest.stands_new).mono (fun _ _ hstands =>
    Forest.forall₂_mem hstands.trees (fun _ ht _ hmap => mapped_of hstands ht hmap.1 hmap.2))

end Seen

/-- **`Map` is the ordered map that the tables are modelled with.** -/
theorem map_refines {K V : Type} [Inhabited K] [Inhabited V] [LinearOrder K] (ops : List (PairOp K V)) :
    Paired (fun f maps => List.Forall₂ (Mapped Pair.key Pair.value f) f.trees maps) (runSteps Map.step .new ops)
      (runSteps Dictionaries.step [] ops) := mapped_run map_lockstep ops

end BPlus
end Sql
