import SqlEngine.Forest
/-!
# MultiMap — the B+ tree of pairs is a multimap

Pairs are compared by key alone, so the pairs in internal nodes may hold value lists that are out of date, and only the pairs
in the leaves count.  A multimap is compared with the history of what was done to it: `since` is what happened after the last
erasure of a key.
-/
namespace Sql
namespace BPlus

/-! ## The item behind a reference -/

namespace BPlusTree
variable {α K : Type} [LinearOrder K] (key : α → K)

/-- `get_Item`; null is `none`. -/
def getItem (t : BPlusTree α) (entry : α) : Option α :=
  let i := firstGe key t.data entry
  let found := foundAt key t.data i entry
  if t.isLeaf then if found then t.data[i]? else none
  else
    match _h : t.subset[if found then i + 1 else i]? with
    | none => none  -- not reached
    | some child => getItem child entry
termination_by t
decreasing_by
  have hlt := List.sizeOf_lt_of_mem (List.mem_of_getElem? _h)
  cases t
  simp only [BPlusTree.mk.sizeOf_spec] at hlt ⊢
  omega

/-- The tree after a change of the item `get_Item` points to. -/
def changeItem (t : BPlusTree α) (entry : α) (change : α → α) : BPlusTree α :=
  let i := firstGe key t.data entry
  let found := foundAt key t.data i entry
  if t.isLeaf then if found then { t with data := t.data.modify i change } else t
  else
    let j := if found then i + 1 else i
    match _h : t.subset[j]? with
    | none => t  -- not reached
    | some child => t.setChild j (changeItem child entry change)
termination_by t
decreasing_by
  have hlt := List.sizeOf_lt_of_mem (List.mem_of_getElem? _h)
  cases t
  simp only [BPlusTree.mk.sizeOf_spec] at hlt ⊢
  omega

/-- `get`: the item, inserted if it is not there. -/
def get [Inhabited α] (t : BPlusTree α) (entry : α) (m : Memory) : Option α × BPlusTree α × Memory :=
  let (t, m) := if t.contains key entry then (t, m) else (t.insert key entry m).2
  (t.getItem key entry, t, m)

section Items
variable {key}

theorem getItem_leaf {t : BPlusTree α} (h : t.subset = []) (entry : α) : t.getItem key entry =
    if foundAt key t.data (firstGe key t.data entry) entry then t.data[firstGe key t.data entry]? else none := by
  unfold getItem
  exact if_pos h

theorem getItem_node {t c : BPlusTree α} (h : t.subset ≠ []) {entry : α} (hc : t.subset[childIndex key t entry]? = some c) :
    t.getItem key entry = c.getItem key entry := by
  rw [getItem]
  simp only [show ¬ t.isLeaf from h, if_false]
  split
  · rename_i hnone
    cases hnone.symm.trans hc
  · rename_i child hsome
    rw [Option.some.inj (hsome.symm.trans hc)]

theorem find?_focus {t c : BPlusTree α} {left right : List (BPlusTree α)} {dl dr : List α} {k : K}
    (h : Focus key t left c right dl dr) (hl : ∀ x ∈ left.flatMap items, key x < k)
      (hr : ∀ x ∈ right.flatMap items, k < key x) :
    t.items.find? (fun x => key x = k) = c.items.find? (fun x => key x = k) := by
  have hleft : (left.flatMap items).find? (fun x => key x = k) = none :=
    List.find?_eq_none.2 (fun y hy => by simpa using (hl y hy).ne)
  have hright : (right.flatMap items).find? (fun x => key x = k) = none :=
    List.find?_eq_none.2 (fun y hy => by simpa using (hr y hy).ne')
  rw [h.items, List.find?_append, List.find?_append, hleft, hright, Option.none_or, Option.or_none]

theorem getItem_spec (entry : α) : ∀ (n : Nat) (t : BPlusTree α), Good key n t → Sorted key t.items →
    t.getItem key entry = t.items.find? (fun x => key x = key entry)
  | 0, t, h, hs => by
    rw [items_leaf h] at hs ⊢
    rw [getItem_leaf h]
    obtain ⟨left, right, hdata, hge, hleft, hcase⟩ := firstGe_search hs entry
    have hnone : left.find? (fun x => key x = key entry) = none :=
      List.find?_eq_none.2 (fun y hy => by simpa using (hleft y hy).ne)
    rw [hge]
    rcases hcase with ⟨hf, hright⟩ | ⟨hf, x, rest, rfl, hx, hrest⟩
    · have hnone' : right.find? (fun x => key x = key entry) = none :=
        List.find?_eq_none.2 (fun y hy => by simpa using (hright y hy).ne')
      rw [hf, hdata, List.find?_append, hnone, hnone']
      rfl
    · rw [if_pos hf, hdata, List.find?_append, hnone, List.find?_cons_of_pos (by simpa using hx)]
      simp
  | n + 1, t, h, hs => by
    obtain ⟨left, c, right, dl, dr, hfocus, hindex, hl, hr, -, -⟩ := h.descend hs entry
    rw [getItem_node h.1 (hindex ▸ hfocus.child), find?_focus hfocus hl hr]
    exact getItem_spec entry n c (h.2.2 c hfocus.mem).1 (hfocus.sorted hs)

theorem changeItem_leaf {t : BPlusTree α} (h : t.subset = []) (entry : α) (change : α → α) : t.changeItem key entry change =
    if foundAt key t.data (firstGe key t.data entry) entry then { t with data := t.data.modify (firstGe key t.data entry) change }
    else t := by
  rw [changeItem]
  exact if_pos h

theorem changeItem_node {t c : BPlusTree α} (h : t.subset ≠ []) {entry : α} {i : Nat} (hi : childIndex key t entry = i)
    (hc : t.subset[i]? = some c) (change : α → α) :
    t.changeItem key entry change = t.setChild i (c.changeItem key entry change) := by
  subst hi
  rw [changeItem]
  simp only [show ¬ t.isLeaf from h, if_false]
  split
  · rename_i hnone
    cases hnone.symm.trans hc
  · rename_i child hsome
    rw [Option.some.inj (hsome.symm.trans hc)]
    rfl

/-- A change of the item with a key, where it is. -/
def changeAt (key : α → K) (k : K) (change : α → α) (items : List α) : List α :=
  items.map (fun x => if key x = k then change x else x)

theorem changeAt_of_ne {k : K} {change : α → α} {items : List α} (h : ∀ x ∈ items, key x ≠ k) :
    changeAt key k change items = items := by
  rw [changeAt]
  exact (List.map_congr_left (fun x hx => if_neg (h x hx))).trans (List.map_id _)

theorem changeAt_append (k : K) (change : α → α) (xs ys : List α) :
    changeAt key k change (xs ++ ys) = changeAt key k change xs ++ changeAt key k change ys := List.map_append

/-- A change that keeps the key keeps all keys. -/
theorem changeAt_keys {k : K} {change : α → α} (hchange : ∀ x, key (change x) = key x) (items : List α) :
    (changeAt key k change items).map key = items.map key := by
  rw [changeAt, List.map_map]
  refine List.map_congr_left (fun x _ => ?_)
  rw [Function.comp_apply]
  split
  · exact hchange x
  · rfl

theorem modify_at {β : Type} (f : β → β) (x : β) (right : List β) : ∀ left : List β,
    (left ++ x :: right).modify left.length f = left ++ f x :: right
  | [] => rfl
  | y :: left => by rw [List.cons_append, List.length_cons, List.modify_succ_cons, modify_at f x right left,
    List.cons_append]

/-- What a change through a reference leaves: the same nodes, and one item changed. -/
structure Changed (key : α → K) (n : Nat) (k : K) (change : α → α) (t t' : BPlusTree α) : Prop where
  good : Good key n t'
  id_eq : t'.id = t.id
  ids_eq : t'.ids = t.ids
  leafIds_eq : t'.leafIds = t.leafIds
  length_eq : t'.data.length = t.data.length
  items_eq : t'.items = changeAt key k change t.items

/-- **A change through a reference** keeps the tree. -/
theorem changeItem_spec {change : α → α} (hchange : ∀ x, key (change x) = key x) (entry : α) : ∀ (n : Nat) (t : BPlusTree α),
    Good key n t → Sorted key t.items → Changed key n (key entry) change t (t.changeItem key entry change)
  | 0, ⟨id, data, subset⟩, h, hs => by
    obtain rfl : subset = [] := h
    rw [items_nil] at hs
    rw [changeItem_leaf rfl]
    obtain ⟨left, right, rfl, hge, hleft, hcase⟩ := firstGe_search hs entry
    have hl := @changeAt_of_ne _ _ _ key _ change _ (fun x hx => (hleft x hx).ne)
    simp only [hge]
    rcases hcase with ⟨hf, hright⟩ | ⟨hf, x, rest, rfl, hx, hrest⟩
    · simp only [hf, Bool.false_eq_true, if_false]
      refine ⟨rfl, rfl, rfl, rfl, rfl, ?_⟩
      rw [items_nil, changeAt_append, hl, changeAt_of_ne (fun x hx => (hright x hx).ne')]
    · simp only [hf, if_true]
      refine ⟨rfl, rfl, rfl, rfl, List.length_modify .., ?_⟩
      have hr := @changeAt_of_ne _ _ _ key _ change _ (fun y hy => (hrest y hy).ne')
      rw [items_nil, items_nil, modify_at, changeAt_append, hl, changeAt, List.map_cons, if_pos hx]
      exact congrArg (fun xs => left ++ change x :: xs) hr.symm
  | n + 1, t, h, hs => by
    obtain ⟨left, c, right, dl, dr, hfocus, hindex, hl, hr, -, -⟩ := h.descend hs entry
    obtain ⟨id, data, subset⟩ := t
    obtain rfl : data = dl ++ dr := hfocus.data_eq
    obtain rfl : subset = left ++ c :: right := hfocus.subset_eq
    obtain ⟨hgood, hfull⟩ := h.2.2 c hfocus.mem
    have ih := changeItem_spec hchange entry n c hgood (hfocus.sorted hs)
    rw [changeItem_node h.1 hindex hfocus.child]
    have hset : (⟨id, dl ++ dr, left ++ c :: right⟩ : BPlusTree α).setChild left.length (c.changeItem key entry change) =
        ⟨id, dl ++ dr, left ++ c.changeItem key entry change :: right⟩ := by
      simp [setChild]
    rw [hset]
    have hhead : (c.changeItem key entry change).items.head?.map key = c.items.head?.map key := by
      rw [ih.items_eq, ← List.head?_map, changeAt_keys hchange, List.head?_map]
    refine ⟨hfocus.good_child h ⟨ih.good, ?_⟩ (fun _ => hhead), rfl, ?_, ?_, rfl, ?_⟩
    · rw [Full, ih.length_eq]
      exact hfull
    · simp [ih.ids_eq]
    · rw [leafIds_node (by simp), leafIds_node (by simp)]
      simp [ih.leafIds_eq]
    · rw [hfocus.items, changeAt_append, changeAt_append, changeAt_of_ne (fun x hx => (hl x hx).ne),
        changeAt_of_ne (fun x hx => (hr x hx).ne'), ← ih.items_eq]
      exact (items_parts id _ left [c.changeItem key entry change] right (by simp)).trans (by simp)

/-- A change through a reference, in a whole tree. -/
theorem change_spec {m : Memory} {t : BPlusTree α} (h : Rooted key m t) {change : α → α}
    (hchange : ∀ x, key (change x) = key x)
    (entry : α) : Rooted key m (t.changeItem key entry change) ∧ Kept m m t.ids (t.changeItem key entry change).ids ∧
      (t.changeItem key entry change).items = changeAt key (key entry) change t.items := by
  obtain ⟨n, hgood⟩ := h.shape
  have hc := changeItem_spec hchange entry n t hgood h.sorted
  refine ⟨⟨⟨n, hc.good⟩, ?_, fun hne => ?_, ?_, ?_, ?_, ?_⟩,
    ⟨le_refl _, fun j hj => Or.inl (hc.ids_eq ▸ hj), fun _ _ _ => rfl⟩,
    hc.items_eq⟩
  · rw [hc.length_eq]
    exact h.le
  · rw [hc.length_eq]
    cases n with
    | zero => exact absurd hc.good hne
    | succ n => exact h.pos hgood.1
  · have hs := List.pairwise_map.2 h.sorted
    rw [hc.items_eq]
    refine List.pairwise_map.1 ?_
    rw [changeAt_keys hchange]
    exact hs
  · rw [hc.leafIds_eq]
    exact h.linked
  · rw [hc.id_eq]
    exact h.next
  · rw [hc.ids_eq]
    exact h.allocated

end Items

end BPlusTree

/-! ## The multimap -/

structure MPair (K V : Type) where
  key : K
  valueList : List V
  deriving Inhabited

namespace MMap
variable {K V : Type} [Inhabited K] [LinearOrder K]

open BPlusTree

/-- `MPair(k)`. -/
def probe (k : K) : MPair K V := ⟨k, []⟩

def contains (t : BPlusTree (MPair K V)) (k : K) : Bool := t.contains MPair.key (probe k)

/-- `at` of a constant map; `none` is the exception. -/
def atKey (t : BPlusTree (MPair K V)) (k : K) : Option (List V) := (t.getItem MPair.key (probe k)).map MPair.valueList

/-- `operator[]`. -/
def read (t : BPlusTree (MPair K V)) (k : K) (m : Memory) : Option (List V) × BPlusTree (MPair K V) × Memory :=
  let (item, t, m) := t.get MPair.key (probe k) m
  (item.map MPair.valueList, t, m)

/-- `assert(!this->contains(key))` in front. -/
def insertKey (t : BPlusTree (MPair K V)) (k : K) (m : Memory) : Option (BPlusTree (MPair K V) × Memory) :=
  if contains t k then none else some (t.insert MPair.key (probe k) m).2

def insert (t : BPlusTree (MPair K V)) (k : K) (v : V) (m : Memory) : BPlusTree (MPair K V) × Memory :=
  if contains t k then
    let (_, t, m) := t.get MPair.key (probe k) m
    (t.changeItem MPair.key (probe k) (fun p => { p with valueList := p.valueList ++ [v] }), m)
  else (t.insert MPair.key ⟨k, [v]⟩ m).2

def erase (t : BPlusTree (MPair K V)) (k : K) (m : Memory) : BPlusTree (MPair K V) × Memory :=
  (t.erase MPair.key (probe k) m).2

end MMap

inductive MapOp (K V : Type)
  | create
  | insert (i : Nat) (k : K) (v : V)
  | insertKey (i : Nat) (k : K)
  | read (i : Nat) (k : K)
  | erase (i : Nat) (k : K)
  | copy (source : Nat)
  | assign (i source : Nat)

namespace MMap
variable {K V : Type} [Inhabited K] [LinearOrder K]

/-- One operation on the multimaps, and the list it reads. -/
def step (f : Forest (MPair K V)) : MapOp K V → Option (Option (List V) × Forest (MPair K V))
  | .create => some (none, f.construct)
  | .insert i k v => do
    let t ← f.trees[i]?
    let (t, m) := insert t k v f.memory
    pure (none, ⟨m, f.trees.set i t⟩)
  | .insertKey i k => do
    let t ← f.trees[i]?
    let (t, m) ← insertKey t k f.memory
    pure (none, ⟨m, f.trees.set i t⟩)
  | .read i k => do
    let t ← f.trees[i]?
    let (values, t, m) := read t k f.memory
    pure (values, ⟨m, f.trees.set i t⟩)
  | .erase i k => do
    let t ← f.trees[i]?
    let (t, m) := erase t k f.memory
    pure (none, ⟨m, f.trees.set i t⟩)
  | .copy source => do
    let f ← f.copy source
    pure (none, f)
  | .assign i source => do
    let f ← f.assign i source
    pure (none, f)

def run (f : Forest (MPair K V)) : List (MapOp K V) → Option (List (Option (List V)) × Forest (MPair K V))
  | [] => some ([], f)
  | op :: ops => do
    let (ans, f) ← step f op
    let (answers, f) ← run f ops
    pure (ans :: answers, f)

end MMap

/-! ## Histories -/

/-- What may be done to a multimap. -/
inductive Event (K V : Type)
  | insert (k : K) (v : V)
  | insertKey (k : K)
  | read (k : K)
  | erase (k : K)

namespace History
variable {K V : Type} [DecidableEq K]

def erases (k : K) : Event K V → Bool
  | .erase k' => k' = k
  | _ => false

/-- The event makes the key present. -/
def brings (k : K) : Event K V → Bool
  | .insert k' _ => k' = k
  | .insertKey k' => k' = k
  | .read k' => k' = k
  | .erase _ => false

def valueOf (k : K) : Event K V → Option V
  | .insert k' v => if k' = k then some v else none
  | _ => none

/-- What happened after the last erasure of the key. -/
def since (k : K) (history : List (Event K V)) : List (Event K V) :=
  (history.reverse.takeWhile (fun e => !erases k e)).reverse

/-- Has the key been inserted or read since its last erasure? -/
def present (k : K) (history : List (Event K V)) : Bool := (since k history).any (brings k)

/-- The values inserted for the key since its last erasure, in their order. -/
def values (k : K) (history : List (Event K V)) : List V := (since k history).filterMap (valueOf k)

/-- The operations on histories; a copy has the history of its source. -/
def step (histories : List (List (Event K V))) : MapOp K V → Option (Option (List V) × List (List (Event K V)))
  | .create => some (none, histories ++ [[]])
  | .insert i k v => do
    let h ← histories[i]?
    pure (none, histories.set i (h ++ [.insert k v]))
  | .insertKey i k => do
    let h ← histories[i]?
    if present k h then none else pure (none, histories.set i (h ++ [.insertKey k]))
  | .read i k => do
    let h ← histories[i]?
    pure (some (values k h), histories.set i (h ++ [.read k]))
  | .erase i k => do
    let h ← histories[i]?
    pure (none, histories.set i (h ++ [.erase k]))
  | .copy source => do
    let h ← histories[source]?
    pure (none, histories ++ [h])
  | .assign i source => do
    let _ ← histories[i]?
    let h ← histories[source]?
    pure (none, histories.set i h)

def run (histories : List (List (Event K V))) : List (MapOp K V) → Option (List (Option (List V)) × List (List (Event K V)))
  | [] => some ([], histories)
  | op :: ops => do
    let (ans, histories) ← step histories op
    let (answers, histories) ← run histories ops
    pure (ans :: answers, histories)

theorem since_concat (k : K) (history : List (Event K V)) (e : Event K V) :
    since k (history ++ [e]) = if erases k e then [] else since k history ++ [e] := by
  rw [since, List.reverse_append, List.reverse_singleton, List.singleton_append]
  by_cases h : erases k e = true
  · rw [List.takeWhile_cons_of_neg (by simp [h]), if_pos h, List.reverse_nil]
  · rw [List.takeWhile_cons_of_pos (by simp [h]), if_neg h, List.reverse_cons, since]

theorem present_concat (k : K) (history : List (Event K V)) (e : Event K V) :
    present k (history ++ [e]) = (!erases k e && (present k history || brings k e)) := by
  rw [present, since_concat, present]
  cases h : erases k e with
  | true => rfl
  | false => simp

theorem values_concat (k : K) (history : List (Event K V)) (e : Event K V) :
    values k (history ++ [e]) = if erases k e then [] else values k history ++ (valueOf k e).toList := by
  rw [values, since_concat, values]
  cases h : erases k e with
  | true => rfl
  | false =>
    rw [if_neg Bool.false_ne_true, if_neg Bool.false_ne_true, List.filterMap_append]
    cases hv : valueOf k e with
    | none => simp [hv]
    | some v => simp [hv]

/-- What is not present has no values. -/
theorem values_absent {k : K} {history : List (Event K V)} (h : present k history = false) : values k history = [] := by
  refine List.filterMap_eq_nil_iff.2 (fun e he => ?_)
  have hb := List.any_eq_false.1 h e he
  cases e with
  | insert k' v =>
    have hne : k' ≠ k := by simpa [brings] using hb
    exact if_neg hne
  | insertKey k' => rfl
  | read k' => rfl
  | erase k' => rfl

end History

/-! ## The multimap against its history -/

section Standing
variable {K V : Type} [LinearOrder K]

open BPlusTree

/-- The pairs in the leaves are the keys that are present, each with its values. -/
structure HoldsHistory (t : BPlusTree (MPair K V)) (history : List (Event K V)) : Prop where
  pair : ∀ x ∈ t.items, History.present x.key history = true ∧ x.valueList = History.values x.key history
  present : ∀ k, History.present k history = true → Holds MPair.key k t.items

variable {t t' : BPlusTree (MPair K V)} {history : List (Event K V)} {m : Memory} {k : K}

theorem HoldsHistory.holds_iff (h : HoldsHistory t history) : Holds MPair.key k t.items ↔
    History.present k history = true := by
  refine ⟨?_, h.present k⟩
  rintro ⟨x, hx, rfl⟩
  exact (h.pair x hx).1

/-- **One event**: the key is there afterwards, its list has what the event adds, and nothing else is touched. -/
theorem HoldsHistory.event (h : HoldsHistory t history) {e : Event K V} (herase : ∀ k', History.erases k' e = false)
    (hbring : ∀ k', History.brings k' e = decide (k' = k)) (hvalue : ∀ k', k' ≠ k → History.valueOf k' e = none)
    (hkeys : ∀ k', Holds MPair.key k' t'.items ↔ Holds MPair.key k' t.items ∨ k' = k)
    (hother : ∀ x ∈ t'.items, x.key ≠ k → x ∈ t.items)
    (hself : ∀ x ∈ t'.items, x.key = k → x.valueList = History.values k history ++ (History.valueOf k e).toList) :
    HoldsHistory t' (history ++ [e]) := by
  have hpresent : ∀ k', History.present k' (history ++ [e]) = true ↔ History.present k' history = true ∨ k' = k := by
    intro k'
    rw [History.present_concat, herase, hbring]
    simp
  refine ⟨fun x hx => ⟨?_, ?_⟩, fun k' hk' => ?_⟩
  · rw [hpresent, ← h.holds_iff]
    exact (hkeys x.key).1 ⟨x, hx, rfl⟩
  · rw [History.values_concat, herase, if_neg Bool.false_ne_true]
    by_cases hk : x.key = k
    · rw [hself x hx hk, hk]
    · rw [hvalue x.key hk, (h.pair x (hother x hx hk)).2]
      simp
  · rw [hpresent, ← h.holds_iff] at hk'
    exact (hkeys k').2 hk'

theorem HoldsHistory.erase (h : HoldsHistory t history) (hitems : t'.items = eraseSorted MPair.key k t.items) :
    HoldsHistory t' (history ++ [.erase k]) := by
  have herases : ∀ k', History.erases k' (Event.erase k : Event K V) = decide (k = k') := fun _ => rfl
  refine ⟨fun x hx => ?_, fun k' hk' => ?_⟩
  · rw [hitems, eraseSorted, List.mem_filter, decide_eq_true_eq] at hx
    have hne : ¬ k = x.key := fun heq => hx.2 heq.symm
    rw [History.present_concat, History.values_concat, herases, decide_eq_false hne]
    simpa [History.brings, History.valueOf] using h.pair x hx.1
  · rw [History.present_concat, herases] at hk'
    have hne : k' ≠ k := fun heq => by simp [heq] at hk'
    have hpresent : History.present k' history = true := by simpa [History.brings, hne.symm] using hk'
    obtain ⟨x, hx, hxk⟩ := h.present k' hpresent
    rw [hitems]
    exact ⟨x, List.mem_filter.2 ⟨hx, by simpa [hxk] using hne⟩, hxk⟩

/-- The pairs after an insertion of a new one. -/
theorem mem_insertSorted_absent {α : Type} {key : α → K} {entry x : α} {items : List α} (hs : Sorted key items)
    (h : ¬ Holds key (key entry) items) : x ∈ insertSorted key entry items ↔ x = entry ∨ x ∈ items := by
  obtain ⟨left, right, rfl, -, hl, ⟨-, hr⟩ | ⟨-, y, rest, rfl, hy, -⟩⟩ := firstGe_search hs entry
  · rw [insertSorted_absent hl hr]
    simp only [List.mem_append, List.mem_cons]
    tauto
  · exact absurd ⟨y, by simp, hy⟩ h

/-- The event that brings a new key. -/
theorem HoldsHistory.new (h : HoldsHistory t history) (hs : Sorted MPair.key t.items)
    (habsent : History.present k history = false)
    {e : Event K V} (herase : ∀ k', History.erases k' e = false) (hbring : ∀ k', History.brings k' e = decide (k' = k))
    (hvalue : ∀ k', k' ≠ k → History.valueOf k' e = none)
    (hitems : t'.items = insertSorted MPair.key ⟨k, (History.valueOf k e).toList⟩ t.items) :
      HoldsHistory t' (history ++ [e]) := by
  have hnot : ¬ Holds MPair.key k t.items := fun hk => by
    rw [h.holds_iff, habsent] at hk
    cases hk
  have hmem : ∀ x, x ∈ t'.items ↔ x = ⟨k, (History.valueOf k e).toList⟩ ∨ x ∈ t.items := fun x => by
    rw [hitems, mem_insertSorted_absent hs hnot]
  refine h.event herase hbring hvalue (fun k' => ⟨?_, ?_⟩) (fun x hx hne => ?_) (fun x hx hk => ?_)
  · rintro ⟨x, hx, rfl⟩
    rcases (hmem x).1 hx with rfl | hx
    · exact Or.inr rfl
    · exact Or.inl ⟨x, hx, rfl⟩
  · rintro (⟨x, hx, rfl⟩ | rfl)
    · exact ⟨x, (hmem x).2 (Or.inr hx), rfl⟩
    · exact ⟨_, (hmem _).2 (Or.inl rfl), rfl⟩
  · rcases (hmem x).1 hx with rfl | hx
    · exact absurd rfl hne
    · exact hx
  · rcases (hmem x).1 hx with rfl | hx
    · rw [History.values_absent habsent]
      rfl
    · exact absurd ⟨x, hx, hk⟩ hnot

/-- The event that adds to the list of a key that is there. -/
theorem HoldsHistory.change (h : HoldsHistory t history) (hpresent : History.present k history = true) {e : Event K V}
    (herase : ∀ k', History.erases k' e = false) (hbring : ∀ k', History.brings k' e = decide (k' = k))
    (hvalue : ∀ k', k' ≠ k → History.valueOf k' e = none)
    (hitems : t'.items =
      changeAt MPair.key k (fun p => { p with valueList := p.valueList ++ (History.valueOf k e).toList }) t.items) :
    HoldsHistory t' (history ++ [e]) := by
  have hkeys : t'.items.map MPair.key = t.items.map MPair.key := by
    have hkey : ∀ p : MPair K V, MPair.key ⟨p.key, p.valueList ++ (History.valueOf k e).toList⟩ = p.key := fun _ => rfl
    rw [hitems]
    exact changeAt_keys hkey t.items
  have hholds : ∀ k', Holds MPair.key k' t'.items ↔ Holds MPair.key k' t.items := by
    intro k'
    have hmem : k' ∈ t'.items.map MPair.key ↔ k' ∈ t.items.map MPair.key := by rw [hkeys]
    rw [List.mem_map, List.mem_map] at hmem
    exact hmem
  refine h.event herase hbring hvalue (fun k' => ?_) (fun x hx hne => ?_) (fun x hx hk => ?_)
  · rw [hholds k']
    refine ⟨Or.inl, ?_⟩
    rintro (hk' | rfl)
    · exact hk'
    · exact h.present _ hpresent
  · rw [hitems, changeAt, List.mem_map] at hx
    obtain ⟨y, hy, rfl⟩ := hx
    by_cases hyk : y.key = k
    · rw [if_pos hyk] at hne
      exact absurd hyk hne
    · rw [if_neg hyk]
      exact hy
  · rw [hitems, changeAt, List.mem_map] at hx
    obtain ⟨y, hy, rfl⟩ := hx
    by_cases hyk : y.key = k
    · rw [if_pos hyk]
      rw [(h.pair y hy).2, hyk]
    · rw [if_neg hyk] at hk
      exact absurd hk hyk

/-- A read of a key that is there. -/
theorem HoldsHistory.same (h : HoldsHistory t history) (hpresent : History.present k history = true) :
    HoldsHistory t (history ++ [.read k]) := by
  refine h.event (fun _ => rfl) (fun k' => decide_eq_decide.2 eq_comm) (fun _ _ => rfl) (fun k' => ⟨Or.inl, ?_⟩)
    (fun _ hx _ => hx)
    (fun x hx hk => ?_)
  · rintro (hk' | rfl)
    · exact hk'
    · exact h.present _ hpresent
  · rw [(h.pair x hx).2, hk]
    simp [History.valueOf]

theorem contains_eq (hroot : Rooted MPair.key m t) (h : HoldsHistory t history) (k : K) :
    MMap.contains t k = History.present k history := by
  obtain ⟨n, hgood⟩ := hroot.shape
  exact Bool.eq_iff_iff.2 ((contains_iff (MMap.probe k) n t hgood hroot.sorted).trans h.holds_iff)

theorem atKey_eq (hroot : Rooted MPair.key m t) (h : HoldsHistory t history) (k : K) :
    MMap.atKey t k = if History.present k history then some (History.values k history) else none := by
  obtain ⟨n, hgood⟩ := hroot.shape
  have hfind : t.getItem MPair.key (MMap.probe k) = t.items.find? (fun x => decide (x.key = k)) :=
    getItem_spec (MMap.probe k) n t hgood hroot.sorted
  rw [MMap.atKey, hfind]
  by_cases hpresent : History.present k history = true
  · obtain ⟨x, hx, hxk⟩ := h.present k hpresent
    obtain ⟨y, hy⟩ := Option.isSome_iff_exists.1
      ((List.find?_isSome (p := fun z : MPair K V => decide (z.key = k))).2 ⟨x, hx, decide_eq_true hxk⟩)
    have hyk : y.key = k := by
      have hp := List.find?_some hy
      exact of_decide_eq_true hp
    rw [if_pos hpresent, hy, Option.map_some, (h.pair y (List.mem_of_find?_eq_some hy)).2, hyk]
  · rw [if_neg hpresent, List.find?_eq_none.2 (fun x hx hxk => hpresent (h.holds_iff.1 ⟨x, hx, of_decide_eq_true hxk⟩))]
    rfl

variable [Inhabited K]

/-- The tree after a reading access. -/
theorem get_spec (hroot : Rooted MPair.key m t) (h : HoldsHistory t history) (k : K) {item : Option (MPair K V)}
    {m' : Memory}
    (hget : t.get MPair.key (MMap.probe k) m = (item, t', m')) : Rooted MPair.key m' t' ∧ Kept m m' t.ids t'.ids ∧
      HoldsHistory t' (history ++ [.read k]) ∧ item.map MPair.valueList = some (History.values k history) := by
  have hcontains : t.contains MPair.key (MMap.probe k) = History.present k history := contains_eq hroot h k
  have hafter : History.present k (history ++ [.read k]) = true := by
    rw [History.present_concat]
    simp [History.erases, History.brings]
  have hvalues : History.values k (history ++ [.read k]) = History.values k history := by
    rw [History.values_concat]
    simp [History.erases, History.valueOf]
  rw [BPlusTree.get, hcontains] at hget
  by_cases hpresent : History.present k history = true
  · rw [if_pos hpresent] at hget
    injection hget with hitem hget
    injection hget with ht hm
    subst ht hm
    have hsame := h.same hpresent
    have hat := atKey_eq hroot hsame k
    rw [if_pos hafter, hvalues] at hat
    refine ⟨hroot, ⟨le_refl _, fun j hj => Or.inl hj, fun _ _ _ => rfl⟩, hsame, ?_⟩
    rw [← hitem]
    exact hat
  · rw [if_neg hpresent] at hget
    rcases hins : t.insert MPair.key (MMap.probe k) m with ⟨ans, t1, m1⟩
    rw [hins] at hget
    injection hget with hitem hget
    injection hget with ht hm
    subst ht hm
    obtain ⟨hroot', hkept, hitems, -⟩ := insert_spec hroot (MMap.probe k) hins
    have hnew : HoldsHistory t1 (history ++ [.read k]) := h.new hroot.sorted (eq_false_of_ne_true hpresent) (fun _ => rfl)
      (fun k' => decide_eq_decide.2 eq_comm) (fun _ _ => rfl) hitems
    have hat := atKey_eq hroot' hnew k
    rw [if_pos hafter, hvalues] at hat
    refine ⟨hroot', hkept, hnew, ?_⟩
    rw [← hitem]
    exact hat

/-- The tree after an insertion of a value. -/
theorem insert_value (hroot : Rooted MPair.key m t) (h : HoldsHistory t history) (k : K) (v : V) {m' : Memory}
    (hins : MMap.insert t k v m = (t', m')) : Rooted MPair.key m' t' ∧ Kept m m' t.ids t'.ids ∧
      HoldsHistory t' (history ++ [.insert k v]) := by
  have hbring : ∀ k', History.brings k' (Event.insert k v) = decide (k' = k) := fun k' => decide_eq_decide.2 eq_comm
  have hvalue : ∀ k', k' ≠ k → History.valueOf k' (Event.insert k v) = none := fun k' hne => if_neg hne.symm
  have hself : History.valueOf k (Event.insert k v) = some v := if_pos rfl
  rw [MMap.insert, contains_eq hroot h k] at hins
  by_cases hpresent : History.present k history = true
  · have hget : t.get MPair.key (MMap.probe k) m = (t.getItem MPair.key (MMap.probe k), t, m) := by
      have hcontains : t.contains MPair.key (MMap.probe k) = true := (contains_eq hroot h k).trans hpresent
      rw [BPlusTree.get, if_pos hcontains]
    rw [if_pos hpresent, hget] at hins
    obtain ⟨rfl, rfl⟩ := Prod.mk.inj hins
    have hkey : ∀ p : MPair K V, MPair.key ⟨p.key, p.valueList ++ [v]⟩ = p.key := fun _ => rfl
    obtain ⟨hroot', hkept, hitems⟩ := change_spec hroot hkey (MMap.probe k)
    refine ⟨hroot', hkept, h.change hpresent (fun _ => rfl) hbring hvalue ?_⟩
    rw [hself]
    exact hitems
  · rw [if_neg hpresent] at hins
    rcases htree : t.insert MPair.key ⟨k, [v]⟩ m with ⟨ans, t1, m1⟩
    rw [htree] at hins
    obtain ⟨rfl, rfl⟩ := Prod.mk.inj hins
    obtain ⟨hroot', hkept, hitems, -⟩ := insert_spec hroot ⟨k, [v]⟩ htree
    refine ⟨hroot', hkept, h.new hroot.sorted (eq_false_of_ne_true hpresent) (fun _ => rfl) hbring hvalue ?_⟩
    rw [hself]
    exact hitems

/-! ## Every step keeps the histories -/

theorem step_histories {f f' : Forest (MPair K V)} {histories : List (List (Event K V))}
    (h : f.Stands MPair.key HoldsHistory histories) {op : MapOp K V} {ans : Option (List V)}
    (hstep : MMap.step f op = some (ans, f')) :
    ∃ histories', History.step histories op = some (ans, histories') ∧ f'.Stands MPair.key HoldsHistory histories' := by
  have hcopied : ∀ {t t' : BPlusTree (MPair K V)} {s : List (Event K V)}, t'.items = t.items → HoldsHistory t s →
      HoldsHistory t' s := fun heq hs => ⟨by rw [heq]; exact hs.pair, by rw [heq]; exact hs.present⟩
  cases op with
  | create =>
    obtain ⟨rfl, rfl⟩ := Prod.mk.inj (Option.some.inj hstep)
    refine ⟨_, rfl, h.construct ⟨fun x hx => ?_, fun k hk => ?_⟩⟩
    · rw [items_nil] at hx
      cases hx
    · cases hk
  | insert i k v =>
    obtain ⟨t, ht, hstep⟩ := Option.bind_eq_some_iff.1 hstep
    rcases hins : MMap.insert t k v f.memory with ⟨t', m'⟩
    rw [hins] at hstep
    obtain ⟨rfl, rfl⟩ := Prod.mk.inj (Option.some.inj hstep)
    obtain ⟨s, hs, hroot, hholds⟩ := h.get ht
    obtain ⟨hroot', hkept, hholds'⟩ := insert_value hroot hholds k v hins
    refine ⟨histories.set i (s ++ [.insert k v]), ?_, h.set ht hroot' hholds' hkept⟩
    simp only [History.step, hs, Option.bind_eq_bind, Option.bind_some]
    rfl
  | insertKey i k =>
    obtain ⟨t, ht, hstep⟩ := Option.bind_eq_some_iff.1 hstep
    obtain ⟨s, hs, hroot, hholds⟩ := h.get ht
    rw [MMap.insertKey, contains_eq hroot hholds k] at hstep
    by_cases hpresent : History.present k s = true
    · rw [if_pos hpresent] at hstep
      cases hstep
    · rw [if_neg hpresent] at hstep
      rcases hins : t.insert MPair.key (MMap.probe k) f.memory with ⟨b, t', m'⟩
      rw [hins] at hstep
      obtain ⟨rfl, rfl⟩ := Prod.mk.inj (Option.some.inj hstep)
      obtain ⟨hroot', hkept, hitems, -⟩ := insert_spec hroot (MMap.probe k) hins
      have hnew : HoldsHistory t' (s ++ [.insertKey k]) := hholds.new hroot.sorted (eq_false_of_ne_true hpresent)
        (fun _ => rfl) (fun k' => decide_eq_decide.2 eq_comm) (fun _ _ => rfl) hitems
      refine ⟨histories.set i (s ++ [.insertKey k]), ?_, h.set ht hroot' hnew hkept⟩
      simp only [History.step, hs, Option.bind_eq_bind, Option.bind_some, if_neg hpresent]
      rfl
  | read i k =>
    obtain ⟨t, ht, hstep⟩ := Option.bind_eq_some_iff.1 hstep
    rcases hget : t.get MPair.key (MMap.probe k) f.memory with ⟨item, t', m'⟩
    rw [MMap.read, hget] at hstep
    obtain ⟨rfl, rfl⟩ := Prod.mk.inj (Option.some.inj hstep)
    obtain ⟨s, hs, hroot, hholds⟩ := h.get ht
    obtain ⟨hroot', hkept, hholds', hvalues⟩ := get_spec hroot hholds k hget
    refine ⟨histories.set i (s ++ [.read k]), ?_, h.set ht hroot' hholds' hkept⟩
    simp only [History.step, hs, Option.bind_eq_bind, Option.bind_some, hvalues]
    rfl
  | erase i k =>
    obtain ⟨t, ht, hstep⟩ := Option.bind_eq_some_iff.1 hstep
    rcases herase : t.erase MPair.key (MMap.probe k) f.memory with ⟨b, t', m'⟩
    rw [MMap.erase, herase] at hstep
    obtain ⟨rfl, rfl⟩ := Prod.mk.inj (Option.some.inj hstep)
    obtain ⟨s, hs, hroot, hholds⟩ := h.get ht
    obtain ⟨hroot', hkept, hitems, -⟩ := erase_spec hroot (MMap.probe k) herase
    refine ⟨histories.set i (s ++ [.erase k]), ?_, h.set ht hroot' (hholds.erase hitems) hkept⟩
    simp only [History.step, hs, Option.bind_eq_bind, Option.bind_some]
    rfl
  | copy source =>
    obtain ⟨f1, hcopy, hstep⟩ := Option.bind_eq_some_iff.1 hstep
    obtain ⟨rfl, rfl⟩ := Prod.mk.inj (Option.some.inj hstep)
    obtain ⟨s, hs, hstands⟩ := h.copy hcopied hcopy
    refine ⟨histories ++ [s], ?_, hstands⟩
    simp only [History.step, hs, Option.bind_eq_bind, Option.bind_some]
    rfl
  | assign i source =>
    obtain ⟨f1, hassign, hstep⟩ := Option.bind_eq_some_iff.1 hstep
    obtain ⟨rfl, rfl⟩ := Prod.mk.inj (Option.some.inj hstep)
    obtain ⟨s, s', hs, hs', hstands⟩ := h.assign hcopied hassign
    refine ⟨histories.set i s', ?_, hstands⟩
    simp only [History.step, hs, hs', Option.bind_eq_bind, Option.bind_some]
    rfl

/-- A step that cannot be taken with multimaps cannot be taken with histories. -/
theorem step_histories_none {f : Forest (MPair K V)} {histories : List (List (Event K V))}
    (h : f.Stands MPair.key HoldsHistory histories) {op : MapOp K V} (hstep : MMap.step f op = none) :
    History.step histories op = none := by
  cases op with
  | create => cases hstep
  | insert i k v =>
    cases ht : f.trees[i]? with
    | none => simp [History.step, h.none ht]
    | some t => simp [MMap.step, ht] at hstep
  | insertKey i k =>
    cases ht : f.trees[i]? with
    | none => simp [History.step, h.none ht]
    | some t =>
      obtain ⟨s, hs, hroot, hholds⟩ := h.get ht
      have hcontains := contains_eq hroot hholds k
      by_cases hpresent : History.present k s = true
      · simp [History.step, hs, hpresent]
      · simp [MMap.step, MMap.insertKey, ht, hcontains, hpresent] at hstep
  | read i k =>
    cases ht : f.trees[i]? with
    | none => simp [History.step, h.none ht]
    | some t => simp [MMap.step, ht] at hstep
  | erase i k =>
    cases ht : f.trees[i]? with
    | none => simp [History.step, h.none ht]
    | some t => simp [MMap.step, ht] at hstep
  | copy source =>
    cases hcopy : f.copy source with
    | none => simp [History.step, h.copy_none hcopy]
    | some f1 => simp [MMap.step, hcopy] at hstep
  | assign i source =>
    cases hassign : f.assign i source with
    | none =>
      rcases h.assign_none hassign with hi | hs
      · simp [History.step, hi]
      · simp [History.step, hs]
    | some f1 => simp [MMap.step, hassign] at hstep

theorem run_histories : ∀ {ops : List (MapOp K V)} {f f' : Forest (MPair K V)} {histories : List (List (Event K V))}
    {answers : List (Option (List V))}, f.Stands MPair.key HoldsHistory histories → MMap.run f ops = some (answers, f') →
      ∃ histories', History.run histories ops = some (answers, histories') ∧ f'.Stands MPair.key HoldsHistory histories'
  | [], f, f', histories, answers, h, hrun => by
    obtain ⟨rfl, rfl⟩ := Prod.mk.inj (Option.some.inj hrun)
    exact ⟨histories, rfl, h⟩
  | op :: ops, f, f', histories, answers, h, hrun => by
    obtain ⟨⟨ans, f1⟩, hstep, hrun⟩ := Option.bind_eq_some_iff.1 hrun
    obtain ⟨⟨answers', f2⟩, hrest, hrun⟩ := Option.bind_eq_some_iff.1 hrun
    obtain ⟨rfl, rfl⟩ := Prod.mk.inj (Option.some.inj hrun)
    obtain ⟨h1, hs1, hstands1⟩ := step_histories h hstep
    obtain ⟨h2, hs2, hstands2⟩ := run_histories hstands1 hrest
    refine ⟨h2, ?_, hstands2⟩
    simp only [History.run, hs1, hs2, Option.bind_eq_bind, Option.bind_some]
    rfl

theorem run_histories_none : ∀ {ops : List (MapOp K V)} {f : Forest (MPair K V)} {histories : List (List (Event K V))},
    f.Stands MPair.key HoldsHistory histories → MMap.run f ops = none → History.run histories ops = none
  | [], f, histories, _, hrun => by cases hrun
  | op :: ops, f, histories, h, hrun => by
    cases hstep : MMap.step f op with
    | none =>
      rw [History.run, step_histories_none h hstep]
      rfl
    | some r =>
      obtain ⟨h1, hs1, hstands1⟩ := step_histories h hstep
      have hrest : MMap.run r.2 ops = none := by
        cases hr : MMap.run r.2 ops with
        | none => rfl
        | some r' =>
          rw [MMap.run, hstep] at hrun
          simp [hr] at hrun
      rw [History.run, hs1]
      simp [run_histories_none hstands1 hrest]

/-- **The multimap is what its history says**: the keys, their values in the order of insertion, and the iteration. -/
structure Multimap (f : Forest (MPair K V)) (t : BPlusTree (MPair K V)) (history : List (Event K V)) : Prop where
  contains : ∀ k, MMap.contains t k = History.present k history
  atKey : ∀ k, MMap.atKey t k = if History.present k history then some (History.values k history) else none
  iteration : ∃ pairs : List (MPair K V), (∀ fuel > pairs.length, f.visitLoop fuel (Forest.begin t) = some pairs) ∧
    pairs.Pairwise (fun p q => p.key < q.key) ∧
    ∀ k values, ⟨k, values⟩ ∈ pairs ↔ History.present k history = true ∧ values = History.values k history

omit [Inhabited K] in
theorem multimap_of {f : Forest (MPair K V)} {histories : List (List (Event K V))}
    (h : f.Stands MPair.key HoldsHistory histories)
    {t : BPlusTree (MPair K V)} {history : List (Event K V)} (ht : t ∈ f.trees) (hroot : Rooted MPair.key f.memory t)
    (hholds : HoldsHistory t history) : Multimap f t history := by
  have hleafNode : ∀ l ∈ t.leaves, f.node l.id = some l := fun l hl => f.node_eq h.nodup ht ((leaves_sublist t).subset hl)
  obtain ⟨its, hlen, hbegin, hwalk⟩ := f.walk_tree hroot hleafNode
  refine ⟨contains_eq hroot hholds, atKey_eq hroot hholds, t.items, fun fuel hfuel => ?_, hroot.sorted,
    fun k values => ⟨?_, ?_⟩⟩
  · rw [hbegin]
    exact f.visitLoop_walk fuel hwalk (hlen ▸ hfuel)
  · exact fun hmem => hholds.pair _ hmem
  · rintro ⟨hpresent, rfl⟩
    obtain ⟨x, hx, rfl⟩ := hholds.present k hpresent
    rw [← (hholds.pair x hx).2]
    exact hx

/-- **`MMap` is a multimap with insertion order**: after every run the lists read are those of the histories, and every multimap
is what its history says. -/
theorem run_multimaps (ops : List (MapOp K V)) :
    Option.Rel (fun maps histories => maps.1 = histories.1 ∧ List.Forall₂ (Multimap maps.2) maps.2.trees histories.2)
      (MMap.run Forest.new ops) (History.run [] ops) := by
  cases hrun : MMap.run (Forest.new : Forest (MPair K V)) ops with
  | none =>
    rw [run_histories_none Forest.stands_new hrun]
    exact Option.Rel.none
  | some r =>
    obtain ⟨histories, hs, hstands⟩ := run_histories Forest.stands_new hrun
    rw [hs]
    exact Option.Rel.some ⟨rfl, Forest.forall₂_mem hstands.trees (fun t ht s h => multimap_of hstands ht h.1 h.2)⟩

end Standing

end BPlus
end Sql
