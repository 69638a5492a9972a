import Mathlib.Data.List.Sort
import Mathlib.Data.List.Pairwise
/-!
# OrderedMap — maps and multimaps as ascending lists of items

A library: what an ordered tree of key-value items shows to its user.  A map is the list of its items with the keys
strictly ascending.  `alter` is the one way to write: it puts a key with the value a function makes of the one that was
there.  A multimap keeps a list of values for each key; an iterator is the list of the items still to come, so that the
null iterator, which is the end, is the empty one.
-/
namespace Maps

/-! ## Ascending lists -/

section Lists
variable {K V : Type} [LinearOrder K]

/-- The keys are strictly ascending. -/
def Ascending (items : List (K × V)) : Prop := items.Pairwise (fun a b => a.1 < b.1)

/-- The items with the value of `k` altered. -/
def alterItems (k : K) (f : Option V → V) : List (K × V) → List (K × V)
  | [] => [(k, f none)]
  | item :: items =>
    if k < item.1 then (k, f none) :: item :: items
    else if item.1 < k then item :: alterItems k f items
    else (item.1, f (some item.2)) :: items

def lookupItems (k : K) (items : List (K × V)) : Option V := (items.find? (fun item => decide (item.1 = k))).map Prod.snd

@[simp] theorem lookupItems_nil (k : K) : lookupItems k ([] : List (K × V)) = none := rfl

theorem lookupItems_cons (k : K) (item : K × V) (items : List (K × V)) :
    lookupItems k (item :: items) = if item.1 = k then some item.2 else lookupItems k items := by
  by_cases h : item.1 = k
  · simp [lookupItems, h]
  · simp [lookupItems, h]

theorem lookupItems_lt {k : K} {items : List (K × V)} (h : ∀ item ∈ items, k < item.1) : lookupItems k items = none := by
  rw [lookupItems, List.find?_eq_none.2 (fun item hi => by simpa using (h item hi).ne'), Option.map_none]

/-- Every key of the altered items is the altered one, or was there. -/
theorem mem_alterItems {k : K} {f : Option V → V} : ∀ {items : List (K × V)} {item : K × V},
    item ∈ alterItems k f items → item.1 = k ∨ item ∈ items
  | [], item, h => Or.inl (by rw [List.mem_singleton.1 h])
  | head :: items, item, h => by
    rw [alterItems] at h
    split at h
    · rcases List.mem_cons.1 h with rfl | h
      · exact Or.inl rfl
      · exact Or.inr h
    · split at h
      · rcases List.mem_cons.1 h with rfl | h
        · exact Or.inr List.mem_cons_self
        · exact (mem_alterItems h).imp id (List.mem_cons_of_mem head)
      · rcases List.mem_cons.1 h with rfl | h
        · exact Or.inl (le_antisymm (not_lt.1 ‹_›) (not_lt.1 ‹_›))
        · exact Or.inr (List.mem_cons_of_mem head h)

theorem Ascending.alterItems {k : K} {f : Option V → V} : ∀ {items : List (K × V)}, Ascending items →
    Ascending (alterItems k f items)
  | [], _ => List.pairwise_singleton _ _
  | head :: items, h => by
    obtain ⟨hhead, hitems⟩ := List.pairwise_cons.1 h
    rw [Maps.alterItems]
    split
    · rename_i hk
      refine List.pairwise_cons.2 ⟨fun item hi => ?_, h⟩
      rcases List.mem_cons.1 hi with rfl | hi
      · exact hk
      · exact lt_trans hk (hhead item hi)
    · split
      · rename_i hk
        refine List.pairwise_cons.2 ⟨fun item hi => ?_, Ascending.alterItems hitems⟩
        rcases mem_alterItems hi with rfl | hi
        · exact hk
        · exact hhead item hi
      · exact List.pairwise_cons.2 ⟨hhead, hitems⟩

theorem lookupItems_alterItems (k k' : K) (f : Option V → V) : ∀ {items : List (K × V)}, Ascending items →
    lookupItems k' (alterItems k f items) = if k' = k then some (f (lookupItems k items)) else lookupItems k' items
  | [], _ => by
    rw [alterItems, lookupItems_cons, lookupItems_nil, lookupItems_nil]
    simp only [eq_comm]
  | head :: items, h => by
    obtain ⟨hhead, hitems⟩ := List.pairwise_cons.1 h
    rw [alterItems]
    split
    · rename_i hk
      have hnone : lookupItems k (head :: items) = none := lookupItems_lt (fun item hi => by
        rcases List.mem_cons.1 hi with rfl | hi
        · exact hk
        · exact lt_trans hk (hhead item hi))
      rw [lookupItems_cons, hnone]
      simp only [eq_comm]
    · split
      · rename_i hk
        rw [lookupItems_cons, lookupItems_alterItems k k' f hitems, lookupItems_cons k', lookupItems_cons k, if_neg hk.ne]
        by_cases h1 : head.1 = k'
        · rw [if_pos h1, if_pos h1, if_neg (h1 ▸ hk.ne)]
        · rw [if_neg h1, if_neg h1]
      · have hk : head.1 = k := le_antisymm (not_lt.1 ‹_›) (not_lt.1 ‹_›)
        rw [lookupItems_cons, lookupItems_cons k', lookupItems_cons k, if_pos hk, hk]
        by_cases h1 : k = k'
        · rw [if_pos h1, if_pos h1.symm]
        · rw [if_neg h1, if_neg h1, if_neg (fun h2 => h1 h2.symm)]

theorem mem_of_lookupItems {k : K} {v : V} {items : List (K × V)} (h : lookupItems k items = some v) : (k, v) ∈ items := by
  rw [lookupItems, Option.map_eq_some_iff] at h
  obtain ⟨item, hfind, rfl⟩ := h
  obtain rfl : item.1 = k := by simpa using List.find?_some hfind
  exact List.mem_of_find?_eq_some hfind

theorem Ascending.lookupItems_mem {k : K} {v : V} : ∀ {items : List (K × V)}, Ascending items → (k, v) ∈ items →
    lookupItems k items = some v
  | head :: items, h, hmem => by
    obtain ⟨hhead, hitems⟩ := List.pairwise_cons.1 h
    rw [lookupItems_cons]
    rcases List.mem_cons.1 hmem with rfl | hmem
    · rw [if_pos rfl]
    · rw [if_neg (hhead _ hmem).ne, Ascending.lookupItems_mem hitems hmem]

/-- Only the value that is there matters. -/
theorem Ascending.alterItems_congr {k : K} {f g : Option V → V} : ∀ {items : List (K × V)}, Ascending items →
    f (lookupItems k items) = g (lookupItems k items) → Maps.alterItems k f items = Maps.alterItems k g items
  | [], _, hfg => by rw [Maps.alterItems, Maps.alterItems, show f none = g none from hfg]
  | head :: items, h, hfg => by
    obtain ⟨hhead, hitems⟩ := List.pairwise_cons.1 h
    rw [Maps.alterItems, Maps.alterItems]
    split
    · rename_i hk
      rw [lookupItems_lt (fun item hi => by
        rcases List.mem_cons.1 hi with rfl | hi
        · exact hk
        · exact lt_trans hk (hhead item hi))] at hfg
      rw [hfg]
    · split
      · rename_i hk
        rw [lookupItems_cons, if_neg hk.ne] at hfg
        rw [Ascending.alterItems_congr hitems hfg]
      · have hk : head.1 = k := le_antisymm (not_lt.1 ‹_›) (not_lt.1 ‹_›)
        rw [lookupItems_cons, if_pos hk] at hfg
        rw [hfg]

/-- A value that is altered to itself. -/
theorem alterItems_self {k : K} {v : V} {f : Option V → V} (hf : f (some v) = v) : ∀ {items : List (K × V)},
    Ascending items →
    lookupItems k items = some v → Maps.alterItems k f items = items
  | head :: items, h, hv => by
    obtain ⟨hhead, hitems⟩ := List.pairwise_cons.1 h
    rw [Maps.alterItems]
    split
    · rename_i hk
      rw [lookupItems_lt (fun item hi => by
        rcases List.mem_cons.1 hi with rfl | hi
        · exact hk
        · exact lt_trans hk (hhead item hi))] at hv
      cases hv
    · split
      · rename_i hk
        rw [lookupItems_cons, if_neg hk.ne] at hv
        rw [alterItems_self hf hitems hv]
      · have hk : head.1 = k := le_antisymm (not_lt.1 ‹_›) (not_lt.1 ‹_›)
        rw [lookupItems_cons, if_pos hk] at hv
        obtain rfl : head.2 = v := Option.some.inj hv
        rw [hf]

/-- Altering twice. -/
theorem alterItems_again {k : K} (f g : Option V → V) : ∀ {items : List (K × V)}, Ascending items →
    Maps.alterItems k g (Maps.alterItems k f items) = Maps.alterItems k (fun old => g (some (f old))) items
  | [], _ => by
    rw [Maps.alterItems, Maps.alterItems, Maps.alterItems]
    simp
  | head :: items, h => by
    obtain ⟨hhead, hitems⟩ := List.pairwise_cons.1 h
    rw [Maps.alterItems, Maps.alterItems]
    split
    · rw [Maps.alterItems]
      simp
    · rename_i hle
      split
      · rename_i hk
        rw [Maps.alterItems, if_neg hle, if_pos hk, alterItems_again f g hitems]
      · rename_i hge
        rw [Maps.alterItems, if_neg hle, if_neg hge]

/-- In front of a bound the items are the smaller ones. -/
theorem Ascending.dropWhile_eq {items : List (K × V)} (h : Ascending items) (p : K → Bool)
    (hp : ∀ a b, a < b → p b = true → p a = true) :
    items.dropWhile (fun item => p item.1) = items.filter (fun item => !p item.1) := by
  induction items with
  | nil => rfl
  | cons head items ih =>
    obtain ⟨hhead, hitems⟩ := List.pairwise_cons.1 h
    cases hc : p head.1 with
    | true => rw [List.dropWhile_cons, if_pos hc, List.filter_cons_of_neg (by simp [hc]), ih hitems]
    | false =>
      have hall : ∀ item ∈ items, (!p item.1) = true := fun item hi => by
        rw [Bool.not_eq_true']
        exact Bool.eq_false_iff.2 (fun hpi => by rw [hp _ _ (hhead item hi) hpi] at hc; cases hc)
      rw [List.dropWhile_cons, if_neg (by simp [hc]), List.filter_cons_of_pos (by simp [hc]), List.filter_eq_self.2 hall]

theorem Ascending.takeWhile_eq {items : List (K × V)} (h : Ascending items) (p : K → Bool)
    (hp : ∀ a b, a < b → p b = true → p a = true) :
    items.takeWhile (fun item => p item.1) = items.filter (fun item => p item.1) := by
  induction items with
  | nil => rfl
  | cons head items ih =>
    obtain ⟨hhead, hitems⟩ := List.pairwise_cons.1 h
    cases hc : p head.1 with
    | true => rw [List.takeWhile_cons, if_pos hc, List.filter_cons, if_pos hc, ih hitems]
    | false =>
      have hall : ∀ item ∈ items, ¬ p item.1 = true := fun item hi hpi => by
        rw [hp _ _ (hhead item hi) hpi] at hc
        cases hc
      rw [List.takeWhile_cons, if_neg (by simp [hc]), List.filter_cons_of_neg (by simp [hc]), List.filter_eq_nil_iff.2 hall]

theorem Ascending.nodup {items : List (K × V)} (h : Ascending items) : items.Nodup :=
  List.Pairwise.imp (fun hlt heq => absurd (heq ▸ hlt) (lt_irrefl _)) h

end Lists

/-! ## Maps -/

structure OrderedMap (K V : Type) [LinearOrder K] where
  items : List (K × V)
  ascending : Ascending items

namespace OrderedMap
variable {K V : Type} [LinearOrder K]

def empty : OrderedMap K V := ⟨[], List.Pairwise.nil⟩

def lookup (m : OrderedMap K V) (k : K) : Option V := lookupItems k m.items

def contains (m : OrderedMap K V) (k : K) : Bool := (m.lookup k).isSome

def alter (m : OrderedMap K V) (k : K) (f : Option V → V) : OrderedMap K V :=
  ⟨alterItems k f m.items, m.ascending.alterItems⟩

/-- `m[k] = v`. -/
def assign (m : OrderedMap K V) (k : K) (v : V) : OrderedMap K V := m.alter k (fun _ => v)

def erase (m : OrderedMap K V) (k : K) : OrderedMap K V :=
  ⟨m.items.filter (fun item => decide (item.1 ≠ k)), m.ascending.filter _⟩

@[simp] theorem lookup_empty (k : K) : (empty : OrderedMap K V).lookup k = none := rfl

@[simp] theorem lookup_alter (m : OrderedMap K V) (k k' : K) (f : Option V → V) :
    (m.alter k f).lookup k' = if k' = k then some (f (m.lookup k)) else m.lookup k' :=
  lookupItems_alterItems k k' f m.ascending

/-- Altering what is not there is an assignment. -/
theorem alter_absent {m : OrderedMap K V} {k : K} (h : m.contains k ≠ true) (f : Option V → V) :
    m.alter k f = m.assign k (f none) := by
  have hnone : lookupItems k m.items = none := Option.not_isSome_iff_eq_none.1 h
  unfold assign alter
  congr 1
  exact m.ascending.alterItems_congr (by rw [hnone])

@[simp] theorem lookup_assign (m : OrderedMap K V) (k k' : K) (v : V) :
    (m.assign k v).lookup k' = if k' = k then some v else m.lookup k' := lookup_alter m k k' _

theorem mem_items {m : OrderedMap K V} {k : K} {v : V} : (k, v) ∈ m.items ↔ m.lookup k = some v :=
  ⟨m.ascending.lookupItems_mem, mem_of_lookupItems⟩

@[simp] theorem lookup_erase (m : OrderedMap K V) (k k' : K) :
    (m.erase k).lookup k' = if k' = k then none else m.lookup k' := by
  refine Option.ext (fun v => ?_)
  rw [← mem_items, erase, List.mem_filter, mem_items]
  by_cases h : k' = k
  · simp [h]
  · simp [h]

end OrderedMap

/-! ## Multimaps -/

abbrev MMap (K V : Type) [LinearOrder K] := OrderedMap K (List V)

namespace MMap
variable {K V : Type} [LinearOrder K]

/-- What the reference `m[k]` reads; a missing key is inserted with no values. -/
def get (m : MMap K V) (k : K) : List V := (m.lookup k).getD []

/-- The map after `m[k]` has been read. -/
def touch (m : MMap K V) (k : K) : MMap K V := m.alter k (fun values => values.getD [])

/-- `m[k] += v`. -/
def push (m : MMap K V) (k : K) (v : V) : MMap K V := m.alter k (fun values => values.getD [] ++ [v])

def insert (m : MMap K V) (k : K) (v : V) : MMap K V := if m.contains k then m.push k v else m.assign k [v]

theorem insert_eq_push (m : MMap K V) (k : K) (v : V) : m.insert k v = m.push k v := by
  unfold insert
  cases h : m.lookup k with
  | some values => rw [if_pos (by rw [OrderedMap.contains, h, Option.isSome_some])]
  | none =>
    rw [if_neg (by rw [OrderedMap.contains, h, Option.isSome_none]; exact Bool.false_ne_true)]
    unfold OrderedMap.assign push OrderedMap.alter
    congr 1
    exact m.ascending.alterItems_congr (by rw [show lookupItems k m.items = none from h]; rfl)

/-- `insert_key` of a key that is not there. -/
def insertKey (m : MMap K V) (k : K) : MMap K V := m.assign k []

@[simp] theorem get_empty (k : K) : get (.empty : MMap K V) k = [] := rfl

@[simp] theorem get_push (m : MMap K V) (k k' : K) (v : V) :
    (m.push k v).get k' = if k' = k then m.get k ++ [v] else m.get k' := by
  rw [get, push, OrderedMap.lookup_alter]
  split
  · rfl
  · rfl

@[simp] theorem get_insert (m : MMap K V) (k k' : K) (v : V) :
    (m.insert k v).get k' = if k' = k then m.get k ++ [v] else m.get k' := by
  rw [insert_eq_push, get_push]

@[simp] theorem get_insertKey (m : MMap K V) (k k' : K) : (m.insertKey k).get k' = if k' = k then [] else m.get k' := by
  rw [get, insertKey, OrderedMap.lookup_assign]
  split
  · rfl
  · rfl

@[simp] theorem get_touch (m : MMap K V) (k k' : K) : (m.touch k).get k' = m.get k' := by
  rw [get, touch, OrderedMap.lookup_alter]
  split
  · rename_i h
    rw [h]
    rfl
  · rfl

@[simp] theorem get_erase (m : MMap K V) (k k' : K) : get (m.erase k) k' = if k' = k then [] else m.get k' := by
  rw [get, OrderedMap.lookup_erase]
  split
  · rfl
  · rfl

/-! Iterators are the items from there on. -/

def begin (m : MMap K V) : List (K × List V) := m.items

def lowerBound (m : MMap K V) (k : K) : List (K × List V) := m.items.dropWhile (fun item => decide (item.1 < k))

def upperBound (m : MMap K V) (k : K) : List (K × List V) := m.items.dropWhile (fun item => decide (item.1 ≤ k))

end MMap
end Maps
