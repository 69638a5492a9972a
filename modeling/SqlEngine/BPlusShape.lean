import SqlEngine.BPlusTree
import Mathlib.Data.List.Induction
import Mathlib.Data.List.Pairwise
import Mathlib.Tactic.Linarith
/-!
# BPlusShape — what a B+ tree holds, and how a search descends

The leaves of a tree from left to right, their items, and the shape an operation keeps (`Good`): leaves at one depth, one
child more than items, every item of an internal node the least of the subtree to its right.  `descend` says where a
search goes on: what lies to the left of that child is less than the entry, what lies to the right is greater.
-/
namespace Sql
namespace BPlus

/-! ## Sorted lists -/

section Lists
variable {α K : Type} [LinearOrder K] (key : α → K)

/-- The keys are strictly ascending. -/
def Sorted (items : List α) : Prop := items.Pairwise (fun a b => key a < key b)

/-- The items with an entry among them, unless its key is there. -/
def insertSorted (entry : α) : List α → List α
  | [] => [entry]
  | x :: items =>
    if key entry < key x then entry :: x :: items
    else if key x < key entry then x :: insertSorted entry items
    else x :: items

def eraseSorted (k : K) (items : List α) : List α := items.filter (fun x => key x ≠ k)

/-- Is there an item with this key? -/
def Holds (k : K) (items : List α) : Prop := ∃ x ∈ items, key x = k

variable {key}

theorem insertSorted_left {entry : α} {items : List α} : ∀ {left : List α}, (∀ x ∈ left, key x < key entry) →
    insertSorted key entry (left ++ items) = left ++ insertSorted key entry items
  | [], _ => rfl
  | x :: left, h => by
    have hx := h x List.mem_cons_self
    rw [List.cons_append, insertSorted, if_neg hx.not_gt, if_pos hx,
      insertSorted_left (fun y hy => h y (List.mem_cons_of_mem x hy)), List.cons_append]

theorem insertSorted_right {entry : α} {right : List α} (h : ∀ x ∈ right, key entry < key x) : ∀ {items : List α},
    insertSorted key entry (items ++ right) = insertSorted key entry items ++ right
  | [] => by
    cases right with
    | nil => rfl
    | cons x right => exact if_pos (h x List.mem_cons_self)
  | x :: items => by
    rw [List.cons_append, insertSorted, insertSorted, insertSorted_right h]
    by_cases h1 : key entry < key x
    · rw [if_pos h1, if_pos h1, List.cons_append, List.cons_append]
    · rw [if_neg h1, if_neg h1]
      by_cases h2 : key x < key entry
      · rw [if_pos h2, if_pos h2, List.cons_append]
      · rw [if_neg h2, if_neg h2, List.cons_append]

theorem mem_insertSorted {entry x : α} : ∀ {items : List α}, x ∈ insertSorted key entry items → x = entry ∨ x ∈ items
  | [], h => Or.inl (List.mem_singleton.1 h)
  | y :: items, h => by
    rw [insertSorted] at h
    by_cases h1 : key entry < key y
    · rw [if_pos h1] at h
      exact List.mem_cons.1 h
    · rw [if_neg h1] at h
      by_cases h2 : key y < key entry
      · rw [if_pos h2] at h
        rcases List.mem_cons.1 h with rfl | h
        · exact Or.inr List.mem_cons_self
        · exact (mem_insertSorted h).imp_right (List.mem_cons_of_mem y)
      · rw [if_neg h2] at h
        exact Or.inr h

theorem Sorted.insert {entry : α} : ∀ {items : List α}, Sorted key items → Sorted key (insertSorted key entry items)
  | [], _ => List.pairwise_singleton _ _
  | x :: items, h => by
    obtain ⟨hx, hitems⟩ := List.pairwise_cons.1 h
    rw [insertSorted]
    by_cases h1 : key entry < key x
    · rw [if_pos h1]
      refine List.pairwise_cons.2 ⟨fun y hy => ?_, h⟩
      rcases List.mem_cons.1 hy with rfl | hy
      · exact h1
      · exact h1.trans (hx y hy)
    · rw [if_neg h1]
      by_cases h2 : key x < key entry
      · rw [if_pos h2]
        refine List.pairwise_cons.2 ⟨fun y hy => ?_, Sorted.insert hitems⟩
        rcases mem_insertSorted hy with rfl | hy
        · exact h2
        · exact hx y hy
      · rw [if_neg h2]
        exact h

theorem Sorted.erase {k : K} {items : List α} (h : Sorted key items) : Sorted key (eraseSorted key k items) := h.filter _

theorem eraseSorted_append (k : K) (xs ys : List α) :
    eraseSorted key k (xs ++ ys) = eraseSorted key k xs ++ eraseSorted key k ys := List.filter_append ..

theorem eraseSorted_of_ne {k : K} {items : List α} (h : ∀ x ∈ items, key x ≠ k) : eraseSorted key k items = items :=
  List.filter_eq_self.2 (fun x hx => by simpa using h x hx)

/-- The first item stays in front unless it is the erased one. -/
theorem head_eraseSorted {k : K} {x : α} {items : List α} (h : key x ≠ k) :
    (eraseSorted key k (x :: items)).head? = some x := by
  rw [eraseSorted, List.filter_cons_of_pos (by simpa using h)]
  rfl

/-- The first item stays in front of an entry that is not less. -/
theorem head_insertSorted {entry x : α} {items : List α} (h : key x ≤ key entry) :
    (insertSorted key entry (x :: items)).head? = some x := by
  rw [insertSorted, if_neg h.not_gt]
  by_cases h2 : key x < key entry
  · rw [if_pos h2]
    rfl
  · rw [if_neg h2]
    rfl

/-! ## Searching an array -/

theorem firstGe_append {entry : α} {right : List α} (hr : ∀ x ∈ right.head?, key entry ≤ key x) : ∀ {left : List α},
    (∀ x ∈ left, key x < key entry) → firstGe key (left ++ right) entry = left.length
  | [], _ => by
    cases right with
    | nil => rfl
    | cons x right => rw [List.nil_append, firstGe, if_pos (not_lt.2 (hr x rfl))]; rfl
  | x :: left, h => by
    rw [List.cons_append, firstGe, if_neg (not_not.2 (h x List.mem_cons_self)),
      firstGe_append hr (fun y hy => h y (List.mem_cons_of_mem x hy)), List.length_cons]

variable (key) in
/-- Where `first_ge` cuts an array. -/
theorem firstGe_cut (entry : α) : ∀ data : List α, ∃ left right, data = left ++ right ∧
    firstGe key data entry = left.length ∧ (∀ x ∈ left, key x < key entry) ∧ ∀ x ∈ right.head?, key entry ≤ key x
  | [] => ⟨[], [], rfl, rfl, by simp, by simp⟩
  | x :: data => by
    by_cases h : key x < key entry
    · obtain ⟨left, right, rfl, hge, hleft, hright⟩ := firstGe_cut entry data
      refine ⟨x :: left, right, rfl, ?_, fun y hy => ?_, hright⟩
      · rw [firstGe, if_neg (not_not.2 h), hge, List.length_cons]
      · rcases List.mem_cons.1 hy with rfl | hy
        · exact h
        · exact hleft y hy
    · refine ⟨[], x :: data, rfl, ?_, by simp, fun y hy => ?_⟩
      · rw [firstGe, if_pos h]
        rfl
      · obtain rfl : x = y := Option.some.inj hy
        exact not_lt.1 h

theorem foundAt_append (entry : α) (left right : List α) : foundAt key (left ++ right) left.length entry =
    foundAt key right 0 entry := by
  simp [foundAt, List.getElem?_append_right]

theorem foundAt_head {entry x : α} {right : List α} (h : key entry ≤ key x) :
    foundAt key (x :: right) 0 entry = true ↔ key x = key entry := by
  simp only [foundAt, List.getElem?_cons_zero, decide_eq_true_eq, not_lt]
  exact ⟨fun hx => le_antisymm hx h, fun hx => hx.le⟩

/-- In a sorted array the search finds the key, if it is there. -/
theorem foundAt_iff {entry : α} {data : List α} (h : Sorted key data) :
    foundAt key data (firstGe key data entry) entry = true ↔ Holds key (key entry) data := by
  obtain ⟨left, right, rfl, hge, hleft, hright⟩ := firstGe_cut key entry data
  rw [hge, foundAt_append]
  cases right with
  | nil =>
    refine ⟨fun hf => by simp [foundAt] at hf, fun ⟨x, hx, hk⟩ => ?_⟩
    rw [List.append_nil] at hx
    exact absurd hk (hleft x hx).ne
  | cons x right =>
    rw [foundAt_head (hright x rfl)]
    constructor
    · exact fun hk => ⟨x, List.mem_append_right left List.mem_cons_self, hk⟩
    · rintro ⟨y, hy, hk⟩
      rcases List.mem_append.1 hy with hy | hy
      · exact absurd hk (hleft y hy).ne
      · rcases List.mem_cons.1 hy with rfl | hy
        · exact hk
        · have hxy := (List.pairwise_cons.1 (List.pairwise_append.1 h).2.1).1 y hy
          exact absurd hk (lt_of_le_of_lt (hright x rfl) hxy).ne'

end Lists

/-! ## Trees -/

namespace BPlusTree
variable {α K : Type} (key : α → K)

mutual
/-- The leaves from left to right. -/
def leaves : BPlusTree α → List (BPlusTree α)
  | ⟨id, data, subset⟩ => if subset = [] then [⟨id, data, subset⟩] else leavesOf subset
def leavesOf : List (BPlusTree α) → List (BPlusTree α)
  | [] => []
  | child :: children => leaves child ++ leavesOf children
end

mutual
/-- All nodes. -/
def nodes : BPlusTree α → List (BPlusTree α)
  | ⟨id, data, subset⟩ => ⟨id, data, subset⟩ :: nodesOf subset
def nodesOf : List (BPlusTree α) → List (BPlusTree α)
  | [] => []
  | child :: children => nodes child ++ nodesOf children
end

def items (t : BPlusTree α) : List α := t.leaves.flatMap data

def leafIds (t : BPlusTree α) : List Nat := t.leaves.map BPlusTree.id

def ids (t : BPlusTree α) : List Nat := t.nodes.map BPlusTree.id

theorem leavesOf_eq : ∀ children : List (BPlusTree α), leavesOf children = children.flatMap leaves
  | [] => rfl
  | child :: children => by rw [leavesOf, leavesOf_eq children, List.flatMap_cons]

theorem nodesOf_eq : ∀ children : List (BPlusTree α), nodesOf children = children.flatMap nodes
  | [] => rfl
  | child :: children => by rw [nodesOf, nodesOf_eq children, List.flatMap_cons]

theorem leaves_leaf {t : BPlusTree α} (h : t.subset = []) : t.leaves = [t] := by
  cases t
  exact if_pos h

theorem leaves_node {t : BPlusTree α} (h : t.subset ≠ []) : t.leaves = t.subset.flatMap leaves := by
  cases t
  rw [← leavesOf_eq]
  exact if_neg h

theorem nodes_eq (t : BPlusTree α) : t.nodes = t :: t.subset.flatMap nodes := by
  cases t
  rw [nodes, nodesOf_eq]

theorem items_leaf {t : BPlusTree α} (h : t.subset = []) : t.items = t.data := by
  rw [items, leaves_leaf h, List.flatMap_singleton]

theorem items_node {t : BPlusTree α} (h : t.subset ≠ []) : t.items = t.subset.flatMap items := by
  rw [items, leaves_node h, List.flatMap_assoc]
  rfl

theorem leafIds_leaf {t : BPlusTree α} (h : t.subset = []) : t.leafIds = [t.id] := by
  rw [leafIds, leaves_leaf h, List.map_singleton]

theorem leafIds_node {t : BPlusTree α} (h : t.subset ≠ []) : t.leafIds = t.subset.flatMap leafIds := by
  rw [leafIds, leaves_node h, List.map_flatMap]
  rfl

@[simp] theorem items_nil (id : Nat) (data : List α) : (⟨id, data, []⟩ : BPlusTree α).items = data := items_leaf rfl

@[simp] theorem items_cons (id : Nat) (data : List α) (c : BPlusTree α) (cs : List (BPlusTree α)) :
    (⟨id, data, c :: cs⟩ : BPlusTree α).items = c.items ++ cs.flatMap items := by
  rw [items_node (List.cons_ne_nil c cs), List.flatMap_cons]

@[simp] theorem leafIds_nil (id : Nat) (data : List α) : (⟨id, data, []⟩ : BPlusTree α).leafIds = [id] := leafIds_leaf rfl

@[simp] theorem leafIds_cons (id : Nat) (data : List α) (c : BPlusTree α) (cs : List (BPlusTree α)) :
    (⟨id, data, c :: cs⟩ : BPlusTree α).leafIds = c.leafIds ++ cs.flatMap leafIds := by
  rw [leafIds_node (List.cons_ne_nil c cs), List.flatMap_cons]

theorem ids_eq (t : BPlusTree α) : t.ids = t.id :: t.subset.flatMap ids := by
  rw [ids, nodes_eq, List.map_cons, List.map_flatMap]
  rfl

@[simp] theorem ids_mk (id : Nat) (data : List α) (cs : List (BPlusTree α)) :
    (⟨id, data, cs⟩ : BPlusTree α).ids = id :: cs.flatMap ids := ids_eq _

/-- The item is the least of the subtree to its right. -/
def Sep (d : α) (right : BPlusTree α) : Prop := right.items.head?.map key = some (key d)

/-- No more and no fewer items than a node below the root may have. -/
def Full (t : BPlusTree α) : Prop := minimum ≤ t.data.length ∧ t.data.length ≤ maximum

/-- **The shape of a tree with its leaves at depth `n`**, but for the number of items in its root. -/
def Good : Nat → BPlusTree α → Prop
  | 0, t => t.subset = []
  | n + 1, t => t.subset ≠ [] ∧ List.Forall₂ (Sep key) t.data t.subset.tail ∧ ∀ c ∈ t.subset, Good n c ∧ c.Full

variable {key}

theorem Full.pos {t : BPlusTree α} (h : t.Full) : 0 < t.data.length := h.1

theorem Full.le {t : BPlusTree α} (h : t.Full) : t.data.length ≤ 2 := h.2

theorem full_of {t : BPlusTree α} (h1 : 0 < t.data.length) (h2 : t.data.length ≤ 2) : t.Full := ⟨h1, h2⟩

theorem Good.length {n : Nat} {t : BPlusTree α} (h : Good key (n + 1) t) : t.subset.length = t.data.length + 1 := by
  have hlen := h.2.1.length_eq
  have hpos := List.length_pos_iff.2 h.1
  rw [List.length_tail] at hlen
  omega

theorem Good.items_ne : ∀ {n : Nat} {t : BPlusTree α}, Good key n t → t.Full → t.items ≠ []
  | 0, t, h, hf => by
    rw [items_leaf h]
    exact List.ne_nil_of_length_pos hf.pos
  | n + 1, t, h, _ => by
    obtain ⟨c, hc⟩ := List.exists_mem_of_ne_nil _ h.1
    obtain ⟨x, hx⟩ := List.exists_mem_of_ne_nil _ (Good.items_ne (h.2.2 c hc).1 (h.2.2 c hc).2)
    rw [items_node h.1]
    exact List.ne_nil_of_mem (List.mem_flatMap.2 ⟨c, hc, hx⟩)

/-! ## The child a search goes on in -/

/-- A node around one of its children. -/
structure Focus (key : α → K) (t : BPlusTree α) (left : List (BPlusTree α)) (c : BPlusTree α)
    (right : List (BPlusTree α)) (dataLeft dataRight : List α) : Prop where
  subset_eq : t.subset = left ++ c :: right
  data_eq : t.data = dataLeft ++ dataRight
  left_sep : List.Forall₂ (Sep key) dataLeft (left ++ [c]).tail
  right_sep : List.Forall₂ (Sep key) dataRight right

theorem Focus.length {t c : BPlusTree α} {left right : List (BPlusTree α)} {dl dr : List α}
    (h : Focus key t left c right dl dr) : dl.length = left.length := by
  have := h.left_sep.length_eq
  simpa using this

theorem tail_append_cons (left : List (BPlusTree α)) (c : BPlusTree α) (right : List (BPlusTree α)) :
    (left ++ c :: right).tail = (left ++ [c]).tail ++ right := by
  cases left with
  | nil => rfl
  | cons l left => simp

/-- Cut a node at the child behind its first items. -/
theorem Good.focus {n : Nat} {t : BPlusTree α} (h : Good key (n + 1) t) {dl dr : List α} (hdata : t.data = dl ++ dr) :
    ∃ left c right, Focus key t left c right dl dr := by
  have hlen := h.length
  have hlt : dl.length < t.subset.length := by
    rw [hlen, hdata, List.length_append]
    omega
  have hcut : t.subset = t.subset.take dl.length ++ t.subset[dl.length] :: t.subset.drop (dl.length + 1) := by
    rw [← List.drop_eq_getElem_cons hlt, List.take_append_drop]
  have hleft : (t.subset.take dl.length ++ [t.subset[dl.length]]).tail.length = dl.length := by
    simp only [List.length_tail, List.length_append, List.length_take, List.length_singleton]
    omega
  have hsep := h.2.1
  rw [hdata, hcut, tail_append_cons] at hsep
  have hfront := List.forall₂_take_append _ _ _ hsep
  have hback := List.forall₂_drop_append _ _ _ hsep
  rw [hleft, List.take_left] at hfront
  rw [hleft, List.drop_left] at hback
  exact ⟨_, _, _, hcut, hdata, hfront, hback⟩

theorem Focus.items {t c : BPlusTree α} {left right : List (BPlusTree α)} {dl dr : List α}
    (h : Focus key t left c right dl dr) : t.items = left.flatMap items ++ c.items ++ right.flatMap items := by
  rw [items_node (by rw [h.subset_eq]; simp), h.subset_eq, List.flatMap_append, List.flatMap_cons, List.append_assoc]

theorem Focus.mem {t c : BPlusTree α} {left right : List (BPlusTree α)} {dl dr : List α}
    (h : Focus key t left c right dl dr) : c ∈ t.subset := by
  rw [h.subset_eq]
  exact List.mem_append_right left List.mem_cons_self

end BPlusTree

namespace BPlusTree
variable {α K : Type} [LinearOrder K] {key : α → K}

omit [LinearOrder K] in
/-- The items of a node are among the keys of its leaves, in their order. -/
theorem sep_sublist : ∀ {data : List α} {children : List (BPlusTree α)}, List.Forall₂ (Sep key) data children →
    (data.map key).Sublist ((children.flatMap items).map key)
  | _, _, .nil => List.Sublist.refl _
  | d :: data, c :: children, .cons hd h => by
    have hrest := sep_sublist h
    rw [List.map_cons, List.flatMap_cons, List.map_append]
    cases hc : c.items with
    | nil =>
      rw [Sep, hc] at hd
      cases hd
    | cons x xs =>
      rw [Sep, hc] at hd
      rw [List.map_cons, List.cons_append, ← show key x = key d from Option.some.inj hd]
      exact (hrest.trans (List.sublist_append_right _ _)).cons_cons _

theorem Good.data_sorted {n : Nat} {t : BPlusTree α} (h : Good key n t) (hs : Sorted key t.items) : Sorted key t.data := by
  cases n with
  | zero => rwa [items_leaf h] at hs
  | succ n =>
    obtain ⟨first, rest, hsubset⟩ := List.exists_cons_of_ne_nil h.1
    have hsep := h.2.1
    rw [hsubset, List.tail_cons] at hsep
    rw [items_node h.1, hsubset, List.flatMap_cons] at hs
    have hrest : ((rest.flatMap items).map key).Pairwise (· < ·) := List.pairwise_map.2 (List.pairwise_append.1 hs).2.1
    exact List.pairwise_map.1 (hrest.sublist (sep_sublist hsep))

omit [LinearOrder K] in
/-- The first child, or a child with a separator in front of it. -/
theorem Focus.cases {t c : BPlusTree α} {left right : List (BPlusTree α)} {dl dr : List α}
    (h : Focus key t left c right dl dr) : (left = [] ∧ dl = []) ∨ ∃ before l data d, left = before ++ [l] ∧
      dl = data ++ [d] ∧ List.Forall₂ (Sep key) data (before ++ [l]).tail ∧ Sep key d c := by
  have hlen := h.length
  cases left using List.reverseRecOn with
  | nil => exact Or.inl ⟨rfl, List.length_eq_zero_iff.1 hlen⟩
  | append_singleton before l =>
    right
    cases dl using List.reverseRecOn with
    | nil => simp at hlen
    | append_singleton data d =>
      have hsep := h.left_sep
      rw [List.append_assoc, List.singleton_append, tail_append_cons] at hsep
      have hdata : (before ++ [l]).tail.length = data.length := by simpa using hlen.symm
      have hfront := List.forall₂_take_append _ _ _ hsep
      have hback := List.forall₂_drop_append _ _ _ hsep
      rw [hdata, List.take_left] at hfront
      rw [hdata, List.drop_left] at hback
      exact ⟨before, l, data, d, rfl, rfl, hfront, (List.forall₂_cons.1 hback).1⟩

omit [LinearOrder K] in
/-- Behind a separator the child begins with its key. -/
theorem Focus.first {t c : BPlusTree α} {left right : List (BPlusTree α)} {dl dr : List α}
    (h : Focus key t left c right dl dr) (hdl : dl ≠ []) (hc : c.items ≠ []) :
    ∃ data d x xs, dl = data ++ [d] ∧ c.items = x :: xs ∧ key x = key d := by
  rcases h.cases with ⟨-, hnil⟩ | ⟨before, l, data, d, -, hd, -, hsep⟩
  · exact absurd hnil hdl
  · cases hitems : c.items with
    | nil => exact absurd hitems hc
    | cons x xs =>
      rw [Sep, hitems] at hsep
      exact ⟨data, d, x, xs, hd, rfl, Option.some.inj hsep⟩

/-- Everything left of a separator is less than it. -/
theorem sep_gt {d : α} {c : BPlusTree α} {before : List α} (h : Sep key d c) (hs : Sorted key (before ++ c.items)) :
    ∀ x ∈ before, key x < key d := by
  intro x hx
  cases hc : c.items with
  | nil =>
    rw [Sep, hc] at h
    cases h
  | cons y items =>
    rw [Sep, hc] at h
    rw [hc] at hs
    rw [← show key y = key d from Option.some.inj h]
    exact (List.pairwise_append.1 hs).2.2 x hx y List.mem_cons_self

/-- Everything right of a separator is at least it. -/
theorem sep_le {d : α} {c : BPlusTree α} (h : Sep key d c) (hs : Sorted key c.items) : ∀ x ∈ c.items, key d ≤ key x := by
  intro x hx
  cases hc : c.items with
  | nil =>
    rw [hc] at hx
    cases hx
  | cons y items =>
    rw [Sep, hc] at h
    rw [hc] at hs hx
    rw [← show key y = key d from Option.some.inj h]
    rcases List.mem_cons.1 hx with rfl | hx
    · exact le_refl _
    · exact ((List.pairwise_cons.1 hs).1 x hx).le

theorem sep_lower {k : K} : ∀ {data : List α} {children : List (BPlusTree α)}, List.Forall₂ (Sep key) data children →
    Sorted key (children.flatMap items) → (∀ d ∈ data, k < key d) → ∀ x ∈ children.flatMap items, k < key x
  | _, _, .nil, _, _, x, hx => by cases hx
  | d :: data, c :: children, .cons hd h, hs, hk, x, hx => by
    rw [List.flatMap_cons] at hs hx
    obtain ⟨hc, hrest, -⟩ := List.pairwise_append.1 hs
    rcases List.mem_append.1 hx with hx | hx
    · exact (hk d List.mem_cons_self).trans_le (sep_le hd hc x hx)
    · exact sep_lower h hrest (fun e he => hk e (List.mem_cons_of_mem d he)) x hx

/-- The child `contains`, `find`, `insert` and `erase` go on in. -/
def childIndex (key : α → K) (t : BPlusTree α) (entry : α) : Nat :=
  if foundAt key t.data (firstGe key t.data entry) entry then firstGe key t.data entry + 1 else firstGe key t.data entry

/-- **Where a search goes on**: everything left of the child is less than the entry, everything right of it is greater,
the separators likewise, and the search has found the entry exactly if it is the separator in front of the child. -/
theorem Good.descend {n : Nat} {t : BPlusTree α} (h : Good key (n + 1) t) (hs : Sorted key t.items) (entry : α) :
    ∃ left c right dl dr, Focus key t left c right dl dr ∧ childIndex key t entry = left.length ∧
      (∀ x ∈ left.flatMap items, key x < key entry) ∧ (∀ x ∈ right.flatMap items, key entry < key x) ∧
      (∀ d ∈ dl, key d ≤ key entry) ∧
      (foundAt key t.data (firstGe key t.data entry) entry = true ↔ ∃ data d, dl = data ++ [d] ∧ key d = key entry) := by
  obtain ⟨below, above, hdata, hge, hbelow, habove⟩ := firstGe_cut key entry t.data
  have hsorted := h.data_sorted hs
  have hfound : foundAt key (below ++ above) below.length entry = foundAt key above 0 entry :=
    foundAt_append entry below above
  rw [childIndex, hge, hdata, hfound]
  rw [hdata] at hsorted
  obtain ⟨-, hright, -⟩ := List.pairwise_append.1 hsorted
  by_cases hf : foundAt key above 0 entry = true
  · cases above with
    | nil => simp [foundAt] at hf
    | cons x above =>
      have hx := (foundAt_head (habove x rfl)).1 hf
      have hcut : t.data = (below ++ [x]) ++ above := by rw [hdata, List.append_assoc]; rfl
      obtain ⟨left, c, right, hfocus⟩ := h.focus hcut
      rcases hfocus.cases with ⟨-, hnil⟩ | ⟨before, l, data, d, hleft, hdl, -, hd⟩
      · simp at hnil
      obtain ⟨-, hxd⟩ := List.append_inj' hdl rfl
      obtain rfl : x = d := by simpa using hxd
      have hlen := hfocus.length
      rw [hfocus.items, List.append_assoc] at hs
      refine ⟨left, c, right, below ++ [x], above, hfocus, ?_, fun y hy => ?_, ?_, fun d hd => ?_,
        fun _ => ⟨below, x, rfl, hx⟩, fun _ => hf⟩
      · rw [if_pos hf, ← hlen, List.length_append, List.length_singleton]
      · rw [← hx]
        rw [← List.append_assoc] at hs
        exact sep_gt hd (List.pairwise_append.1 hs).1 y hy
      · refine sep_lower hfocus.right_sep (List.pairwise_append.1 (List.pairwise_append.1 hs).2.1).2.1 (fun d hd => ?_)
        rw [← hx]
        exact (List.pairwise_cons.1 hright).1 d hd
      · rcases List.mem_append.1 hd with hd | hd
        · exact (hbelow d hd).le
        · exact (List.mem_singleton.1 hd ▸ hx).le
  · obtain ⟨left, c, right, hfocus⟩ := h.focus hdata
    have hs' := hs
    rw [hfocus.items] at hs
    have hlast : ∀ data d, below = data ++ [d] → key d < key entry := fun data d hd =>
      hbelow d (hd ▸ List.mem_append_right data List.mem_cons_self)
    refine ⟨left, c, right, below, above, hfocus, ?_, fun y hy => ?_, ?_, fun d hd => (hbelow d hd).le,
      fun hf' => absurd hf' hf, ?_⟩
    · rw [if_neg hf, hfocus.length]
    · rcases hfocus.cases with ⟨hnil, -⟩ | ⟨before, l, data, d, -, hdl, -, hd⟩
      · rw [hnil] at hy
        cases hy
      · exact (sep_gt hd (List.pairwise_append.1 hs).1 y hy).trans (hlast data d hdl)
    · refine sep_lower hfocus.right_sep (List.pairwise_append.1 hs).2.1 (fun d hd => ?_)
      cases above with
      | nil => cases hd
      | cons x above =>
        have hx : key entry < key x := lt_of_le_of_ne (habove x rfl)
          (fun heq => hf ((foundAt_head (habove x rfl)).2 heq.symm))
        rcases List.mem_cons.1 hd with rfl | hd
        · exact hx
        · exact hx.trans ((List.pairwise_cons.1 hright).1 d hd)
    · rintro ⟨data, d, hdl, hk⟩
      exact absurd hk (hlast data d hdl).ne

omit [LinearOrder K] in
theorem Focus.child {t c : BPlusTree α} {left right : List (BPlusTree α)} {dl dr : List α}
    (h : Focus key t left c right dl dr) : t.subset[left.length]? = some c := by
  rw [h.subset_eq]
  simp

theorem contains_leaf {t : BPlusTree α} (h : t.subset = []) (entry : α) :
    t.contains key entry = foundAt key t.data (firstGe key t.data entry) entry := by
  unfold contains
  exact if_pos h

theorem contains_node {t c : BPlusTree α} (h : t.subset ≠ []) {entry : α} (hc : t.subset[childIndex key t entry]? = some c) :
    t.contains key entry = c.contains key entry := by
  rw [contains]
  simp only [show ¬ t.isLeaf from h, if_false]
  split
  · rename_i hnone
    cases hnone.symm.trans hc
  · rename_i child hsome
    rw [Option.some.inj (hsome.symm.trans hc)]

/-- The items with a key are in the child of the search. -/
theorem holds_focus {t c : BPlusTree α} {left right : List (BPlusTree α)} {dl dr : List α} {k : K}
    (h : Focus key t left c right dl dr) (hl : ∀ x ∈ left.flatMap items, key x < k)
      (hr : ∀ x ∈ right.flatMap items, k < key x) :
    Holds key k t.items ↔ Holds key k c.items := by
  rw [h.items]
  constructor
  · rintro ⟨x, hx, hk⟩
    rcases List.mem_append.1 hx with hx | hx
    · rcases List.mem_append.1 hx with hx | hx
      · exact absurd hk (hl x hx).ne
      · exact ⟨x, hx, hk⟩
    · exact absurd hk (hr x hx).ne'
  · rintro ⟨x, hx, hk⟩
    exact ⟨x, List.mem_append_left _ (List.mem_append_right _ hx), hk⟩

theorem Focus.sorted {t c : BPlusTree α} {left right : List (BPlusTree α)} {dl dr : List α}
    (h : Focus key t left c right dl dr) (hs : Sorted key t.items) : Sorted key c.items := by
  rw [h.items] at hs
  exact (List.pairwise_append.1 (List.pairwise_append.1 hs).1).2.1

/-- **`contains` finds the key** exactly if a leaf holds it. -/
theorem contains_iff (entry : α) : ∀ (n : Nat) (t : BPlusTree α), Good key n t → Sorted key t.items →
    (t.contains key entry = true ↔ Holds key (key entry) t.items)
  | 0, t, h, hs => by
    rw [items_leaf h] at hs ⊢
    rw [contains_leaf h]
    exact foundAt_iff hs
  | n + 1, t, h, hs => by
    obtain ⟨left, c, right, dl, dr, hfocus, hindex, hl, hr, -, -⟩ := h.descend hs entry
    rw [contains_node h.1 (hindex ▸ hfocus.child), holds_focus hfocus hl hr]
    exact contains_iff entry n c (h.2.2 c hfocus.mem).1 (hfocus.sorted hs)

end BPlusTree
end BPlus
end Sql
