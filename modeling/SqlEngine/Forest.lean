import SqlEngine.BPlusErase
import SqlEngine.BPlusCopy
/-!
# Forest — trees in one memory, and their iterators

An iterator is the address of a node and an index, and the node is looked up among the nodes of all trees.  `Walk` says that
some iterators are visited one after the other, up to the end; the loops of the header run along it.
-/
namespace Sql
namespace BPlus

open BPlusTree

structure Forest (α : Type) where
  memory : Memory
  trees : List (BPlusTree α)

namespace Forest
variable {α : Type}

/-- No tree yet. -/
def new : Forest α := ⟨⟨0, fun _ => none⟩, []⟩

/-- A new tree. -/
def construct (f : Forest α) : Forest α :=
  let (address, m) := f.memory.new
  ⟨m, f.trees ++ [⟨address, [], []⟩]⟩

/-- The copy constructor. -/
def copy (f : Forest α) (source : Nat) : Option (Forest α) := do
  let source ← f.trees[source]?
  let (address, m) := f.memory.new
  let (t, _, m) := copyTree source address none m
  pure ⟨m, f.trees ++ [t]⟩

/-- `operator=`. -/
def assign (f : Forest α) (i source : Nat) : Option (Forest α) := do
  let t ← f.trees[i]?
  let s ← f.trees[source]?
  if i = source then pure f else
    let (t, m) := t.clearTree f.memory
    let (t, _, m) := copyTree s t.id none m
    pure ⟨m, f.trees.set i t⟩

def node (f : Forest α) (address : Nat) : Option (BPlusTree α) := (f.trees.flatMap nodes).find? (fun t => t.id == address)

/-- `*it`. -/
def deref (f : Forest α) (it : Iterator) : Option α := do
  let address ← it.it
  let t ← f.node address
  t.data[it.keyPtr]?

/-- `++it`. -/
def increment (f : Forest α) (it : Iterator) : Option Iterator := do
  let address ← it.it
  let t ← f.node address
  if it.keyPtr = t.data.length - 1 then pure ⟨f.memory.next address, 0⟩ else pure ⟨it.it, it.keyPtr + 1⟩

def begin (t : BPlusTree α) : Iterator :=
  if t.data.length = 0 ∧ t.isLeaf then Iterator.end else ⟨some t.getSmallestNode.id, 0⟩

/-- The loops run with a bound on their steps; `none` is a step that cannot be taken, or no step left. -/
def sizeLoop (f : Forest α) : Nat → Iterator → Nat → Option Nat
  | 0, _, _ => none
  | fuel + 1, it, i => if it = Iterator.end then some i else do
    let it ← f.increment it
    sizeLoop f fuel it (i + 1)

def size (f : Forest α) (fuel : Nat) (t : BPlusTree α) : Option Nat :=
  if t.data.length = 0 ∧ t.isLeaf then some 0 else sizeLoop f fuel (begin t) 0

/-- The first iterator whose item is as asked for, or the end. -/
def searchLoop (f : Forest α) (p : α → Bool) : Nat → Iterator → Option Iterator
  | 0, _ => none
  | fuel + 1, it => if it = Iterator.end then some Iterator.end else do
    let x ← f.deref it
    if p x then some it else do
      let it ← f.increment it
      searchLoop f p fuel it

def lowerBound {K : Type} [LinearOrder K] (key : α → K) (f : Forest α) (fuel : Nat) (t : BPlusTree α) (entry : α) :
    Option Iterator :=
  searchLoop f (fun x => ¬ key x < key entry) fuel (begin t)

def upperBound {K : Type} [LinearOrder K] (key : α → K) (f : Forest α) (fuel : Nat) (t : BPlusTree α) (entry : α) :
    Option Iterator :=
  searchLoop f (fun x => key entry < key x) fuel (begin t)

/-- `for (it = begin(); it != end(); ++it)`, with the items visited. -/
def visitLoop (f : Forest α) : Nat → Iterator → Option (List α)
  | 0, _ => none
  | fuel + 1, it => if it = Iterator.end then some [] else do
    let x ← f.deref it
    let it ← f.increment it
    let xs ← visitLoop f fuel it
    pure (x :: xs)

/-- The leaves that are visited by following `next`. -/
def follow (f : Forest α) : Nat → Option Nat → Option (List Nat)
  | _, none => some []
  | 0, some _ => none
  | fuel + 1, some address => do
    let addresses ← follow f fuel (f.memory.next address)
    pure (address :: addresses)

/-! ## Walks -/

/-- **The iterators lead from one to the next**, along the items, to the end. -/
def Walk (f : Forest α) : List Iterator → List α → Prop
  | [], [] => True
  | it :: its, x :: xs => it ≠ Iterator.end ∧ f.deref it = some x ∧ f.increment it = some (its.headD Iterator.end) ∧
    Walk f its xs
  | _, _ => False

theorem visitLoop_walk {f : Forest α} : ∀ {its : List Iterator} {xs : List α} (fuel : Nat), Walk f its xs →
    its.length < fuel →
    f.visitLoop fuel (its.headD Iterator.end) = some xs
  | _, _, 0, _, h => absurd h (Nat.not_lt_zero _)
  | [], [], fuel + 1, _, _ => if_pos rfl
  | it :: its, x :: xs, fuel + 1, ⟨hne, hd, hi, hw⟩, h => by
    have ih := visitLoop_walk fuel hw (Nat.lt_of_succ_lt_succ h)
    rw [List.headD_cons, visitLoop, if_neg hne, hd, hi]
    simp only [Option.bind_eq_bind, Option.bind_some, ih]
    rfl

theorem sizeLoop_walk {f : Forest α} : ∀ {its : List Iterator} {xs : List α} (fuel i : Nat), Walk f its xs →
    its.length < fuel →
    f.sizeLoop fuel (its.headD Iterator.end) i = some (i + xs.length)
  | _, _, 0, _, _, h => absurd h (Nat.not_lt_zero _)
  | [], [], fuel + 1, _, _, _ => if_pos rfl
  | it :: its, x :: xs, fuel + 1, i, ⟨hne, _, hi, hw⟩, h => by
    have ih := sizeLoop_walk fuel (i + 1) hw (Nat.lt_of_succ_lt_succ h)
    rw [List.headD_cons, sizeLoop, if_neg hne, hi]
    simp only [Option.bind_eq_bind, Option.bind_some, ih, List.length_cons]
    rw [Nat.add_assoc, Nat.add_comm 1]

/-- An iterator at an item, or at the end. -/
def Points (f : Forest α) (it : Iterator) : Option α → Prop
  | none => it = Iterator.end
  | some x => it ≠ Iterator.end ∧ f.deref it = some x

theorem searchLoop_walk {f : Forest α} (p : α → Bool) : ∀ {its : List Iterator} {xs : List α} (fuel : Nat), Walk f its xs →
    its.length < fuel → ∃ it, f.searchLoop p fuel (its.headD Iterator.end) = some it ∧ Points f it (xs.find? p)
  | _, _, 0, _, h => absurd h (Nat.not_lt_zero _)
  | [], [], fuel + 1, _, _ => ⟨Iterator.end, if_pos rfl, rfl⟩
  | it :: its, x :: xs, fuel + 1, ⟨hne, hd, hi, hw⟩, h => by
    rw [List.headD_cons, searchLoop, if_neg hne, hd, hi]
    simp only [Option.bind_eq_bind, Option.bind_some]
    by_cases hp : p x = true
    · rw [if_pos hp, List.find?_cons_of_pos hp]
      exact ⟨it, rfl, hne, hd⟩
    · rw [if_neg hp, List.find?_cons_of_neg hp]
      exact searchLoop_walk p fuel hw (Nat.lt_of_succ_lt_succ h)

/-! ## The walk along a tree -/

/-- The items of a leaf from an index on. -/
def placesFrom (l : BPlusTree α) (i : Nat) : List Iterator :=
  (List.range' i (l.data.length - i)).map (fun j => ⟨some l.id, j⟩)

def places (leaves : List (BPlusTree α)) : List Iterator := leaves.flatMap (fun l => placesFrom l 0)

theorem head_places : ∀ {leaves : List (BPlusTree α)}, (∀ l ∈ leaves, 0 < l.data.length) →
    (places leaves).headD Iterator.end = ⟨(leaves.map BPlusTree.id).head?, 0⟩
  | [], _ => rfl
  | l :: leaves, h => by
    obtain ⟨n, hn⟩ := Nat.exists_eq_succ_of_ne_zero (h l List.mem_cons_self).ne'
    simp [places, placesFrom, hn, List.range'_succ]

theorem length_places (leaves : List (BPlusTree α)) : (places leaves).length = (leaves.flatMap data).length := by
  induction leaves with
  | nil => rfl
  | cons l leaves ih =>
    rw [places, List.flatMap_cons, List.flatMap_cons, List.length_append, List.length_append, ← ih, places]
    simp [placesFrom]

/-- Along the rest of a leaf, and on. -/
theorem walk_leaf {f : Forest α} {l : BPlusTree α} (hnode : f.node l.id = some l) {its : List Iterator} {xs : List α}
    (hw : Walk f its xs) (hnext : its.headD Iterator.end = ⟨f.memory.next l.id, 0⟩) : ∀ (k i : Nat), i + k = l.data.length →
      Walk f (placesFrom l i ++ its) (l.data.drop i ++ xs)
  | 0, i, h => by
    rw [Nat.add_zero] at h
    rw [List.drop_of_length_le h.ge, placesFrom, h, Nat.sub_self]
    exact hw
  | k + 1, i, h => by
    have ih := walk_leaf hnode hw hnext k (i + 1) (by omega)
    have hlt : i < l.data.length := by omega
    have hplaces : placesFrom l i = ⟨some l.id, i⟩ :: placesFrom l (i + 1) := by
      rw [placesFrom, placesFrom, show l.data.length - i = (l.data.length - (i + 1)) + 1 by omega, List.range'_succ,
        List.map_cons]
    have hne : (⟨some l.id, i⟩ : Iterator) ≠ Iterator.end := by simp [Iterator.end]
    rw [hplaces, List.drop_eq_getElem_cons hlt, List.cons_append, List.cons_append]
    refine ⟨hne, ?_, ?_, ih⟩
    · simp [deref, hnode, hlt]
    · simp only [increment, hnode, Option.bind_eq_bind, Option.bind_some]
      by_cases hlast : i = l.data.length - 1
      · have hnil : placesFrom l (i + 1) = [] := by
          rw [placesFrom, show l.data.length - (i + 1) = 0 by omega]
          rfl
        rw [if_pos hlast, hnil, List.nil_append, hnext]
        rfl
      · have hcons : placesFrom l (i + 1) = ⟨some l.id, i + 1⟩ :: placesFrom l (i + 2) := by
          rw [placesFrom, placesFrom, show l.data.length - (i + 1) = (l.data.length - (i + 2)) + 1 by omega,
            List.range'_succ,
            List.map_cons]
        rw [if_neg hlast, hcons]
        rfl

/-- **Linked leaves with items are walked in their order.** -/
theorem walk_leaves {f : Forest α} : ∀ {leaves : List (BPlusTree α)},
    (∀ l ∈ leaves, f.node l.id = some l ∧ 0 < l.data.length) →
    Linked f.memory.next (leaves.map BPlusTree.id) none → Walk f (places leaves) (leaves.flatMap data)
  | [], _, _ => trivial
  | l :: leaves, h, hl => by
    have hrest : ∀ l ∈ leaves, f.node l.id = some l ∧ 0 < l.data.length := fun x hx => h x (List.mem_cons_of_mem l hx)
    have ih := walk_leaves hrest hl.2
    have hnext : (places leaves).headD Iterator.end = ⟨f.memory.next l.id, 0⟩ := by
      rw [head_places (fun x hx => (hrest x hx).2), hl.1, Option.or_none]
    exact walk_leaf (h l List.mem_cons_self).1 ih hnext l.data.length 0 (Nat.zero_add _)

theorem follow_linked {f : Forest α} : ∀ {is : List Nat} (fuel : Nat), Linked f.memory.next is none → is.length ≤ fuel →
    f.follow fuel is.head? = some is
  | [], fuel, _, _ => by cases fuel <;> rfl
  | _ :: _, 0, _, h => absurd h (Nat.not_succ_le_zero _)
  | i :: is, fuel + 1, hl, h => by
    have ih := follow_linked fuel hl.2 (Nat.le_of_succ_le_succ h)
    rw [List.head?_cons, follow, hl.1, Option.or_none, ih]
    rfl

end Forest

namespace BPlusTree
variable {α K : Type} {key : α → K}

/-- The leftmost leaf. -/
theorem head_leafIds : ∀ t : BPlusTree α, t.leafIds.head? = some t.getSmallestNode.id
  | ⟨id, data, []⟩ => rfl
  | ⟨id, data, first :: rest⟩ => by
    rw [leafIds_cons, List.head?_append, head_leafIds first, getSmallestNode]
    rfl

/-- Only a root may be a leaf without items. -/
theorem Good.leaf_pos : ∀ {n : Nat} {t : BPlusTree α}, Good key n t → 0 < t.data.length → ∀ l ∈ t.leaves, 0 < l.data.length
  | 0, t, h, hpos, l, hl => by
    rw [leaves_leaf h] at hl
    exact List.mem_singleton.1 hl ▸ hpos
  | n + 1, t, h, _, l, hl => by
    rw [leaves_node h.1] at hl
    obtain ⟨c, hc, hl⟩ := List.mem_flatMap.1 hl
    exact Good.leaf_pos (h.2.2 c hc).1 (h.2.2 c hc).2.pos l hl

end BPlusTree

namespace Forest
variable {α K : Type} [LinearOrder K] {key : α → K}

/-- **Iteration from `begin` to `end`** visits the items of the tree. -/
theorem walk_tree {f : Forest α} {t : BPlusTree α} (h : Rooted key f.memory t)
    (hnode : ∀ l ∈ t.leaves, f.node l.id = some l) :
    ∃ its, its.length = t.items.length ∧ begin t = its.headD Iterator.end ∧ Walk f its t.items := by
  obtain ⟨n, hgood⟩ := h.shape
  by_cases hempty : t.data.length = 0 ∧ t.isLeaf
  · have hitems : t.items = [] := by rw [items_leaf hempty.2, List.length_eq_zero_iff.1 hempty.1]
    exact ⟨[], by rw [hitems]; rfl, by rw [begin, if_pos hempty]; rfl, hitems ▸ trivial⟩
  · have hpos : 0 < t.data.length := by
      by_contra h0
      exact hempty ⟨Nat.eq_zero_of_not_pos h0, Classical.byContradiction (fun hne => h0 (h.pos hne))⟩
    have hleaves := hgood.leaf_pos hpos
    refine ⟨places t.leaves, length_places _, ?_, walk_leaves (fun l hl => ⟨hnode l hl, hleaves l hl⟩) h.linked⟩
    rw [begin, if_neg hempty, head_places hleaves]
    exact congrArg (fun next => (⟨next, 0⟩ : Iterator)) (head_leafIds t).symm

theorem find?_nodup {β : Type} (g : β → Nat) : ∀ {xs : List β} {x : β}, (xs.map g).Nodup → x ∈ xs →
    xs.find? (fun y => g y == g x) = some x
  | y :: xs, x, h, hx => by
    rw [List.map_cons, List.nodup_cons] at h
    rcases List.mem_cons.1 hx with rfl | hx
    · exact List.find?_cons_of_pos (beq_self_eq_true _)
    · have hne : g y ≠ g x := fun heq => h.1 (heq ▸ List.mem_map_of_mem hx)
      rw [List.find?_cons_of_neg (by simpa using hne)]
      exact find?_nodup g h.2 hx

/-- A node is found at its address. -/
theorem node_eq {f : Forest α} (h : (f.trees.flatMap ids).Nodup) {t u : BPlusTree α} (ht : t ∈ f.trees) (hu : u ∈ t.nodes) :
    f.node u.id = some u := by
  refine find?_nodup BPlusTree.id ?_ (List.mem_flatMap.2 ⟨t, ht, hu⟩)
  rw [List.map_flatMap]
  exact h

/-! ## `find` -/

theorem find_leaf [Inhabited α] {t : BPlusTree α} (h : t.subset = []) (entry : α) : t.find key entry =
    if foundAt key t.data (firstGe key t.data entry) entry then ⟨some t.id, firstGe key t.data entry⟩ else Iterator.end := by
  unfold BPlusTree.find
  exact if_pos h

theorem find_node [Inhabited α] {t c : BPlusTree α} (h : t.subset ≠ []) {entry : α}
    (hc : t.subset[childIndex key t entry]? = some c) : t.find key entry = c.find key entry := by
  rw [BPlusTree.find]
  simp only [show ¬ t.isLeaf from h, if_false]
  split
  · rename_i hnone
    cases hnone.symm.trans hc
  · rename_i child hsome
    rw [Option.some.inj (hsome.symm.trans hc)]

/-- **`find` leads to the item with the key**, or to the end. -/
theorem find_spec [Inhabited α] (entry : α) : ∀ (n : Nat) (t : BPlusTree α), Good key n t → Sorted key t.items →
    (t.find key entry = Iterator.end ∧ t.items.find? (fun x => key x = key entry) = none) ∨
    ∃ l ∈ t.leaves, ∃ i x, t.find key entry = ⟨some l.id, i⟩ ∧ l.data[i]? = some x ∧
      t.items.find? (fun x => key x = key entry) = some x
  | 0, t, h, hs => by
    rw [items_leaf h] at hs ⊢
    rw [find_leaf h]
    obtain ⟨left, right, hdata, hge, hleft, ⟨hf, hright⟩ | ⟨hf, x, rest, rfl, hx, hrest⟩⟩ := firstGe_search hs entry
    · refine Or.inl ⟨if_neg (by rw [hge, hf]; exact Bool.false_ne_true), List.find?_eq_none.2 (fun x hx => ?_)⟩
      rw [hdata] at hx
      rcases List.mem_append.1 hx with hx | hx
      · simpa using (hleft x hx).ne
      · simpa using (hright x hx).ne'
    · refine Or.inr ⟨t, by rw [leaves_leaf h]; exact List.mem_cons_self, left.length, x, ?_, by simp [hdata], ?_⟩
      · rw [hge, if_pos hf]
      · have hnone : left.find? (fun x => key x = key entry) = none :=
          List.find?_eq_none.2 (fun y hy => by simpa using (hleft y hy).ne)
        rw [hdata, List.find?_append, hnone, List.find?_cons_of_pos (by simpa using hx)]
        rfl
  | n + 1, t, h, hs => by
    obtain ⟨left, c, right, dl, dr, hfocus, hindex, hl, hr, -, -⟩ := h.descend hs entry
    have hnone : (left.flatMap items).find? (fun x => key x = key entry) = none :=
      List.find?_eq_none.2 (fun y hy => by simpa using (hl y hy).ne)
    have hnone' : (right.flatMap items).find? (fun x => key x = key entry) = none :=
      List.find?_eq_none.2 (fun y hy => by simpa using (hr y hy).ne')
    have hitems : t.items.find? (fun x => key x = key entry) = c.items.find? (fun x => key x = key entry) := by
      rw [hfocus.items, List.find?_append, List.find?_append, hnone, hnone', Option.none_or, Option.or_none]
    rw [find_node h.1 (hindex ▸ hfocus.child), hitems]
    rcases find_spec entry n c (h.2.2 c hfocus.mem).1 (hfocus.sorted hs) with hend | ⟨l, hl, i, x, hfind, hx, hitem⟩
    · exact Or.inl hend
    · refine Or.inr ⟨l, ?_, i, x, hfind, hx, hitem⟩
      rw [leaves_node h.1]
      exact List.mem_flatMap.2 ⟨c, hfocus.mem, hl⟩

/-! ## Standing trees -/

/-- **The invariant of the forest**: every tree stands, holds what it should, and has its nodes for itself. -/
structure Stands {σ : Type} (key : α → K) (holds : BPlusTree α → σ → Prop) (f : Forest α) (states : List σ) : Prop where
  trees : List.Forall₂ (fun t s => Rooted key f.memory t ∧ holds t s) f.trees states
  nodup : (f.trees.flatMap ids).Nodup

variable {σ : Type} {holds : BPlusTree α → σ → Prop} {f : Forest α} {states : List σ}

/-- What happens to other nodes. -/
theorem rooted_kept {m m' : Memory} {t : BPlusTree α} (h : Rooted key m t) {ids ids' : List Nat} (hk : Kept m m' ids ids')
    (hdisjoint : ∀ j ∈ t.ids, j ∉ ids) : Rooted key m' t where
  shape := h.shape
  le := h.le
  pos := h.pos
  sorted := h.sorted
  linked := h.linked.congr (fun j hj => hk.frame j (h.allocated.lt j ((leafIds_sublist t).subset hj))
    (hdisjoint j ((leafIds_sublist t).subset hj)))
  next := by
    have hmem : t.id ∈ t.ids := by rw [ids_eq]; exact List.mem_cons_self
    rw [hk.frame t.id (h.allocated.lt _ hmem) (hdisjoint _ hmem)]
    exact h.next
  allocated := ⟨h.allocated.nodup, fun j hj => (h.allocated.lt j hj).trans_le hk.fresh_le⟩

theorem forall₂_mem {β γ : Type} {R S : β → γ → Prop} : ∀ {xs : List β} {ys : List γ}, List.Forall₂ R xs ys →
    (∀ x ∈ xs, ∀ y, R x y → S x y) → List.Forall₂ S xs ys
  | _, _, .nil, _ => List.Forall₂.nil
  | x :: _, y :: _, .cons h hs, hi => List.Forall₂.cons (hi x List.mem_cons_self y h)
      (forall₂_mem hs (fun x' hx' => hi x' (List.mem_cons_of_mem x hx')))

theorem forall₂_split {β γ : Type} {R : β → γ → Prop} {x : β} {B : List β} : ∀ {A : List β} {ys : List γ},
    List.Forall₂ R (A ++ x :: B) ys → ∃ A' y B', ys = A' ++ y :: B' ∧ List.Forall₂ R A A' ∧ R x y ∧ List.Forall₂ R B B'
  | [], _, .cons h hs => ⟨[], _, _, rfl, List.Forall₂.nil, h, hs⟩
  | _ :: A, y :: _, .cons h hs => by
    obtain ⟨A', y', B', rfl, hA, hy, hB⟩ := forall₂_split (A := A) hs
    exact ⟨y :: A', y', B', rfl, List.Forall₂.cons h hA, hy, hB⟩

/-- A list around the item at an index. -/
theorem split_at {β : Type} {xs : List β} {i : Nat} {x : β} (h : xs[i]? = some x) : ∃ A B, xs = A ++ x :: B ∧
    i = A.length := by
  obtain ⟨hi, rfl⟩ := List.getElem?_eq_some_iff.1 h
  refine ⟨xs.take i, xs.drop (i + 1), ?_, by rw [List.length_take, Nat.min_eq_left hi.le]⟩
  rw [← List.drop_eq_getElem_cons hi, List.take_append_drop]

theorem Stands.get (h : Stands key holds f states) {i : Nat} {t : BPlusTree α} (hi : f.trees[i]? = some t) :
    ∃ s, states[i]? = some s ∧ Rooted key f.memory t ∧ holds t s := by
  obtain ⟨A, B, hsplit, rfl⟩ := split_at hi
  have htrees := h.trees
  rw [hsplit] at htrees
  obtain ⟨A', s, B', hstates, hA, hs, -⟩ := forall₂_split htrees
  exact ⟨s, by rw [hstates, hA.length_eq]; simp, hs⟩

/-- **An operation on one tree.** -/
theorem Stands.set (h : Stands key holds f states) {i : Nat} {t t' : BPlusTree α} {s' : σ} {m' : Memory}
    (hi : f.trees[i]? = some t) (ht : Rooted key m' t') (hs : holds t' s') (hk : Kept f.memory m' t.ids t'.ids) :
    Stands key holds ⟨m', f.trees.set i t'⟩ (states.set i s') := by
  obtain ⟨A, B, hsplit, rfl⟩ := split_at hi
  have htrees := h.trees
  have hnodup := h.nodup
  rw [hsplit] at htrees hnodup
  obtain ⟨A', s, B', hstates, hA, -, hB⟩ := forall₂_split htrees
  rw [List.flatMap_append, List.flatMap_cons] at hnodup
  obtain ⟨hnA, hnTB, hdA⟩ := List.nodup_append.1 hnodup
  obtain ⟨-, hnB, hdB⟩ := List.nodup_append.1 hnTB
  have hlt : ∀ u, u ∈ A ∨ u ∈ B → ∀ j ∈ u.ids, j < f.memory.fresh := by
    intro u hu
    have hmem : u ∈ f.trees := by
      rw [hsplit, List.mem_append, List.mem_cons]
      tauto
    obtain ⟨k, hk⟩ := List.mem_iff_getElem?.1 hmem
    obtain ⟨-, -, hroot, -⟩ := h.get hk
    exact hroot.allocated.lt
  have hdisjoint : ∀ u, u ∈ A ∨ u ∈ B → ∀ j ∈ u.ids, j ∉ t.ids := by
    rintro u (hu | hu) j hj hmem
    · exact hdA j (List.mem_flatMap.2 ⟨u, hu, hj⟩) j (List.mem_append_left _ hmem) rfl
    · exact hdB j hmem j (List.mem_flatMap.2 ⟨u, hu, hj⟩) rfl
  have hnew : ∀ u, u ∈ A ∨ u ∈ B → ∀ j ∈ u.ids, j ∉ t'.ids := fun u hu j hj hmem =>
    (hk.ids_mem j hmem).elim (hdisjoint u hu j hj) (fun hle => absurd (hlt u hu j hj) (Nat.not_lt.2 hle))
  rw [hsplit, hstates]
  constructor
  · have hset : (A' ++ s :: B').set A.length s' = A' ++ s' :: B' := set_at hA.length_eq s'
    rw [hset]
    simp only [set_at rfl]
    refine List.rel_append (forall₂_mem hA (fun u hu _ hr => ⟨rooted_kept hr.1 hk (hdisjoint u (Or.inl hu)), hr.2⟩))
      (List.Forall₂.cons ⟨ht, hs⟩ (forall₂_mem hB (fun u hu _ hr => ⟨rooted_kept hr.1 hk (hdisjoint u (Or.inr hu)), hr.2⟩)))
  · simp only [set_at rfl, List.flatMap_append, List.flatMap_cons]
    refine List.nodup_append.2 ⟨hnA, List.nodup_append.2 ⟨ht.allocated.nodup, hnB, fun a ha b hb => ?_⟩, fun a ha b hb => ?_⟩
    · obtain ⟨u, hu, hb⟩ := List.mem_flatMap.1 hb
      rintro rfl
      exact hnew u (Or.inr hu) a hb ha
    · obtain ⟨u, hu, ha⟩ := List.mem_flatMap.1 ha
      rintro rfl
      rcases List.mem_append.1 hb with hb | hb
      · exact hnew u (Or.inl hu) a ha hb
      · exact hdA a (List.mem_flatMap.2 ⟨u, hu, ha⟩) a (List.mem_append_right _ hb) rfl

/-- **A new tree.** -/
theorem Stands.append (h : Stands key holds f states) {t' : BPlusTree α} {s' : σ} {m' : Memory} (ht : Rooted key m' t')
    (hs : holds t' s') (hk : Kept f.memory m' [] t'.ids) :
    Stands key holds ⟨m', f.trees ++ [t']⟩ (states ++ [s']) := by
  constructor
  · exact List.rel_append (forall₂_mem h.trees (fun u _ _ hr => ⟨rooted_kept hr.1 hk (fun j _ => List.not_mem_nil), hr.2⟩))
      (List.Forall₂.cons ⟨ht, hs⟩ List.Forall₂.nil)
  · simp only [List.flatMap_append, List.flatMap_singleton]
    refine List.nodup_append.2 ⟨h.nodup, ht.allocated.nodup, fun a ha b hb => ?_⟩
    obtain ⟨u, hu, ha⟩ := List.mem_flatMap.1 ha
    obtain ⟨k, hk'⟩ := List.mem_iff_getElem?.1 hu
    obtain ⟨-, -, hroot, -⟩ := h.get hk'
    have hlt := hroot.allocated.lt a ha
    rcases hk.ids_mem b hb with hb | hb
    · cases hb
    · exact (hlt.trans_le hb).ne

omit [LinearOrder K] in
theorem kept_new {m : Memory} : Kept m m.new.2 [] [m.fresh] where
  fresh_le := Nat.le_succ _
  ids_mem j hj := Or.inr (List.mem_singleton.1 hj).ge
  frame j hj _ := by simp [Memory.new, hj.ne]

theorem Stands.construct (h : Stands key holds f states) {s : σ} (hs : holds ⟨f.memory.fresh, [], []⟩ s) :
    Stands key holds f.construct (states ++ [s]) :=
  h.append (rooted_empty (Nat.lt_succ_self _) (by simp)) hs kept_new

/-- A copy holds what its source holds. -/
theorem Stands.copy (h : Stands key holds f states) (hitems : ∀ {t t' s}, t'.items = t.items → holds t s → holds t' s)
    {source : Nat} {f' : Forest α} (hcopy : f.copy source = some f') :
    ∃ s, states[source]? = some s ∧ Stands key holds f' (states ++ [s]) := by
  obtain ⟨t, ht, hcopy⟩ := Option.bind_eq_some_iff.1 hcopy
  rcases htree : copyTree t f.memory.fresh none f.memory.new.2 with ⟨t', last, m'⟩
  rw [show f.memory.new = (f.memory.fresh, f.memory.new.2) from rfl] at hcopy
  simp only [htree] at hcopy
  obtain rfl := Option.some.inj hcopy
  obtain ⟨s, hs, hroot, hholds⟩ := h.get ht
  obtain ⟨hroot', hkept, heq⟩ := copy_spec hroot (Nat.lt_succ_self _) htree
  exact ⟨s, hs, h.append hroot' (hitems heq hholds) (kept_new.trans hkept)⟩

theorem set_self {β : Type} {xs : List β} {i : Nat} {x : β} (h : xs[i]? = some x) : xs.set i x = xs := by
  obtain ⟨hi, rfl⟩ := List.getElem?_eq_some_iff.1 h
  exact List.set_getElem_self hi

theorem Stands.assign (h : Stands key holds f states) (hitems : ∀ {t t' s}, t'.items = t.items → holds t s → holds t' s)
    {i source : Nat} {f' : Forest α} (hassign : f.assign i source = some f') :
    ∃ s s', states[i]? = some s ∧ states[source]? = some s' ∧ Stands key holds f' (states.set i s') := by
  obtain ⟨t, ht, hassign⟩ := Option.bind_eq_some_iff.1 hassign
  obtain ⟨u, hu, hassign⟩ := Option.bind_eq_some_iff.1 hassign
  obtain ⟨s, hs, hroot, -⟩ := h.get ht
  obtain ⟨s', hs', hroot', hholds⟩ := h.get hu
  refine ⟨s, s', hs, hs', ?_⟩
  by_cases hself : i = source
  · rw [if_pos hself] at hassign
    obtain rfl := Option.some.inj hassign
    rw [hself, set_self hs']
    exact h
  · rw [if_neg hself] at hassign
    rcases htree : copyTree u (t.clearTree f.memory).1.id none (t.clearTree f.memory).2 with ⟨t', last, m'⟩
    simp only [htree] at hassign
    obtain rfl := Option.some.inj hassign
    obtain ⟨hclear, hkeptClear⟩ := clear_spec hroot
    obtain ⟨hcopied, hkept, heq⟩ := copy_spec hroot' (hclear.allocated.lt _ List.mem_cons_self) htree
    exact h.set ht hcopied (hitems heq hholds) (hkeptClear.trans hkept)

/-- A tree that is not there has no state. -/
theorem Stands.none (h : Stands key holds f states) {i : Nat} (hi : f.trees[i]? = none) : states[i]? = none := by
  rw [List.getElem?_eq_none_iff] at hi ⊢
  exact h.trees.length_eq ▸ hi

theorem Stands.copy_none (h : Stands key holds f states) {source : Nat} (hcopy : f.copy source = Option.none) :
    states[source]? = Option.none := by
  cases ht : f.trees[source]? with
  | none => exact h.none ht
  | some t => simp [Forest.copy, ht] at hcopy

theorem Stands.assign_none (h : Stands key holds f states) {i source : Nat} (hassign : f.assign i source = Option.none) :
    states[i]? = Option.none ∨ states[source]? = Option.none := by
  cases ht : f.trees[i]? with
  | none => exact Or.inl (h.none ht)
  | some t =>
    cases hs : f.trees[source]? with
    | none => exact Or.inr (h.none hs)
    | some s =>
      simp only [Forest.assign, ht, hs, Option.bind_eq_bind, Option.bind_some] at hassign
      split at hassign
      · cases hassign
      · cases hassign

theorem stands_new : Stands key holds (new : Forest α) [] := ⟨List.Forall₂.nil, List.nodup_nil⟩

end Forest
end BPlus
end Sql
