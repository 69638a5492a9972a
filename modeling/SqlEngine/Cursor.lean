import SqlEngine.OrderedSet
/-!
# Cursor — iterators as what is still to come, and what `is_valid` checks

A tree is toured by its iterators in one order (`Tour`), so an iterator is known by the items in front of it (`At`): two
of one tree are equal exactly if these are, and a loop from one to another visits what lies between.  Every tree that
stands passes its own check, and `count` is its items and the separators.
-/
namespace Sql
namespace BPlus

open BPlusTree

/-! ## `is_valid` and `count` -/

section Arrays
variable {α K : Type} [LinearOrder K] (key : α → K)

/-- `item <= data[i]` for all of them. -/
def isLe (data : List α) (item : α) : Bool := data.all (fun x => ¬ key x < key item)

def isGt (data : List α) (item : α) : Bool := data.all (fun x => ¬ key item ≤ key x)

/-- No item is greater than the next. -/
def inOrder : List α → Bool
  | x :: y :: data => if key y < key x then false else inOrder (y :: data)
  | _ => true

end Arrays

namespace BPlusTree
variable {α K : Type} [LinearOrder K] (key : α → K)

mutual
/-- A leaf that has no items has no first one either, and then the comparison with it fails here. -/
def isValid : BPlusTree α → Bool
  | ⟨_, data, subset⟩ =>
    if data.length = 0 ∧ subset = [] then true
    else if data.length > maximum ∨ data.length < minimum then false
    else if subset.length > maximum + 1 then false
    else if ¬ inOrder key data then false
    else if subset = [] then true
    else if subset.length ≠ data.length + 1 then false
    else validSubset data subset
/-- The loop over the items of an internal node, and the last child. -/
def validSubset : List α → List (BPlusTree α) → Bool
  | d :: data, c :: next :: subset =>
    isGt key c.data d && isLe key next.data d && isValid c &&
      decide (some (key d) = next.getSmallestNode.data.head?.map key) && validSubset data (next :: subset)
  | [], [c] => isValid c
  | _, _ => false  -- not reached
end

mutual
def count : BPlusTree α → Nat
  | ⟨_, data, subset⟩ => data.length + countSubset subset
def countSubset : List (BPlusTree α) → Nat
  | [] => 0
  | c :: subset => count c + countSubset subset
end

section
variable {key}

omit [LinearOrder K] in
/-- The items of a node have keys of leaves. -/
theorem Good.data_keys {n : Nat} {t : BPlusTree α} (h : Good key n t) : ∀ x ∈ t.data, ∃ y ∈ t.items, key y = key x := by
  intro x hx
  cases n with
  | zero =>
    rw [items_leaf h]
    exact ⟨x, hx, rfl⟩
  | succ n =>
    obtain ⟨y, hy, heq⟩ := sep_mem h.2.1 hx
    rw [items_node h.1]
    obtain ⟨c, hc, hyc⟩ := List.mem_flatMap.1 hy
    exact ⟨y, List.mem_flatMap.2 ⟨c, List.mem_of_mem_tail hc, hyc⟩, heq⟩

omit [LinearOrder K] in
/-- The smallest node begins with the smallest item. -/
theorem head_smallest : ∀ {n : Nat} {t : BPlusTree α}, Good key n t → t.Full →
    t.getSmallestNode.data.head? = t.items.head?
  | 0, ⟨id, data, subset⟩, h, _ => by
    obtain rfl : subset = [] := h
    rw [items_nil]
    rfl
  | n + 1, ⟨id, data, subset⟩, h, _ => by
    obtain ⟨c, cs, rfl⟩ := List.exists_cons_of_ne_nil h.1
    obtain ⟨hgood, hfull⟩ := h.2.2 c List.mem_cons_self
    obtain ⟨x, xs, hx⟩ := List.exists_cons_of_ne_nil (hgood.items_ne hfull)
    rw [items_cons, getSmallestNode, head_smallest hgood hfull, hx]
    rfl

theorem inOrder_sorted : ∀ {data : List α}, Sorted key data → inOrder key data = true
  | [], _ => rfl
  | [_], _ => rfl
  | x :: y :: data, h => by
    obtain ⟨hx, hrest⟩ := List.pairwise_cons.1 h
    rw [inOrder, if_neg (hx y List.mem_cons_self).not_gt]
    exact inOrder_sorted hrest

/-- **Separators pass the loop of `is_valid`.** -/
theorem validSubset_sep {n : Nat} : ∀ {data : List α} {c : BPlusTree α} {subset : List (BPlusTree α)},
    List.Forall₂ (Sep key) data subset → Sorted key ((c :: subset).flatMap items) →
      (∀ u ∈ c :: subset, Good key n u ∧ u.Full ∧ u.isValid key = true) → validSubset key data (c :: subset) = true
  | _, c, _, .nil, _, h => (h c List.mem_cons_self).2.2
  | d :: data, c, next :: subset, .cons hd hsep, hs, h => by
    obtain ⟨hgood, -, hvalid⟩ := h c List.mem_cons_self
    obtain ⟨hgood', hfull', -⟩ := h next (List.mem_cons_of_mem c List.mem_cons_self)
    rw [List.flatMap_cons] at hs
    have hrest := (List.pairwise_append.1 hs).2.1
    have hpair : Sorted key (c.items ++ next.items) := by
      rw [List.flatMap_cons, ← List.append_assoc] at hs
      exact (List.pairwise_append.1 hs).1
    have hgt : isGt key c.data d = true := List.all_eq_true.2 (fun x hx => by
      obtain ⟨y, hy, heq⟩ := hgood.data_keys x hx
      exact decide_eq_true (not_le.2 (heq ▸ sep_gt hd hpair y hy)))
    have hle : isLe key next.data d = true := List.all_eq_true.2 (fun x hx => by
      obtain ⟨y, hy, heq⟩ := hgood'.data_keys x hx
      exact decide_eq_true (not_lt.2 (heq ▸ sep_le hd (List.pairwise_append.1 hpair).2.1 y hy)))
    have hfirst : some (key d) = next.getSmallestNode.data.head?.map key := by
      rw [head_smallest hgood' hfull']
      exact hd.symm
    have ih := validSubset_sep hsep hrest (fun u hu => h u (List.mem_cons_of_mem c hu))
    rw [validSubset, hgt, hle, hvalid, decide_eq_true hfirst, ih]
    rfl

/-- A node of a good tree is valid; so is a root, which may be an empty leaf. -/
theorem isValid_good : ∀ (n : Nat) (t : BPlusTree α), Good key n t → Sorted key t.items → t.data.length ≤ maximum →
    (t.subset ≠ [] → minimum ≤ t.data.length) → t.isValid key = true
  | 0, ⟨id, data, subset⟩, h, hs, hle, _ => by
    obtain rfl : subset = [] := h
    rw [items_nil] at hs
    rw [isValid]
    by_cases hnil : data.length = 0
    · rw [if_pos ⟨hnil, rfl⟩]
    · have hcount : ¬ (data.length > maximum ∨ data.length < minimum) :=
        not_or.2 ⟨Nat.not_lt.2 hle, Nat.not_lt.2 (Nat.one_le_iff_ne_zero.2 hnil)⟩
      rw [if_neg (fun hboth => hnil hboth.1), if_neg hcount,
        if_neg (show ¬ ([] : List (BPlusTree α)).length > maximum + 1 from Nat.not_lt_zero _),
        if_neg (not_not.2 (inOrder_sorted hs)), if_pos rfl]
  | n + 1, ⟨id, data, subset⟩, h, hs, hle, hpos => by
    obtain ⟨c, cs, rfl⟩ := List.exists_cons_of_ne_nil h.1
    have hlen : (c :: cs).length = data.length + 1 := h.length
    have hcount : ¬ (data.length > maximum ∨ data.length < minimum) := not_or.2 ⟨Nat.not_lt.2 hle, Nat.not_lt.2 (hpos h.1)⟩
    have hkids : ∀ u ∈ c :: cs, Good key n u ∧ u.Full ∧ u.isValid key = true := fun u hu => by
      obtain ⟨hgood, hfull⟩ := h.2.2 u hu
      have hsorted : Sorted key u.items := by
        obtain ⟨A, B, hsplit⟩ := List.append_of_mem hu
        rw [items_node h.1] at hs
        have hsub : u.items.Sublist ((c :: cs).flatMap items) := by
          rw [hsplit, List.flatMap_append, List.flatMap_cons]
          exact (List.sublist_append_left _ _).trans (List.sublist_append_right _ _)
        exact List.Pairwise.sublist hsub hs
      exact ⟨hgood, hfull, isValid_good n u hgood hsorted hfull.2 (fun _ => hfull.1)⟩
    have horder : inOrder key data = true := inOrder_sorted (h.data_sorted hs)
    have hloop : validSubset key data (c :: cs) = true :=
      validSubset_sep h.2.1 (by rw [items_node h.1] at hs; exact hs) hkids
    rw [isValid, if_neg (fun hboth => h.1 hboth.2), if_neg hcount,
      if_neg (Nat.not_lt.2 (hlen.le.trans (Nat.succ_le_succ hle))), if_neg (not_not.2 horder), if_neg h.1,
      if_neg (not_not.2 hlen), hloop]

omit [LinearOrder K] in
/-- **`count` is one less than the items and the leaves**: it takes the separators for items. -/
theorem count_good : ∀ {n : Nat} {t : BPlusTree α}, Good key n t → t.count + 1 = t.items.length + t.leaves.length
  | 0, ⟨id, data, subset⟩, h => by
    obtain rfl : subset = [] := h
    rw [items_nil, leaves_leaf rfl]
    rfl
  | n + 1, ⟨id, data, subset⟩, h => by
    have hkids : ∀ {cs : List (BPlusTree α)}, (∀ c ∈ cs, Good key n c) →
        countSubset cs + cs.length = (cs.flatMap items).length + (cs.flatMap leaves).length := by
      intro cs
      induction cs with
      | nil => exact fun _ => rfl
      | cons c cs ih =>
        intro hcs
        have hc := count_good (hcs c List.mem_cons_self)
        have hrest := ih (fun u hu => hcs u (List.mem_cons_of_mem c hu))
        simp only [countSubset, List.length_cons, List.flatMap_cons, List.length_append]
        omega
    have hall := hkids (fun c hc => (h.2.2 c hc).1)
    have hlen := h.length
    rw [items_node h.1, leaves_node h.1, count]
    dsimp only at hall hlen ⊢
    omega

end

end BPlusTree

/-! ## Tours -/

namespace Forest
variable {α : Type} {f : Forest α} {t : BPlusTree α}

theorem Walk.length : ∀ {its : List Iterator} {xs : List α}, Walk f its xs → its.length = xs.length
  | [], [], _ => rfl
  | _ :: _, _ :: _, ⟨_, _, _, h⟩ => congrArg Nat.succ (Walk.length h)

theorem Walk.drop : ∀ {its : List Iterator} {xs : List α} (n : Nat), Walk f its xs → Walk f (its.drop n) (xs.drop n)
  | _, _, 0, h => h
  | [], [], _ + 1, h => h
  | _ :: _, _ :: _, n + 1, ⟨_, _, _, h⟩ => Walk.drop n h

/-- There is one way from an iterator to the end. -/
theorem Walk.unique : ∀ {its its' : List Iterator} {xs xs' : List α}, Walk f its xs → Walk f its' xs' →
    its.headD Iterator.end = its'.headD Iterator.end → its = its'
  | [], [], _, _, _, _, _ => rfl
  | [], _ :: _, [], _ :: _, _, h', heq => absurd heq.symm h'.1
  | _ :: _, [], _ :: _, [], h, _, heq => absurd heq h.1
  | it :: its, it' :: its', x :: xs, x' :: xs', h, h', heq => by
    obtain rfl : it = it' := heq
    obtain ⟨-, -, hi, hw⟩ := h
    obtain ⟨-, -, hi', hw'⟩ := h'
    rw [Walk.unique hw hw' (Option.some.inj (hi.symm.trans hi'))]

/-- The iterators of a tree, from `begin` on. -/
def Tour (f : Forest α) (t : BPlusTree α) (its : List Iterator) : Prop :=
  begin t = its.headD Iterator.end ∧ Walk f its t.items

/-- **An iterator with these items in front of it**, the first of them under it. -/
def At (f : Forest α) (t : BPlusTree α) (it : Iterator) (rest : List α) : Prop :=
  ∃ its n, Tour f t its ∧ it = (its.drop n).headD Iterator.end ∧ rest = t.items.drop n

theorem Tour.at_begin {its : List Iterator} (h : Tour f t its) : At f t (begin t) t.items := ⟨its, 0, h, h.1, rfl⟩

theorem Tour.at_end {its : List Iterator} (h : Tour f t its) : At f t Iterator.end [] := by
  refine ⟨its, its.length, h, ?_, ?_⟩
  · rw [List.drop_length]
    rfl
  · rw [h.2.length, List.drop_length]

section
variable {it it' : Iterator} {rest rest' : List α}

theorem At.nil (h : At f t it []) : it = Iterator.end := by
  obtain ⟨its, n, htour, rfl, hrest⟩ := h
  have hwalk := htour.2.drop n
  rw [← hrest] at hwalk
  rw [List.eq_nil_of_length_eq_zero hwalk.length]
  rfl

/-- One step on. -/
theorem At.cons {x : α} (h : At f t it (x :: rest)) : it ≠ Iterator.end ∧ f.deref it = some x ∧
    ∃ next, f.increment it = some next ∧ At f t next rest := by
  obtain ⟨its, n, htour, rfl, hrest⟩ := h
  have hwalk := htour.2.drop n
  rw [← hrest] at hwalk
  cases hits : its.drop n with
  | nil =>
    rw [hits] at hwalk
    exact hwalk.elim
  | cons first others =>
    rw [hits] at hwalk
    obtain ⟨hne, hderef, hincrement, -⟩ := hwalk
    refine ⟨hne, hderef, _, hincrement, its, n + 1, htour, ?_, ?_⟩
    · rw [← List.drop_drop, hits, List.drop_one, List.tail_cons]
    · rw [← List.drop_drop, ← hrest, List.drop_one, List.tail_cons]

/-- **Iterators of one tree are equal exactly if the same items are in front of them.** -/
theorem At.eq_iff (h : At f t it rest) (h' : At f t it' rest') : it = it' ↔ rest = rest' := by
  obtain ⟨its, n, htour, rfl, rfl⟩ := h
  obtain ⟨its', n', htour', rfl, rfl⟩ := h'
  obtain rfl : its = its' := htour.2.unique htour'.2 (htour.1.symm.trans htour'.1)
  have hlen := htour.2.length
  constructor
  · intro heq
    have hdrop := congrArg List.length ((htour.2.drop n).unique (htour.2.drop n') heq)
    rw [List.length_drop, List.length_drop] at hdrop
    rcases Nat.lt_or_ge n its.length with hn | hn
    · rw [show n = n' by omega]
    · rw [List.drop_of_length_le (hlen ▸ hn), List.drop_of_length_le (by omega)]
  · intro heq
    have hdrop := congrArg List.length heq
    rw [List.length_drop, List.length_drop] at hdrop
    rcases Nat.lt_or_ge n its.length with hn | hn
    · rw [show n = n' by omega]
    · rw [List.drop_of_length_le hn, List.drop_of_length_le (by omega)]

theorem At.length_le (h : At f t it rest) : rest.length ≤ t.items.length := by
  obtain ⟨its, n, -, -, rfl⟩ := h
  rw [List.length_drop]
  omega

/-- The search that `lower_bound` and `upper_bound` are goes on to the first item that is as asked for. -/
theorem At.search (p : α → Bool) : ∀ {rest : List α} {it : Iterator} (fuel : Nat), At f t it rest → rest.length < fuel →
    ∃ it', f.searchLoop p fuel it = some it' ∧ At f t it' (rest.dropWhile (fun x => !p x))
  | _, _, 0, _, h => absurd h (Nat.not_lt_zero _)
  | [], it, fuel + 1, hat, _ => by
    obtain rfl := hat.nil
    exact ⟨Iterator.end, if_pos rfl, hat⟩
  | x :: rest, it, fuel + 1, hat, h => by
    obtain ⟨hne, hderef, next, hincrement, hnext⟩ := hat.cons
    rw [searchLoop, if_neg hne, hderef, hincrement]
    simp only [Option.bind_eq_bind, Option.bind_some]
    cases hp : p x with
    | true =>
      rw [if_pos rfl, List.dropWhile_cons_of_neg (by simp [hp])]
      exact ⟨it, rfl, hat⟩
    | false =>
      rw [if_neg Bool.false_ne_true, List.dropWhile_cons_of_pos (by simp [hp])]
      exact hnext.search p fuel (Nat.lt_of_succ_lt_succ h)

/-- `for (it = first; it != last; ++it)`, with the items visited. -/
def scanLoop (f : Forest α) : Nat → Iterator → Iterator → Option (List α)
  | 0, _, _ => none
  | fuel + 1, it, last => if it = last then some [] else do
    let x ← f.deref it
    let it ← f.increment it
    let xs ← scanLoop f fuel it last
    pure (x :: xs)

/-- **A loop from one iterator to another visits what lies between.** -/
theorem At.scan {last : Iterator} (hlast : At f t last rest) : ∀ {between : List α} {it : Iterator} (fuel : Nat),
    At f t it (between ++ rest) → between.length < fuel → f.scanLoop fuel it last = some between
  | _, _, 0, _, h => absurd h (Nat.not_lt_zero _)
  | [], it, fuel + 1, hat, _ => if_pos ((hat.eq_iff hlast).2 rfl)
  | x :: between, it, fuel + 1, hat, h => by
    obtain ⟨-, hderef, next, hincrement, hnext⟩ := hat.cons
    have hne : it ≠ last := fun heq => by
      have hlen := congrArg List.length ((hat.eq_iff hlast).1 heq)
      simp only [List.cons_append, List.length_cons, List.length_append] at hlen
      omega
    rw [scanLoop, if_neg hne, hderef, hincrement]
    simp only [Option.bind_eq_bind, Option.bind_some, hlast.scan fuel hnext (Nat.lt_of_succ_lt_succ h)]
    rfl

end

/-! ## The tour of a standing tree -/

/-- The place of an item in its leaf among all places. -/
theorem places_at {A B : List (BPlusTree α)} {l : BPlusTree α} {i : Nat} (hi : i < l.data.length) :
    ((places (A ++ l :: B)).drop ((A.flatMap data).length + i)).headD Iterator.end = ⟨some l.id, i⟩ := by
  have hsplit : places (A ++ l :: B) = places A ++ (placesFrom l 0 ++ places B) := by
    rw [places, List.flatMap_append, List.flatMap_cons]
    rfl
  have hleaf : (placesFrom l 0).drop i = ⟨some l.id, i⟩ :: (placesFrom l 0).drop (i + 1) := by
    have hlt : i < (placesFrom l 0).length := by simpa [placesFrom] using hi
    rw [List.drop_eq_getElem_cons hlt]
    simp [placesFrom]
  rw [hsplit, ← length_places, ← List.drop_drop, List.drop_left,
    List.drop_append_of_le_length (by simpa [placesFrom] using hi.le),
    hleaf]
  rfl

variable {K : Type} [LinearOrder K] {key : α → K}

theorem tour_tree (h : Rooted key f.memory t) (hnode : ∀ l ∈ t.leaves, f.node l.id = some l) :
    Tour f t (places t.leaves) := by
  obtain ⟨n, hgood⟩ := h.shape
  by_cases hempty : t.data.length = 0 ∧ t.isLeaf
  · have hdata := List.length_eq_zero_iff.1 hempty.1
    have hplaces : places t.leaves = [] := by
      rw [leaves_leaf hempty.2, places, List.flatMap_singleton, placesFrom, hdata]
      rfl
    rw [Tour, hplaces, items_leaf hempty.2, hdata, begin, if_pos hempty]
    exact ⟨rfl, trivial⟩
  · have hpos : 0 < t.data.length := by
      by_contra h0
      exact hempty ⟨Nat.eq_zero_of_not_pos h0, Classical.byContradiction (fun hne => h0 (h.pos hne))⟩
    have hleaves := hgood.leaf_pos hpos
    refine ⟨?_, walk_leaves (fun l hl => ⟨hnode l hl, hleaves l hl⟩) h.linked⟩
    rw [begin, if_neg hempty, head_places hleaves]
    exact congrArg (fun next => (⟨next, 0⟩ : Iterator)) (head_leafIds t).symm

/-- **`find` has the item with the key in front of it**, and what comes behind. -/
theorem find_at [Inhabited α] (h : Rooted key f.memory t) (hnode : ∀ l ∈ t.leaves, f.node l.id = some l) (entry : α) :
    At f t (t.find key entry)
      (if t.contains key entry then t.items.dropWhile (fun x => decide (key x < key entry)) else []) := by
  obtain ⟨n, hgood⟩ := h.shape
  have htour := tour_tree h hnode
  have hcontains := contains_iff entry n t hgood h.sorted
  rcases find_spec entry n t hgood h.sorted with ⟨hend, hnone⟩ | ⟨l, hl, i, x, hfind, hx, hsome⟩
  · have habsent : ¬ t.contains key entry = true := fun hc => by
      obtain ⟨x, hx, hk⟩ := hcontains.1 hc
      exact List.find?_eq_none.1 hnone x hx (decide_eq_true hk)
    rw [if_neg habsent, hend]
    exact htour.at_end
  · have hfound := List.find?_some hsome
    have hk : key x = key entry := of_decide_eq_true hfound
    rw [if_pos (hcontains.2 ⟨x, List.mem_of_find?_eq_some hsome, hk⟩), hfind]
    obtain ⟨A, B, hsplit⟩ := List.append_of_mem hl
    obtain ⟨hi, rfl⟩ := List.getElem?_eq_some_iff.1 hx
    have hitems : t.items = (A.flatMap data ++ l.data.take i) ++ l.data[i] :: (l.data.drop (i + 1) ++ B.flatMap data) := by
      rw [items, hsplit, List.flatMap_append, List.flatMap_cons, ← List.cons_append, ← List.drop_eq_getElem_cons hi,
        List.append_assoc, ← List.append_assoc (l.data.take i), List.take_append_drop]
    refine ⟨_, (A.flatMap data).length + i, htour, ?_, ?_⟩
    · rw [hsplit, places_at hi]
    · have hfront : (A.flatMap data ++ l.data.take i).length = (A.flatMap data).length + i := by
        rw [List.length_append, List.length_take, Nat.min_eq_left hi.le]
      have hsorted := h.sorted
      rw [hitems] at hsorted ⊢
      have hless := (List.pairwise_append.1 hsorted).2.2
      rw [← hfront, List.drop_left, List.dropWhile_append_of_pos
        (fun y hy => decide_eq_true (hk ▸ hless y hy _ List.mem_cons_self)),
        List.dropWhile_cons_of_neg (by simp [hk])]

end Forest

/-- **Every tree that a run reaches is valid** by its own check, and `count` is above `size` by its separators. -/
theorem run_valid {α : Type} [Inhabited α] [LinearOrder α] {ops : List (Op α)} {answers : List (Option Bool)} {f : Forest α}
    (hrun : Forest.new.run ops = some (answers, f)) : ∀ t ∈ f.trees, t.isValid (fun x => x) = true ∧
      ∀ fuel > t.items.length, ∃ size, f.size fuel t = some size ∧ t.count + 1 = size + t.leaves.length := by
  intro t ht
  obtain ⟨sets, -, hstands⟩ := run_sets Forest.stands_new hrun
  obtain ⟨i, hi⟩ := List.mem_iff_getElem?.1 ht
  obtain ⟨s, -, hroot, hitems⟩ := hstands.get hi
  obtain ⟨n, hgood⟩ := hroot.shape
  have hseen := orderedSet_of hstands ht hroot hitems
  have hlen : t.items.length = s.card := by rw [hitems, Finset.length_sort]
  refine ⟨isValid_good n t hgood hroot.sorted hroot.le hroot.pos,
    fun fuel hfuel => ⟨s.card, hseen.size fuel (hlen ▸ hfuel), ?_⟩⟩
  rw [← hlen]
  exact count_good hgood

theorem run_valid_erased : ∃ answers f, Forest.new.run [Op.create, .insert 0 3, .insert 0 1, .insert 0 2, .erase 0 1] =
      some (answers, f) ∧ ∀ t ∈ f.trees, t.isValid (fun x => x) = true ∧
        ∀ fuel > t.items.length, ∃ size, f.size fuel t = some size ∧ t.count + 1 = size + t.leaves.length := by
  have hruns : (Forest.new.run [Op.create, .insert 0 3, .insert 0 1, .insert 0 2, .erase 0 1]).isSome = true := by
    decide
  obtain ⟨⟨answers, f⟩, hrun⟩ := Option.isSome_iff_exists.1 hruns
  exact ⟨answers, f, hrun, run_valid hrun⟩

end BPlus
end Sql
