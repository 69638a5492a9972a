import SqlEngine.BPlusLinks
/-!
# BPlusInsert — an insertion keeps the tree

`Below` is what an operation leaves of a tree below its parent: a good tree of the same depth at the same address, with the
items asked for.  A child with an item too many splits into two full ones around a separator (`fixExcess_spec`), so the
parent grows by one item, and so on up to the root.
-/
namespace Sql
namespace BPlus
namespace BPlusTree

/-- Behind the item at an index. -/
theorem insertItem_succ {β : Type} (left right : List β) (x entry : β) :
    insertItem (left ++ x :: right) (left.length + 1) entry = left ++ x :: entry :: right := by
  rw [insertItem, List.append_cons left x right, List.take_left' (by simp), List.drop_left' (by simp), List.append_assoc]
  rfl

section Separators
variable {α K : Type} [LinearOrder K] {key : α → K}

theorem orderedInsert_append {left right : List α} {entry : α} (hl : ∀ x ∈ left, key x < key entry)
    (hr : ∀ x ∈ right, key entry < key x) : orderedInsert key (left ++ right) entry = left ++ entry :: right := by
  have hge : firstGe key (left ++ right) entry = left.length :=
    firstGe_append (fun x hx => (hr x (List.mem_of_mem_head? hx)).le) hl
  rw [orderedInsert, hge, insertItem, List.take_left, List.drop_left]

omit [LinearOrder K] in
/-- Every separator has the key of an item to its right. -/
theorem sep_mem {data : List α} {children : List (BPlusTree α)} (h : List.Forall₂ (Sep key) data children) {d : α}
    (hd : d ∈ data) : ∃ x ∈ children.flatMap items, key x = key d := by
  have hmem := (sep_sublist h).subset (List.mem_map_of_mem hd)
  simpa using hmem

theorem Focus.above {t c : BPlusTree α} {left right : List (BPlusTree α)} {dl dr : List α}
    (h : Focus key t left c right dl dr) {k : K} (hk : ∀ x ∈ right.flatMap BPlusTree.items, k < key x) :
    ∀ d ∈ dr, k < key d := by
  intro d hd
  obtain ⟨x, hx, hxd⟩ := sep_mem h.right_sep hd
  exact hxd ▸ hk x hx

theorem sep_below {left : List (BPlusTree α)} {c : BPlusTree α} {dl : List α}
    (h : List.Forall₂ (Sep key) dl (left ++ [c]).tail)
    {k : K} (hk : ∀ x ∈ left.flatMap items ++ c.items, key x < k) : ∀ d ∈ dl, key d < k := by
  intro d hd
  obtain ⟨x, hx, hxd⟩ := sep_mem h hd
  obtain ⟨child, hchild, hx⟩ := List.mem_flatMap.1 hx
  rw [← hxd]
  rcases List.mem_append.1 (List.mem_of_mem_tail hchild) with hmem | hmem
  · exact hk x (List.mem_append_left _ (List.mem_flatMap.2 ⟨child, hmem, hx⟩))
  · exact hk x (List.mem_append_right _ (List.mem_singleton.1 hmem ▸ hx))

omit [LinearOrder K] in
/-- A separator looks at the key of the first item only. -/
theorem Sep.congr {d : α} {c c' : BPlusTree α} (h : Sep key d c) (hc : c'.items.head?.map key = c.items.head?.map key) :
    Sep key d c' := by
  rw [Sep, hc]
  exact h

omit [LinearOrder K] in
theorem sep_concat {c c' : BPlusTree α} (hc : c'.items.head?.map key = c.items.head?.map key) :
    ∀ (left : List (BPlusTree α)) {dl : List α}, List.Forall₂ (Sep key) dl (left ++ [c]) →
      List.Forall₂ (Sep key) dl (left ++ [c'])
  | [], _, .cons hd .nil => List.Forall₂.cons (hd.congr hc) List.Forall₂.nil
  | _ :: left, _, .cons hd h => List.Forall₂.cons hd (sep_concat hc left h)

omit [LinearOrder K] in
/-- Another child behind some separators, with the same first key if there is a separator in front of it. -/
theorem sep_replace {left : List (BPlusTree α)} {c c' : BPlusTree α} {dl : List α}
    (h : List.Forall₂ (Sep key) dl (left ++ [c]).tail)
    (hc : dl ≠ [] → c'.items.head?.map key = c.items.head?.map key) : List.Forall₂ (Sep key) dl (left ++ [c']).tail := by
  cases left with
  | nil => exact h
  | cons l left =>
    refine sep_concat (hc ?_) left h
    rintro rfl
    have := h.length_eq
    simp at this

omit [LinearOrder K] in
theorem sep_last {c : BPlusTree α} : ∀ (left : List (BPlusTree α)) {dl : List α}, List.Forall₂ (Sep key) dl (left ++ [c]) →
    c.items ≠ []
  | [], _, .cons hd .nil => fun hc => by
    rw [Sep, hc] at hd
    cases hd
  | _ :: left, _, .cons _ h => sep_last left h

end Separators

/-! ## Splitting a child -/

section Splitting
variable {α K : Type} [LinearOrder K] {key : α → K}

/-- **Two good children around a separator**, in the place of others. -/
structure Pair (key : α → K) (n : Nat) (m m' : Memory) (cs : List (BPlusTree α)) (a b : BPlusTree α) (d : α) : Prop where
  left : Good key n a ∧ a.Full
  right : Good key n b ∧ b.Full
  sep : Sep key d b
  items_eq : a.items ++ b.items = cs.flatMap items
  rewired : Rewired m m' (cs.flatMap ids) ([a, b].flatMap ids) (cs.flatMap leafIds) ([a, b].flatMap leafIds)

omit [LinearOrder K] in
theorem Pair.head {n : Nat} {m m' : Memory} {cs : List (BPlusTree α)} {a b : BPlusTree α} {d : α}
    (h : Pair key n m m' cs a b d) :
    a.items.head? = (cs.flatMap items).head? := by
  rw [← h.items_eq, List.head?_append]
  cases ha : a.items with
  | nil => exact absurd ha (h.left.1.items_ne h.left.2)
  | cons x xs => rfl

omit [LinearOrder K] in
theorem Pair.good {n : Nat} {m m' : Memory} {cs : List (BPlusTree α)} {a b : BPlusTree α} {d : α}
    (h : Pair key n m m' cs a b d) :
    ∀ x ∈ [a, b], Good key n x ∧ x.Full := by
  intro x hx
  rcases List.mem_cons.1 hx with rfl | hx
  · exact h.left
  · exact List.mem_singleton.1 hx ▸ h.right

/-- In a sorted node the separator of the two lies between the separators left and right of them. -/
theorem Pair.between {n : Nat} {m m' : Memory} {cs left right : List (BPlusTree α)} {a b : BPlusTree α} {d : α}
    {dl dr : List α}
    (h : Pair key n m m' cs a b d) (hl : List.Forall₂ (Sep key) dl (left ++ [a]).tail) (hr : List.Forall₂ (Sep key) dr right)
    (hs : Sorted key (left.flatMap items ++ cs.flatMap items ++ right.flatMap items)) :
    (∀ x ∈ dl, key x < key d) ∧ ∀ x ∈ dr, key d < key x := by
  rw [← h.items_eq, ← List.append_assoc] at hs
  obtain ⟨hleft, -, hright⟩ := List.pairwise_append.1 hs
  refine ⟨sep_below hl (sep_gt h.sep hleft), fun e he => ?_⟩
  obtain ⟨x, hx, hxe⟩ := sep_mem hr he
  obtain ⟨y, hy, hyd⟩ := sep_mem (List.Forall₂.cons h.sep List.Forall₂.nil) (List.mem_singleton.2 rfl)
  rw [List.flatMap_singleton] at hy
  exact hxe ▸ hyd ▸ hright y (List.mem_append_right _ hy) x hx

omit [LinearOrder K] in
/-- A node of good children. -/
theorem good_parts {n : Nat} {id : Nat} {data : List α} {left right : List (BPlusTree α)} (cs : List (BPlusTree α))
    (h : ∀ x ∈ left ++ right, Good key n x ∧ x.Full) (hcs : ∀ x ∈ cs, Good key n x ∧ x.Full) (hne : cs ≠ [])
    (hsep : List.Forall₂ (Sep key) data (left ++ (cs ++ right)).tail) :
      Good key (n + 1) ⟨id, data, left ++ (cs ++ right)⟩ := by
  refine ⟨by simp [hne], hsep, fun x hx => ?_⟩
  rcases List.mem_append.1 hx with hx | hx
  · exact h x (List.mem_append_left _ hx)
  · rcases List.mem_append.1 hx with hx | hx
    · exact hcs x hx
    · exact h x (List.mem_append_right _ hx)

omit [LinearOrder K] in
theorem Pair.node {n id : Nat} {m m' : Memory} {cs left right : List (BPlusTree α)} {a b : BPlusTree α} {d : α}
    {dl dr : List α}
    (h : Pair key n m m' cs a b d) (hg : ∀ x ∈ left ++ right, Good key n x ∧ x.Full)
    (hl : List.Forall₂ (Sep key) dl (left ++ [a]).tail) (hr : List.Forall₂ (Sep key) dr right) :
    Good key (n + 1) ⟨id, dl ++ d :: dr, left ++ a :: b :: right⟩ := by
  refine good_parts [a, b] hg h.good (by simp) ?_
  rw [List.cons_append, tail_append_cons]
  exact List.rel_append hl (List.Forall₂.cons h.sep hr)

/-- The links when a leaf splits. -/
theorem rewired_leaf {m : Memory} {id : Nat} (h : id < m.fresh) :
    Rewired m ((m.new.2.setNext m.fresh (m.new.2.next id)).setNext id (some m.fresh)) [id] [id, m.fresh] [id]
      [id, m.fresh] where
  fresh_le := Nat.le_succ _
  count_le j := by
    have : taken m ((m.new.2.setNext m.fresh (m.new.2.next id)).setNext id (some m.fresh)) = [m.fresh] := by
      simp [taken, Memory.new, Memory.setNext]
    rw [this, ← List.count_append]
    rfl
  first := rfl
  leaf_mem j hj := by
    rcases List.mem_cons.1 hj with rfl | hj
    · exact Or.inl List.mem_cons_self
    · exact Or.inr (List.mem_singleton.1 hj).ge
  links last hl := by
    have hne := h.ne
    simp only [Linked, List.head?_nil, List.head?_cons, Option.or, and_true] at hl ⊢
    simp [Memory.setNext, Memory.new, hne, hne.symm, hl]
  frame j hj hn := by
    have hne : j ≠ id := fun heq => hn (List.mem_singleton.2 heq)
    simp [Memory.setNext, Memory.new, hne, hj.ne]

/-- The links when an internal node splits. -/
theorem rewired_node {m : Memory} (id : Nat) (xs ys : List Nat) {leafIds : List Nat} (h : ∀ j ∈ leafIds, j < m.fresh) :
    Rewired m m.new.2 (id :: (xs ++ ys)) (id :: xs ++ m.fresh :: ys) leafIds leafIds where
  fresh_le := Nat.le_succ _
  count_le j := by
    have : taken m m.new.2 = [m.fresh] := by simp [taken, Memory.new]
    rw [this]
    simp only [List.count_append, List.count_cons, List.count_nil]
    omega
  first := rfl
  leaf_mem j hj := Or.inl hj
  links last hl := hl.congr (fun j hj => by simp [Memory.new, (h j hj).ne])
  frame j hj _ := by simp [Memory.new, hj.ne]

theorem fixExcess_leaf [Inhabited α] (m : Memory) {id ci : Nat} {left right : List (BPlusTree α)} {dl dr : List α}
    {d1 d2 d3 : α}
    (h23 : key d2 < key d3) (hl : ∀ x ∈ dl, key x < key d2) (hr : ∀ x ∈ dr, key d2 < key x) :
    fixExcess key left.length ⟨id, dl ++ dr, left ++ ⟨ci, [d1, d2, d3], []⟩ :: right⟩ m =
      (⟨id, dl ++ d2 :: dr, left ++ ⟨ci, [d1], []⟩ :: ⟨m.fresh, [d2, d3], []⟩ :: right⟩,
        (m.new.2.setNext m.fresh (m.new.2.next ci)).setNext ci (some m.fresh)) := by
  have hsplit : orderedInsert key [d3] d2 = [d2, d3] := @orderedInsert_append _ _ _ key [] [d3] d2 (by simp)
    (by simpa using h23)
  simp [fixExcess, child, split, detachItem, orderedInsert_append hl hr, hsplit, insertItem_succ, Memory.new]

theorem fixExcess_node [Inhabited α] (m : Memory) {id ci : Nat} {left right : List (BPlusTree α)} {dl dr : List α}
    {d1 d2 d3 : α}
    {c0 c1 c2 c3 : BPlusTree α} (hl : ∀ x ∈ dl, key x < key d2) (hr : ∀ x ∈ dr, key d2 < key x) :
    fixExcess key left.length ⟨id, dl ++ dr, left ++ ⟨ci, [d1, d2, d3], [c0, c1, c2, c3]⟩ :: right⟩ m =
      (⟨id, dl ++ d2 :: dr, left ++ ⟨ci, [d1], [c0, c1]⟩ :: ⟨m.fresh, [d3], [c2, c3]⟩ :: right⟩, m.new.2) := by
  simp [fixExcess, child, split, detachItem, orderedInsert_append hl hr, insertItem_succ, Memory.new]

/-- **`fix_excess` splits a child with three items**, wherever the child stands. -/
theorem fixExcess_spec [Inhabited α] {n : Nat} {m : Memory} {c : BPlusTree α} (hc : Good key n c) (h3 : c.data.length = 3)
    (hs : Sorted key c.items) (ha : Allocated m c.ids) : ∃ a b d m', Pair key n m m' [c] a b d ∧
      ∀ (id : Nat) (left right : List (BPlusTree α)) (dl dr : List α), (∀ x ∈ dl, key x < key d) →
        (∀ x ∈ dr, key d < key x) →
        fixExcess key left.length ⟨id, dl ++ dr, left ++ c :: right⟩ m =
          (⟨id, dl ++ d :: dr, left ++ a :: b :: right⟩, m') := by
  obtain ⟨ci, data, subset⟩ := c
  obtain ⟨d1, d2, d3, rfl⟩ := List.length_eq_three.1 h3
  cases n with
  | zero =>
    obtain rfl : subset = [] := hc
    rw [items_nil] at hs
    have h23 : key d2 < key d3 := (List.pairwise_cons.1 (List.pairwise_cons.1 hs).2).1 d3 List.mem_cons_self
    refine ⟨⟨ci, [d1], []⟩, ⟨m.fresh, [d2, d3], []⟩, d2, _,
      ⟨⟨rfl, full_of (by simp) (by simp)⟩, ⟨rfl, full_of (by simp) (by simp)⟩,
      ?_, ?_, ?_⟩, fun id left right dl dr hl hr => fixExcess_leaf m h23 hl hr⟩
    · rw [Sep, items_nil]
      rfl
    · rfl
    · simpa using rewired_leaf (ha.lt ci (by simp))
  | succ n =>
    have hlen := hc.length
    obtain ⟨c0, subset, rfl⟩ := List.exists_cons_of_length_eq_add_one hlen
    obtain ⟨c1, c2, c3, rfl⟩ := List.length_eq_three.1 (Nat.succ.inj hlen)
    obtain ⟨-, hsep, hchildren⟩ := hc
    obtain ⟨h1, hsep⟩ := List.forall₂_cons.1 hsep
    obtain ⟨h2, hsep⟩ := List.forall₂_cons.1 hsep
    obtain ⟨h3, -⟩ := List.forall₂_cons.1 hsep
    have hne : c2.items ≠ [] := (hchildren c2 (by simp)).1.items_ne (hchildren c2 (by simp)).2
    refine ⟨⟨ci, [d1], [c0, c1]⟩, ⟨m.fresh, [d3], [c2, c3]⟩, d2, m.new.2,
      ⟨⟨⟨by simp, by simpa using h1, fun c hc => hchildren c ?_⟩, full_of (by simp) (by simp)⟩,
        ⟨⟨by simp, by simpa using h3, fun c hc => hchildren c ?_⟩, full_of (by simp) (by simp)⟩, ?_, ?_, ?_⟩,
      fun id left right dl dr hl hr => fixExcess_node m hl hr⟩
    · simp only [List.mem_cons] at hc ⊢
      tauto
    · simp only [List.mem_cons] at hc ⊢
      tauto
    · refine Sep.congr h2 (congrArg (Option.map key) ?_)
      rw [items_cons, List.head?_append]
      cases hx : c2.items with
      | nil => exact absurd hx hne
      | cons x xs => rfl
    · simp
    · have hleaves : ∀ j ∈ (⟨ci, [d1, d2, d3], [c0, c1, c2, c3]⟩ : BPlusTree α).leafIds, j < m.fresh := fun j hj =>
        ha.lt j ((leafIds_sublist _).subset hj)
      have hnode := rewired_node ci (c0.ids ++ c1.ids) (c2.ids ++ c3.ids) hleaves
      simpa using hnode

end Splitting

/-! ## Insertion below the root -/

section Inserting
variable {α K : Type} [Inhabited α] [LinearOrder K] {key : α → K}

/-- **What an operation leaves of a tree**, but for the number of items in its root. -/
structure Below (key : α → K) (n : Nat) (m m' : Memory) (t t' : BPlusTree α) (items : List α) : Prop where
  good : Good key n t'
  id_eq : t'.id = t.id
  items_eq : t'.items = items
  rewired : Rewired m m' t.ids t'.ids t.leafIds t'.leafIds

omit [Inhabited α] in
/-- A search in a sorted array: what is less, and what is greater, with the item found between them. -/
theorem firstGe_search {data : List α} (h : Sorted key data) (entry : α) : ∃ left right, data = left ++ right ∧
    firstGe key data entry = left.length ∧ (∀ x ∈ left, key x < key entry) ∧
    (foundAt key data left.length entry = false ∧ (∀ x ∈ right, key entry < key x) ∨
      foundAt key data left.length entry = true ∧ ∃ x rest, right = x :: rest ∧ key x = key entry ∧
        ∀ y ∈ rest, key entry < key y) := by
  obtain ⟨left, right, rfl, hge, hleft, hright⟩ := firstGe_cut key entry data
  refine ⟨left, right, rfl, hge, hleft, ?_⟩
  rw [foundAt_append]
  cases right with
  | nil => exact Or.inl ⟨rfl, by simp⟩
  | cons x right =>
    have hx := hright x rfl
    have hrest := (List.pairwise_cons.1 (List.pairwise_append.1 h).2.1).1
    by_cases heq : key x = key entry
    · exact Or.inr ⟨(foundAt_head hx).2 heq, x, right, rfl, heq, fun y hy => heq ▸ hrest y hy⟩
    · refine Or.inl ⟨eq_false_of_ne_true (fun hf => heq ((foundAt_head hx).1 hf)), fun y hy => ?_⟩
      have hlt : key entry < key x := lt_of_le_of_ne hx (fun h => heq h.symm)
      rcases List.mem_cons.1 hy with rfl | hy
      · exact hlt
      · exact hlt.trans (hrest y hy)

theorem looseInsert_leaf {t : BPlusTree α} (h : t.subset = []) (entry : α) (m : Memory) : t.looseInsert key entry m =
    if foundAt key t.data (firstGe key t.data entry) entry then (false, t, m)
    else (true, { t with data := insertItem t.data (firstGe key t.data entry) entry }, m) := by
  rw [looseInsert]
  exact if_pos h

theorem looseInsert_node {t c : BPlusTree α} (h : t.subset ≠ []) {entry : α} {i : Nat} (hi : childIndex key t entry = i)
    (hc : t.subset[i]? = some c) (m : Memory) {ans : Bool} {c' : BPlusTree α} {m' : Memory}
    (hins : c.looseInsert key entry m = (ans, c', m')) : t.looseInsert key entry m =
      if c'.data.length > maximum then (ans, fixExcess key i (t.setChild i c') m') else (ans, t.setChild i c', m') := by
  subst hi
  rw [looseInsert]
  simp only [show ¬ t.isLeaf from h, if_false]
  split
  · rename_i hnone
    cases hnone.symm.trans hc
  · rename_i child hsome
    obtain rfl := Option.some.inj (hsome.symm.trans hc)
    rw [hins]
    rfl

omit [Inhabited α] in
theorem insertSorted_holds {items : List α} {entry : α} (hs : Sorted key items) (h : Holds key (key entry) items) :
    insertSorted key entry items = items := by
  obtain ⟨left, right, rfl, hge, hleft, ⟨hf, -⟩ | ⟨-, x, rest, rfl, hx, -⟩⟩ := firstGe_search hs entry
  · have hfound := (foundAt_iff hs).2 h
    rw [hge, hf] at hfound
    cases hfound
  · rw [insertSorted_left hleft, insertSorted, if_neg hx.le.not_gt, if_neg hx.ge.not_gt]

omit [Inhabited α] in
theorem insertSorted_absent {left right : List α} {entry : α} (hl : ∀ x ∈ left, key x < key entry)
    (hr : ∀ x ∈ right, key entry < key x) : insertSorted key entry (left ++ right) = left ++ entry :: right := by
  rw [insertSorted_left hl]
  exact congrArg (left ++ ·) (@insertSorted_right _ _ _ key entry right hr [])

omit [Inhabited α] in
theorem not_holds {left right : List α} {k : K} (hl : ∀ x ∈ left, key x < k) (hr : ∀ x ∈ right, k < key x) :
    ¬ Holds key k (left ++ right) := by
  rintro ⟨x, hx, hk⟩
  rcases List.mem_append.1 hx with hx | hx
  · exact absurd hk (hl x hx).ne
  · exact absurd hk (hr x hx).ne'

/-- What an insertion below a node returns. -/
structure Inserted (key : α → K) (n : Nat) (entry : α) (m : Memory) (t : BPlusTree α) (ans : Bool) (t' : BPlusTree α)
    (m' : Memory) : Prop extends Below key n m m' t t' (insertSorted key entry t.items) where
  ans_iff : ans = true ↔ ¬ Holds key (key entry) t.items
  length_le : t.data.length ≤ t'.data.length
  le_length : t'.data.length ≤ t.data.length + ans.toNat

theorem looseInsert_zero {t : BPlusTree α} (h : Good key 0 t) (hs : Sorted key t.items) (entry : α) (m : Memory) {ans : Bool}
    {t' : BPlusTree α} {m' : Memory} (hins : t.looseInsert key entry m = (ans, t', m')) :
    Inserted key 0 entry m t ans t' m' := by
  obtain ⟨id, data, subset⟩ := t
  obtain rfl : subset = [] := h
  rw [items_nil] at hs
  rw [looseInsert_leaf rfl] at hins
  obtain ⟨left, right, rfl, hge, hleft, ⟨hf, hright⟩ | ⟨hf, x, rest, rfl, hx, hrest⟩⟩ := firstGe_search hs entry
  · simp only [hge, hf] at hins
    injection hins with hans hins
    injection hins with ht hm
    subst hans ht hm
    have hdata : insertItem (left ++ right) left.length entry = left ++ entry :: right := by
      rw [insertItem, List.take_left, List.drop_left]
    refine ⟨⟨rfl, rfl, ?_, Rewired.refl ..⟩, ?_, ?_, ?_⟩
    · rw [items_nil, items_nil, hdata, insertSorted_absent hleft hright]
    · rw [items_nil]
      exact iff_of_true rfl (not_holds hleft hright)
    · simp [hdata]
    · simp only [hdata, List.length_append, List.length_cons, Bool.toNat_true]
      omega
  · have hholds : Holds key (key entry) (left ++ x :: rest) := ⟨x, by simp, hx⟩
    simp only [hge, hf] at hins
    injection hins with hans hins
    injection hins with ht hm
    subst hans ht hm
    refine ⟨⟨rfl, rfl, ?_, Rewired.refl ..⟩, ?_, le_refl _, Nat.le_add_right _ _⟩
    · rw [items_nil, insertSorted_holds hs hholds]
    · rw [items_nil]
      exact iff_of_false Bool.false_ne_true (not_not.2 hholds)

omit [Inhabited α] in
/-- The items of a node with others in the place of one child's. -/
theorem items_parts (id : Nat) (data : List α) (left cs right : List (BPlusTree α)) (hcs : cs ≠ []) :
    (⟨id, data, left ++ (cs ++ right)⟩ : BPlusTree α).items = left.flatMap items ++ cs.flatMap items ++
      right.flatMap items := by
  rw [items_node (by simp [hcs]), List.flatMap_append, List.flatMap_append, List.append_assoc]

omit [LinearOrder K] [Inhabited α] in
theorem Focus.others {n id : Nat} {left right : List (BPlusTree α)} {c : BPlusTree α} {data dl dr : List α}
    (_ : Focus key ⟨id, data, left ++ c :: right⟩ left c right dl dr) (h : Good key (n + 1) ⟨id, data, left ++ c :: right⟩) :
    ∀ x ∈ left ++ right, Good key n x ∧ x.Full := by
  intro x hx
  rcases List.mem_append.1 hx with hx | hx
  · exact h.2.2 x (List.mem_append_left _ hx)
  · exact h.2.2 x (List.mem_append_right _ (List.mem_cons_of_mem c hx))

omit [LinearOrder K] [Inhabited α] in
/-- A node with another good child in the place of one. -/
theorem Focus.good_child {n id : Nat} {left right : List (BPlusTree α)} {c c' : BPlusTree α} {dl dr : List α}
    (hf : Focus key ⟨id, dl ++ dr, left ++ c :: right⟩ left c right dl dr)
      (h : Good key (n + 1) ⟨id, dl ++ dr, left ++ c :: right⟩)
    (hc : Good key n c' ∧ c'.Full) (hhead : dl ≠ [] → c'.items.head?.map key = c.items.head?.map key) :
    Good key (n + 1) ⟨id, dl ++ dr, left ++ c' :: right⟩ := by
  refine good_parts [c'] (hf.others h) (fun x hx => List.mem_singleton.1 hx ▸ hc) (by simp) ?_
  rw [List.singleton_append, tail_append_cons]
  exact List.rel_append (sep_replace hf.left_sep hhead) hf.right_sep

/-- **An insertion below a node keeps the tree.** -/
theorem looseInsert_spec (entry : α) : ∀ (n : Nat) (t : BPlusTree α) (m : Memory), Good key n t → Sorted key t.items →
    Allocated m t.ids → ∀ {ans t' m'}, t.looseInsert key entry m = (ans, t', m') → Inserted key n entry m t ans t' m'
  | 0, t, m, h, hs, _, ans, t', m', hins => looseInsert_zero h hs entry m hins
  | n + 1, t, m, h, hs, ha, ans, t', m', hins => by
    obtain ⟨left, c, right, dl, dr, hfocus, hindex, hl, hr, hdl, -⟩ := h.descend hs entry
    obtain ⟨id, data, subset⟩ := t
    obtain rfl : data = dl ++ dr := hfocus.data_eq
    obtain rfl : subset = left ++ c :: right := hfocus.subset_eq
    obtain ⟨hgood, hfull⟩ := h.2.2 c hfocus.mem
    have hsc := hfocus.sorted hs
    rcases hchild : c.looseInsert key entry m with ⟨ansc, c', m1⟩
    have ih := looseInsert_spec entry n c m hgood hsc ha.child hchild
    have hset : (⟨id, dl ++ dr, left ++ c :: right⟩ : BPlusTree α).setChild left.length c' =
        ⟨id, dl ++ dr, left ++ c' :: right⟩ := by
      simp [setChild]
    rw [looseInsert_node h.1 hindex hfocus.child m hchild, hset] at hins
    have hitems : insertSorted key entry (⟨id, dl ++ dr, left ++ c :: right⟩ : BPlusTree α).items =
        left.flatMap items ++ c'.items ++ right.flatMap items := by
      rw [hfocus.items, insertSorted_right hr, insertSorted_left hl, ih.items_eq]
    have hs' := @Sorted.insert _ _ _ key entry _ hs
    rw [hitems] at hs'
    have hhead : dl ≠ [] → c'.items.head? = c.items.head? := by
      intro hne
      obtain ⟨data, d, x, xs, hd, hc, hkey⟩ := hfocus.first hne (hgood.items_ne hfull)
      rw [ih.items_eq, hc]
      refine head_insertSorted ?_
      rw [hkey]
      exact hdl d (hd ▸ List.mem_append_right data List.mem_cons_self)
    have hrew := ih.rewired.child ha (dl ++ dr)
    have hans := ih.ans_iff
    rw [← holds_focus hfocus hl hr] at hans
    have hle := hfull.le
    have hgrow := ih.le_length
    by_cases hexcess : c'.data.length > maximum
    · have hexcess' : c'.data.length > 2 := hexcess
      have hone := Bool.toNat_le ansc
      obtain ⟨a, b, d, m2, hsplit, hfix⟩ := fixExcess_spec ih.good (by omega) (by rw [ih.items_eq]; exact hsc.insert)
        (hrew.allocated ha).child
      have hsepl : List.Forall₂ (Sep key) dl (left ++ [a]).tail :=
        sep_replace hfocus.left_sep (fun hne => congrArg (Option.map key)
          (hsplit.head.trans (by rw [List.flatMap_singleton]; exact hhead hne)))
      obtain ⟨hdl', hdr'⟩ := hsplit.between hsepl hfocus.right_sep (by rw [List.flatMap_singleton]; exact hs')
      rw [if_pos hexcess, hfix id left right dl dr hdl' hdr'] at hins
      injection hins with hans' hins
      injection hins with ht hm
      subst hans' ht hm
      refine ⟨⟨hsplit.node (hfocus.others h) hsepl hfocus.right_sep, rfl, ?_,
        hrew.trans (hsplit.rewired.parts (by simp) (by simp) (hrew.allocated ha) _)⟩, hans, ?_, ?_⟩
      · rw [hitems, ← List.flatMap_singleton BPlusTree.items c', ← hsplit.items_eq]
        exact (items_parts id _ left [a, b] right (by simp)).trans (by simp)
      · simp
      · simp only [List.length_append, List.length_cons]
        omega
    · rw [if_neg hexcess] at hins
      injection hins with hans' hins
      injection hins with ht hm
      subst hans' ht hm
      have hpos := hfull.pos
      have hlen := ih.length_le
      refine ⟨⟨hfocus.good_child h ⟨ih.good, full_of (by omega) (Nat.not_lt.1 hexcess)⟩
        (fun hne => congrArg (Option.map key) (hhead hne)), rfl, ?_, hrew⟩, hans, le_refl _, Nat.le_add_right _ _⟩
      rw [hitems]
      exact (items_parts id _ left [c'] right (by simp)).trans (by simp)

end Inserting

/-! ## Whole trees -/

section Roots
variable {α K : Type} [LinearOrder K] {key : α → K}

/-- **The invariant of a tree in memory.** -/
structure Rooted (key : α → K) (m : Memory) (t : BPlusTree α) : Prop where
  shape : ∃ n, Good key n t
  le : t.data.length ≤ maximum
  pos : t.subset ≠ [] → minimum ≤ t.data.length
  sorted : Sorted key t.items
  linked : Linked m.next t.leafIds none
  next : m.next t.id = none
  allocated : Allocated m t.ids

/-- An internal node is none of its leaves. -/
theorem id_notMem_leafIds {m : Memory} {t : BPlusTree α} (ha : Allocated m t.ids) (h : t.subset ≠ []) :
    t.id ∉ t.leafIds := by
  have hnodup := ha.nodup
  rw [ids_eq] at hnodup
  rw [leafIds_node h]
  exact fun hmem => (List.nodup_cons.1 hnodup).1 ((flatMap_sublist leafIds_sublist t.subset).subset hmem)

/-- The link of the root stays null. -/
theorem Below.next {n : Nat} {m m' : Memory} {t t' : BPlusTree α} {items : List α} (h : Below key n m m' t t' items)
    (hgood : Good key n t) (hr : Rooted key m t) : m'.next t'.id = none := by
  cases n with
  | zero =>
    have hl := h.rewired.links none hr.linked
    rw [leafIds_leaf h.good] at hl
    exact hl.1
  | succ n =>
    have hmem : t.id ∈ t.ids := by rw [ids_eq]; exact List.mem_cons_self
    rw [h.id_eq, h.rewired.frame t.id (hr.allocated.lt _ hmem) (id_notMem_leafIds hr.allocated hgood.1)]
    exact hr.next

omit [LinearOrder K] in
theorem Below.kept {n : Nat} {m m' : Memory} {t t' : BPlusTree α} {items : List α} (h : Below key n m m' t t' items) :
    Kept m m' t.ids t'.ids := h.rewired.kept (fun _ hj => (leafIds_sublist t).subset hj)

/-- An operation that stays within the bounds of a root. -/
theorem Below.rooted {n : Nat} {m m' : Memory} {t t' : BPlusTree α} {items : List α} (h : Below key n m m' t t' items)
    (hgood : Good key n t) (hr : Rooted key m t) (hs : Sorted key items) (hle : t'.data.length ≤ maximum)
    (hpos : t'.subset ≠ [] → minimum ≤ t'.data.length) : Rooted key m' t' where
  shape := ⟨n, h.good⟩
  le := hle
  pos := hpos
  sorted := h.items_eq ▸ hs
  linked := h.rewired.links none hr.linked
  next := h.next hgood hr
  allocated := h.rewired.allocated hr.allocated

/-! What is at the root moves to a new node. -/

section
variable {m : Memory} {id : Nat} {data : List α} {subset : List (BPlusTree α)}

omit [LinearOrder K] in
theorem good_moved {n : Nat} (id' : Nat) (h : Good key n ⟨id, data, subset⟩) : Good key n ⟨id', data, subset⟩ := by
  cases n with
  | zero => exact h
  | succ n => exact h

theorem items_moved (id id' : Nat) (data : List α) (subset : List (BPlusTree α)) :
    (⟨id', data, subset⟩ : BPlusTree α).items = (⟨id, data, subset⟩ : BPlusTree α).items := by
  cases subset with
  | nil => rw [items_nil, items_nil]
  | cons c cs => rw [items_cons, items_cons]

theorem allocated_moved (ha : Allocated m (⟨id, data, subset⟩ : BPlusTree α).ids) :
    Allocated m.new.2 (id :: (⟨m.fresh, data, subset⟩ : BPlusTree α).ids) := by
  have hid : id < m.fresh := ha.lt id (by simp)
  have hmem : ∀ j ∈ subset.flatMap ids, j < m.fresh := fun j hj => ha.lt j (by simp [hj])
  have hnodup := ha.nodup
  rw [ids_mk, List.nodup_cons] at hnodup
  rw [ids_mk]
  refine ⟨?_, fun j hj => ?_⟩
  · rw [List.nodup_cons, List.nodup_cons, List.mem_cons]
    exact ⟨not_or.2 ⟨hid.ne, hnodup.1⟩, fun hj => absurd (hmem _ hj) (lt_irrefl _), hnodup.2⟩
  · rcases List.mem_cons.1 hj with rfl | hj
    · exact hid.trans (Nat.lt_succ_self _)
    · rcases List.mem_cons.1 hj with rfl | hj
      · exact Nat.lt_succ_self _
      · exact (hmem j hj).trans (Nat.lt_succ_self _)

theorem kept_moved : Kept m m.new.2 (⟨id, data, subset⟩ : BPlusTree α).ids
    (id :: (⟨m.fresh, data, subset⟩ : BPlusTree α).ids) := by
  refine ⟨Nat.le_succ _, fun j hj => ?_, fun j hj _ => by simp [Memory.new, hj.ne]⟩
  rw [ids_mk] at hj ⊢
  rcases List.mem_cons.1 hj with rfl | hj
  · exact Or.inl List.mem_cons_self
  · rcases List.mem_cons.1 hj with rfl | hj
    · exact Or.inr (le_refl _)
    · exact Or.inl (List.mem_cons_of_mem id hj)

theorem linked_moved (ha : Allocated m (⟨id, data, subset⟩ : BPlusTree α).ids)
    (hlinked : Linked m.next (⟨id, data, subset⟩ : BPlusTree α).leafIds none) :
    Linked m.new.2.next (⟨m.fresh, data, subset⟩ : BPlusTree α).leafIds none := by
  cases subset with
  | nil => simp [Linked, Memory.new]
  | cons c cs =>
    rw [leafIds_cons] at hlinked ⊢
    refine hlinked.congr (fun j hj => ?_)
    have hj' : j ∈ ((c :: cs).flatMap ids) :=
      (flatMap_sublist leafIds_sublist (c :: cs)).subset (by rw [List.flatMap_cons]; exact hj)
    have hlt : j < m.fresh := ha.lt j (by rw [ids_mk]; exact List.mem_cons_of_mem id hj')
    simp [Memory.new, hlt.ne]

end

/-- The root splits: its items and children move to a new node, and that one splits below the root. -/
theorem rooted_split [Inhabited α] {n : Nat} {m : Memory} {t : BPlusTree α} (h : Good key n t) (h3 : t.data.length = 3)
    (hs : Sorted key t.items) (hlinked : Linked m.next t.leafIds none) (hnext : m.next t.id = none)
      (ha : Allocated m t.ids) :
    let r := fixExcess key 0 ⟨t.id, [], [⟨m.fresh, t.data, t.subset⟩]⟩ m.new.2
    Rooted key r.2 r.1 ∧ Kept m r.2 t.ids r.1.ids ∧ r.1.items = t.items := by
  obtain ⟨id, data, subset⟩ := t
  have hid : id < m.fresh := ha.lt id (by simp)
  have hcopy := allocated_moved ha
  have hitems := items_moved id m.fresh data subset
  have hlinks := linked_moved ha hlinked
  obtain ⟨a, b, d, m', hsplit, hfix⟩ := fixExcess_spec (good_moved m.fresh h) h3 (hitems ▸ hs)
    ⟨(List.nodup_cons.1 hcopy.nodup).2, fun j hj => hcopy.lt j (List.mem_cons_of_mem id hj)⟩
  have hsplitItems := hsplit.items_eq
  have hsplitRewired := hsplit.rewired
  simp only [List.flatMap_cons, List.flatMap_nil, List.append_nil] at hsplitItems hsplitRewired
  have hrew := hsplitRewired.cons id
  have hwhole := hfix id [] [] [] [] (by simp) (by simp)
  simp only [List.nil_append, List.length_nil] at hwhole
  simp only [hwhole]
  have hkept : Kept m.new.2 m' (id :: (⟨m.fresh, data, subset⟩ : BPlusTree α).ids) (id :: (a.ids ++ b.ids)) :=
    hrew.kept (fun j hj => List.mem_cons_of_mem id ((leafIds_sublist _).subset hj))
  have hids : (⟨id, [d], [a, b]⟩ : BPlusTree α).ids = id :: (a.ids ++ b.ids) := by simp
  have hitems' : (⟨id, [d], [a, b]⟩ : BPlusTree α).items = (⟨id, data, subset⟩ : BPlusTree α).items := by
    rw [← hitems, ← hsplitItems]
    simp
  have hleaf : id ∉ (⟨m.fresh, data, subset⟩ : BPlusTree α).leafIds := fun hj =>
    (List.nodup_cons.1 hcopy.nodup).1 ((leafIds_sublist _).subset hj)
  refine ⟨⟨⟨n + 1, by simp, List.Forall₂.cons hsplit.sep List.Forall₂.nil, hsplit.good⟩, by simp [maximum, minimum],
    by simp [minimum], hitems' ▸ hs, ?_, ?_, ?_⟩, hids ▸ kept_moved.trans hkept, hitems'⟩
  · simpa using hsplitRewired.links none hlinks
  · rw [hsplitRewired.frame id (hid.trans (Nat.lt_succ_self _)) hleaf]
    simpa [Memory.new, hid.ne] using hnext
  · rw [hids]
    exact hrew.allocated hcopy

/-- **`insert` keeps the tree**: the items are the old ones with the entry, and the answer says whether that is a change. -/
theorem insert_spec [Inhabited α] {m : Memory} {t : BPlusTree α} (h : Rooted key m t) (entry : α) {ans : Bool}
    {t' : BPlusTree α}
    {m' : Memory} (hins : t.insert key entry m = (ans, t', m')) : Rooted key m' t' ∧ Kept m m' t.ids t'.ids ∧
      t'.items = insertSorted key entry t.items ∧ (ans = true ↔ ¬ Holds key (key entry) t.items) := by
  obtain ⟨n, hgood⟩ := h.shape
  rcases hloose : t.looseInsert key entry m with ⟨ans1, t1, m1⟩
  have hspec := looseInsert_spec entry n t m hgood h.sorted h.allocated hloose
  have hle : t.data.length ≤ 2 := h.le
  have hgrow := hspec.le_length
  have hlen := hspec.length_le
  have hsorted := @Sorted.insert _ _ _ key entry _ h.sorted
  have hpos : t1.subset ≠ [] → minimum ≤ t1.data.length := fun hne => by
    cases n with
    | zero => exact absurd hspec.good hne
    | succ n => exact (h.pos hgood.1).trans hlen
  simp only [insert, hloose] at hins
  by_cases hans : ans1 = false
  · rw [if_pos hans] at hins
    injection hins with h1 hins
    injection hins with ht hm
    subst h1 ht hm
    rw [hans, Bool.toNat_false] at hgrow
    exact ⟨hspec.toBelow.rooted hgood h hsorted (hgrow.trans hle) hpos, hspec.kept, hspec.items_eq, hans ▸ hspec.ans_iff⟩
  · have hyes := eq_true_of_ne_false hans
    have hans' := hspec.ans_iff
    rw [hyes] at hans' hgrow
    rw [if_neg hans] at hins
    by_cases hexcess : t1.data.length > maximum
    · have hexcess' : t1.data.length > 2 := hexcess
      have hroot := rooted_split (m := m1) hspec.good (by rw [Bool.toNat_true] at hgrow; omega) (hspec.items_eq ▸ hsorted)
        (hspec.rewired.links none h.linked) (hspec.toBelow.next hgood h) (hspec.rewired.allocated h.allocated)
      rw [if_pos hexcess] at hins
      injection hins with h1 hins
      rw [show fixExcess key 0 ⟨t1.id, [], [⟨m1.fresh, t1.data, t1.subset⟩]⟩ m1.new.2 = (t', m') from hins] at hroot
      obtain ⟨hrooted, hkept, hitems⟩ := hroot
      subst h1
      exact ⟨hrooted, hspec.kept.trans hkept, hitems.trans hspec.items_eq, hans'⟩
    · rw [if_neg hexcess] at hins
      injection hins with h1 hins
      injection hins with ht hm
      subst h1 ht hm
      exact ⟨hspec.toBelow.rooted hgood h hsorted (Nat.not_lt.1 hexcess) hpos, hspec.kept, hspec.items_eq, hans'⟩

end Roots

end BPlusTree
end BPlus
end Sql
