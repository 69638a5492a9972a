import SqlEngine.BPlusInsert
/-!
# BPlusErase — an erasure keeps the tree

A child that has lost its last item is repaired with a neighbour: two adjacent children around a separator become two others
(`Shifted`) or one (`Merged`).  When the erased entry was a separator, that separator is out of date until `replaceErased`
finds it again, in the node or in the repaired child, and puts the least item to its right in its place.
-/
namespace Sql
namespace BPlus
namespace BPlusTree

/-! ## Two adjacent children -/

section Arrays
variable {α β : Type}

theorem eraseIdx_second (A B : List β) (a b : β) : (A ++ a :: b :: B).eraseIdx (A.length + 1) = A ++ a :: B := by
  rw [List.append_cons, List.eraseIdx_append_of_length_le (by simp)]
  simp

theorem set_at {A B : List β} {a : β} {i : Nat} (h : i = A.length) (x : β) : (A ++ a :: B).set i x = A ++ x :: B := by
  subst h
  simp

theorem eraseIdx_at {A B : List β} {a : β} {i : Nat} (h : i = A.length) : (A ++ a :: B).eraseIdx i = A ++ B := by
  subst h
  rw [List.eraseIdx_append_of_length_le (le_refl _)]
  simp

theorem getElem?_at {A B : List β} {a : β} {i : Nat} (h : i = A.length) : (A ++ a :: B)[i]? = some a := by
  subst h
  simp

end Arrays

section Pairs
variable {α K : Type} [Inhabited α] [LinearOrder K] {key : α → K} {id : Nat} {P Q : List α} {A B : List (BPlusTree α)}
    {s : α}

theorem transferFromLeft_leaf {ai bi : Nat} {x1 x2 : α} (h : P.length = A.length) :
    transferFromLeft key (A.length + 1) ⟨id, P ++ s :: Q, A ++ ⟨ai, [x1, x2], []⟩ :: ⟨bi, [], []⟩ :: B⟩ =
      ⟨id, P ++ x2 :: Q, A ++ ⟨ai, [x1], []⟩ :: ⟨bi, [x2], []⟩ :: B⟩ := by
  simp [transferFromLeft, child, isLeaf, detachItem, insertItem, set_at h.symm]

theorem transferFromLeft_node {ai bi : Nat} {x1 x2 : α} {a0 a1 a2 b0 : BPlusTree α} (h : P.length = A.length)
    (hP : ∀ x ∈ P, key x < key x2) (hQ : ∀ x ∈ Q, key x2 < key x) :
    transferFromLeft key (A.length + 1) ⟨id, P ++ s :: Q, A ++ ⟨ai, [x1, x2], [a0, a1, a2]⟩ :: ⟨bi, [], [b0]⟩ :: B⟩ =
      ⟨id, P ++ x2 :: Q, A ++ ⟨ai, [x1], [a0, a1]⟩ :: ⟨bi, [s], [a2, b0]⟩ :: B⟩ := by
  have hs : orderedInsert key [] s = [s] := rfl
  simp [transferFromLeft, child, isLeaf, detachItem, deleteItem, insertItem, getElem?_at h.symm, eraseIdx_at h.symm,
    orderedInsert_append hP hQ, hs]

theorem transferFromRight_leaf {ai bi : Nat} {y1 y2 : α} (h : P.length = A.length) :
    transferFromRight key A.length ⟨id, P ++ s :: Q, A ++ ⟨ai, [], []⟩ :: ⟨bi, [y1, y2], []⟩ :: B⟩ =
      ⟨id, P ++ y2 :: Q, A ++ ⟨ai, [y1], []⟩ :: ⟨bi, [y2], []⟩ :: B⟩ := by
  simp [transferFromRight, child, isLeaf, deleteItem, attachItem, set_at h.symm]

theorem transferFromRight_node {ai bi : Nat} {y1 y2 : α} {a0 b0 b1 b2 : BPlusTree α} (h : P.length = A.length)
    (hP : ∀ x ∈ P, key x < key y1) (hQ : ∀ x ∈ Q, key y1 < key x) :
    transferFromRight key A.length ⟨id, P ++ s :: Q, A ++ ⟨ai, [], [a0]⟩ :: ⟨bi, [y1, y2], [b0, b1, b2]⟩ :: B⟩ =
      ⟨id, P ++ y1 :: Q, A ++ ⟨ai, [s], [a0, b0]⟩ :: ⟨bi, [y2], [b1, b2]⟩ :: B⟩ := by
  have hs : orderedInsert key [] s = [s] := rfl
  simp [transferFromRight, child, isLeaf, deleteItem, attachItem, getElem?_at h.symm, eraseIdx_at h.symm,
    orderedInsert_append hP hQ, hs]

omit [LinearOrder K] in
theorem mergeWithNextSubset_leaf {ai bi : Nat} {xs ys : List α} (h : P.length = A.length) (m : Memory) :
    mergeWithNextSubset A.length ⟨id, P ++ s :: Q, A ++ ⟨ai, xs, []⟩ :: ⟨bi, ys, []⟩ :: B⟩ m =
      (⟨id, P ++ Q, A ++ ⟨ai, xs ++ ys, []⟩ :: B⟩, m.setNext ai (m.next bi)) := by
  simp [mergeWithNextSubset, child, isLeaf, deleteItem, eraseIdx_at h.symm, eraseIdx_second]

omit [LinearOrder K] in
theorem mergeWithNextSubset_node {ai bi : Nat} {xs ys : List α} {a : BPlusTree α} {as bs : List (BPlusTree α)}
    (h : P.length = A.length) (m : Memory) :
    mergeWithNextSubset A.length ⟨id, P ++ s :: Q, A ++ ⟨ai, xs, a :: as⟩ :: ⟨bi, ys, bs⟩ :: B⟩ m =
      (⟨id, P ++ Q, A ++ ⟨ai, xs ++ s :: ys, a :: as ++ bs⟩ :: B⟩, m) := by
  simp [mergeWithNextSubset, child, isLeaf, deleteItem, attachItem, eraseIdx_at h.symm, eraseIdx_second, getElem?_at h.symm]

end Pairs

/-! ## What a repair leaves -/

section Repairs
variable {α K : Type} {key : α → K} {n : Nat} {m : Memory}

/-- A good child in the place of two. -/
structure Merged (key : α → K) (n : Nat) (m m' : Memory) (cs : List (BPlusTree α)) (c : BPlusTree α) : Prop where
  good : Good key n c ∧ c.Full
  items_eq : c.items = cs.flatMap items
  rewired : Rewired m m' (cs.flatMap ids) ([c].flatMap ids) (cs.flatMap leafIds) ([c].flatMap leafIds)

/-- The same nodes in another order. -/
theorem rewired_perm {ids ids' : List Nat} (leafIds : List Nat) (h : ids'.Perm ids) :
    Rewired m m ids ids' leafIds leafIds where
  fresh_le := le_refl _
  count_le j := by rw [h.count_eq]; exact Nat.le_add_right _ _
  first := rfl
  leaf_mem _ hj := Or.inl hj
  links _ h := h
  frame _ _ _ := rfl

/-- A separator in front of a node stands in front of its first child. -/
theorem sep_first {s : α} {id : Nat} {data : List α} {c : BPlusTree α} {cs : List (BPlusTree α)}
    (hc : Good key n c ∧ c.Full) :
    Sep key s ⟨id, data, c :: cs⟩ ↔ Sep key s c := by
  rw [Sep, Sep, items_cons, List.head?_append]
  cases h : c.items with
  | nil => exact absurd h (hc.1.items_ne hc.2)
  | cons x xs => exact Iff.rfl

theorem pair_leaf {ai bi : Nat} {xs ys : List α} {x y : α} (h : xs ++ ys = [x, y]) :
    Pair key 0 m m [⟨ai, xs, []⟩, ⟨bi, ys, []⟩] ⟨ai, [x], []⟩ ⟨bi, [y], []⟩ y where
  left := ⟨rfl, full_of (by simp) (by simp)⟩
  right := ⟨rfl, full_of (by simp) (by simp)⟩
  sep := by rw [Sep, items_nil]; rfl
  items_eq := by simp [h]
  rewired := by simpa using Rewired.refl m [ai, bi] [ai, bi]

theorem pair_fromLeft {ai bi : Nat} {x1 x2 s : α} {a0 a1 a2 b0 : BPlusTree α}
    (ha : Good key (n + 1) ⟨ai, [x1, x2], [a0, a1, a2]⟩)
    (hb : Good key n b0 ∧ b0.Full) (hs : Sep key s b0) : Pair key (n + 1) m m [⟨ai, [x1, x2], [a0, a1, a2]⟩, ⟨bi, [], [b0]⟩]
      ⟨ai, [x1], [a0, a1]⟩ ⟨bi, [s], [a2, b0]⟩ x2 := by
  obtain ⟨-, hsep, hchildren⟩ := ha
  obtain ⟨h1, hsep⟩ := List.forall₂_cons.1 hsep
  obtain ⟨h2, -⟩ := List.forall₂_cons.1 hsep
  simp only [List.mem_cons, List.not_mem_nil, or_false, forall_eq_or_imp, forall_eq] at hchildren
  obtain ⟨hg0, hg1, hg2⟩ := hchildren
  refine ⟨⟨⟨by simp, by simpa using h1, ?_⟩, full_of (by simp) (by simp)⟩,
    ⟨⟨by simp, by simpa using hs, ?_⟩, full_of (by simp) (by simp)⟩, (sep_first hg2).2 h2, by simp, ?_⟩
  · simp only [List.mem_cons, List.not_mem_nil, or_false, forall_eq_or_imp, forall_eq]
    exact ⟨hg0, hg1⟩
  · simp only [List.mem_cons, List.not_mem_nil, or_false, forall_eq_or_imp, forall_eq]
    exact ⟨hg2, hb⟩
  · have hperm := rewired_perm (m := m) (a0.leafIds ++ (a1.leafIds ++ (a2.leafIds ++ b0.leafIds)))
      (((@List.perm_middle _ bi a2.ids b0.ids).symm.append_left (a0.ids ++ a1.ids)).cons ai)
    simpa using hperm

theorem pair_fromRight {ai bi : Nat} {y1 y2 s : α} {a0 b0 b1 b2 : BPlusTree α} (ha : Good key n a0 ∧ a0.Full)
    (hb : Good key (n + 1) ⟨bi, [y1, y2], [b0, b1, b2]⟩) (hs : Sep key s ⟨bi, [y1, y2], [b0, b1, b2]⟩) :
    Pair key (n + 1) m m [⟨ai, [], [a0]⟩, ⟨bi, [y1, y2], [b0, b1, b2]⟩] ⟨ai, [s], [a0, b0]⟩ ⟨bi, [y2], [b1, b2]⟩ y1 := by
  obtain ⟨-, hsep, hchildren⟩ := hb
  obtain ⟨h1, hsep⟩ := List.forall₂_cons.1 hsep
  obtain ⟨h2, -⟩ := List.forall₂_cons.1 hsep
  simp only [List.mem_cons, List.not_mem_nil, or_false, forall_eq_or_imp, forall_eq] at hchildren
  obtain ⟨hg0, hg1, hg2⟩ := hchildren
  have hs0 : Sep key s b0 := (sep_first hg0).1 hs
  refine ⟨⟨⟨by simp, by simpa using hs0, ?_⟩, full_of (by simp) (by simp)⟩,
    ⟨⟨by simp, by simpa using h2, ?_⟩, full_of (by simp) (by simp)⟩, (sep_first hg1).2 h1, by simp, ?_⟩
  · simp only [List.mem_cons, List.not_mem_nil, or_false, forall_eq_or_imp, forall_eq]
    exact ⟨ha, hg0⟩
  · simp only [List.mem_cons, List.not_mem_nil, or_false, forall_eq_or_imp, forall_eq]
    exact ⟨hg1, hg2⟩
  · have hperm := rewired_perm (m := m) (a0.leafIds ++ (b0.leafIds ++ (b1.leafIds ++ b2.leafIds)))
      (((@List.perm_middle _ bi b0.ids (b1.ids ++ b2.ids)).append_left a0.ids).cons ai)
    simpa using hperm

theorem merged_leaf {ai bi : Nat} {xs ys : List α} (h : (xs ++ ys).length = 1) :
    Merged key 0 m (m.setNext ai (m.next bi)) [⟨ai, xs, []⟩, ⟨bi, ys, []⟩] ⟨ai, xs ++ ys, []⟩ where
  good := ⟨rfl, full_of (h ▸ Nat.one_pos) (h.trans_le (by simp))⟩
  items_eq := by simp
  rewired := by
    simp only [List.flatMap_cons, List.flatMap_nil, ids_mk, leafIds_nil, List.append_nil, List.singleton_append]
    refine ⟨le_refl _, fun j => ?_, rfl, fun j hj => Or.inl (List.mem_singleton.1 hj ▸ List.mem_cons_self),
      fun last hl => ?_,
      fun j _ hn => ?_⟩
    · simp only [List.count_cons, List.count_nil]
      omega
    · simp only [Linked, List.head?_nil, List.head?_cons, Option.or, and_true] at hl ⊢
      simp [Memory.setNext, hl.2]
    · have hne : j ≠ ai := fun heq => hn (heq ▸ List.mem_cons_self)
      simp [Memory.setNext, hne]

theorem merged_node {ai bi : Nat} {xs ys : List α} {s : α} {a b : BPlusTree α} {as bs : List (BPlusTree α)}
    (ha : Good key (n + 1) ⟨ai, xs, a :: as⟩) (hb : Good key (n + 1) ⟨bi, ys, b :: bs⟩) (hs : Sep key s b)
    (hlen : xs.length + ys.length ≤ 1) : Merged key (n + 1) m m [⟨ai, xs, a :: as⟩, ⟨bi, ys, b :: bs⟩]
      ⟨ai, xs ++ s :: ys, a :: as ++ b :: bs⟩ where
  good := by
    refine ⟨⟨by simp, ?_, fun c hc => ?_⟩, full_of (by simp) (by simp; omega)⟩
    · exact List.rel_append ha.2.1 (List.Forall₂.cons hs hb.2.1)
    · rcases List.mem_append.1 hc with hc | hc
      · exact ha.2.2 c hc
      · exact hb.2.2 c hc
  items_eq := by simp
  rewired := by
    simp only [List.cons_append, List.flatMap_cons, List.flatMap_append, List.flatMap_nil, ids_mk, leafIds_cons,
      List.append_nil,
      List.append_assoc]
    refine ⟨le_refl _, fun j => ?_, rfl, fun _ hj => Or.inl hj, fun _ h => h, fun _ _ _ => rfl⟩
    simp only [List.count_append, List.count_cons]
    omega

/-! ### The children of a repair -/

theorem Good.no_items {c : BPlusTree α} (h : Good key n c) (h0 : c.data.length = 0) : (n = 0 ∧ ∃ id, c = ⟨id, [], []⟩) ∨
    ∃ k id c0, n = k + 1 ∧ c = ⟨id, [], [c0]⟩ ∧ Good key k c0 ∧ c0.Full := by
  obtain ⟨id, data, subset⟩ := c
  obtain rfl : data = [] := List.length_eq_zero_iff.1 h0
  cases n with
  | zero =>
    obtain rfl : subset = [] := h
    exact Or.inl ⟨rfl, id, rfl⟩
  | succ n =>
    obtain ⟨c0, rfl⟩ := List.length_eq_one_iff.1 h.length
    exact Or.inr ⟨n, id, c0, rfl, rfl, h.2.2 c0 List.mem_cons_self⟩

theorem Good.one_item {c : BPlusTree α} (h : Good key n c) (h1 : c.data.length = 1) : (n = 0 ∧ ∃ id x, c = ⟨id, [x], []⟩) ∨
    ∃ k id x c0 c1, n = k + 1 ∧ c = ⟨id, [x], [c0, c1]⟩ := by
  obtain ⟨id, data, subset⟩ := c
  obtain ⟨x, rfl⟩ := List.length_eq_one_iff.1 h1
  cases n with
  | zero =>
    obtain rfl : subset = [] := h
    exact Or.inl ⟨rfl, id, x, rfl⟩
  | succ n =>
    obtain ⟨c0, c1, rfl⟩ := List.length_eq_two.1 h.length
    exact Or.inr ⟨n, id, x, c0, c1, rfl, rfl⟩

theorem Good.two_items {c : BPlusTree α} (h : Good key n c) (h2 : c.data.length = 2) :
    (n = 0 ∧ ∃ id x y, c = ⟨id, [x, y], []⟩) ∨ ∃ k id x y c0 c1 c2, n = k + 1 ∧ c = ⟨id, [x, y], [c0, c1, c2]⟩ := by
  obtain ⟨id, data, subset⟩ := c
  obtain ⟨x, y, rfl⟩ := List.length_eq_two.1 h2
  cases n with
  | zero =>
    obtain rfl : subset = [] := h
    exact Or.inl ⟨rfl, id, x, y, rfl⟩
  | succ n =>
    obtain ⟨c0, c1, c2, rfl⟩ := List.length_eq_three.1 h.length
    exact Or.inr ⟨n, id, x, y, c0, c1, c2, rfl, rfl⟩

end Repairs

section Transfers
variable {α K : Type} [Inhabited α] [LinearOrder K] {key : α → K} {n : Nat} {m : Memory}

/-- An item and a child move to the right, with the separator in front of the child, if it is up to date. -/
theorem transferFromLeft_spec {a b : BPlusTree α} {s : α} (ha : Good key n a) (h2 : a.data.length = 2) (hb : Good key n b)
    (h0 : b.data.length = 0) (hs : b.subset ≠ [] → Sep key s b) : ∃ a' b' d, Pair key n m m [a, b] a' b' d ∧
      ∀ (id : Nat) (P Q : List α) (A B : List (BPlusTree α)), P.length = A.length → (∀ x ∈ P, key x < key d) →
        (∀ x ∈ Q, key d < key x) → transferFromLeft key (A.length + 1) ⟨id, P ++ s :: Q, A ++ a :: b :: B⟩ =
          ⟨id, P ++ d :: Q, A ++ a' :: b' :: B⟩ := by
  rcases hb.no_items h0 with ⟨rfl, bi, rfl⟩ | ⟨k, bi, b0, rfl, rfl, hb0⟩
  · rcases ha.two_items h2 with ⟨-, ai, x1, x2, rfl⟩ | ⟨k, ai, x1, x2, a0, a1, a2, hk, -⟩
    · exact ⟨_, _, x2, pair_leaf rfl, fun id P Q A B hlen _ _ => transferFromLeft_leaf hlen⟩
    · cases hk
  · rcases ha.two_items h2 with ⟨hk, -⟩ | ⟨k, ai, x1, x2, a0, a1, a2, hk, rfl⟩
    · cases hk
    · exact ⟨_, _, x2, pair_fromLeft ha hb0 ((sep_first hb0).1 (hs (by simp))),
        fun id P Q A B hlen hP hQ => transferFromLeft_node hlen hP hQ⟩

theorem transferFromRight_spec {a b : BPlusTree α} {s : α} (ha : Good key n a) (h0 : a.data.length = 0) (hb : Good key n b)
    (h2 : b.data.length = 2) (hs : Sep key s b) : ∃ a' b' d, Pair key n m m [a, b] a' b' d ∧
      ∀ (id : Nat) (P Q : List α) (A B : List (BPlusTree α)), P.length = A.length → (∀ x ∈ P, key x < key d) →
        (∀ x ∈ Q, key d < key x) → transferFromRight key A.length ⟨id, P ++ s :: Q, A ++ a :: b :: B⟩ =
          ⟨id, P ++ d :: Q, A ++ a' :: b' :: B⟩ := by
  rcases ha.no_items h0 with ⟨rfl, ai, rfl⟩ | ⟨k, ai, a0, rfl, rfl, ha0⟩
  · rcases hb.two_items h2 with ⟨-, bi, y1, y2, rfl⟩ | ⟨k, bi, y1, y2, b0, b1, b2, hk, -⟩
    · exact ⟨_, _, y2, pair_leaf rfl, fun id P Q A B hlen _ _ => transferFromRight_leaf hlen⟩
    · cases hk
  · rcases hb.two_items h2 with ⟨hk, -⟩ | ⟨k, bi, y1, y2, b0, b1, b2, hk, rfl⟩
    · cases hk
    · exact ⟨_, _, y1, pair_fromRight ha0 hb hs, fun id P Q A B hlen hP hQ => transferFromRight_node hlen hP hQ⟩

omit [LinearOrder K] in
/-- Two neighbours with one item between them become one. -/
theorem mergeWithNextSubset_spec {a b : BPlusTree α} {s : α} (ha : Good key n a) (hb : Good key n b)
    (h1 : a.data.length + b.data.length = 1) (hs : b.subset ≠ [] → Sep key s b) : ∃ c m', Merged key n m m' [a, b] c ∧
      ∀ (id : Nat) (P Q : List α) (A B : List (BPlusTree α)), P.length = A.length →
        mergeWithNextSubset A.length ⟨id, P ++ s :: Q, A ++ a :: b :: B⟩ m = (⟨id, P ++ Q, A ++ c :: B⟩, m') := by
  obtain ⟨ai, xs, as⟩ := a
  obtain ⟨bi, ys, bs⟩ := b
  cases n with
  | zero =>
    obtain rfl : as = [] := ha
    obtain rfl : bs = [] := hb
    exact ⟨_, _, merged_leaf (by rw [List.length_append]; exact h1), fun id P Q A B hlen => mergeWithNextSubset_leaf hlen m⟩
  | succ n =>
    obtain ⟨a, as, rfl⟩ := List.exists_cons_of_ne_nil ha.1
    obtain ⟨b, bs, rfl⟩ := List.exists_cons_of_ne_nil hb.1
    have hb0 : Sep key s b := (sep_first (hb.2.2 b List.mem_cons_self)).1 (hs (by simp))
    exact ⟨_, _, merged_node ha hb hb0 h1.le, fun id P Q A B hlen => mergeWithNextSubset_node hlen m⟩

end Transfers

/-! ## Separators out of date -/

section Replacing
variable {α K : Type} [Inhabited α] [LinearOrder K] {key : α → K} {n : Nat} {m : Memory}

omit [Inhabited α] in
theorem foundAt_absent {P Q : List α} {entry : α} (hP : ∀ x ∈ P, key x < key entry) (hQ : ∀ x ∈ Q, key entry < key x) :
    foundAt key (P ++ Q) (firstGe key (P ++ Q) entry) entry = false := by
  rw [firstGe_append (fun x hx => (hQ x (List.mem_of_mem_head? hx)).le) hP, foundAt_append]
  cases Q with
  | nil => rfl
  | cons x Q => exact eq_false_of_ne_true (fun h => (hQ x List.mem_cons_self).ne'
    ((foundAt_head (hQ x List.mem_cons_self).le).1 h))

omit [Inhabited α] in
theorem firstGe_present {P Q : List α} {s entry : α} (hP : ∀ x ∈ P, key x < key entry) (hs : key s = key entry) :
    firstGe key (P ++ s :: Q) entry = P.length := firstGe_append (fun _ hx => Option.some.inj hx ▸ hs.ge) hP

omit [Inhabited α] in
theorem foundAt_present {P Q : List α} {s entry : α} (hs : key s = key entry) :
    foundAt key (P ++ s :: Q) P.length entry = true := by
  rw [foundAt_append]
  exact (foundAt_head hs.ge).2 hs

/-- The entry is in the node. -/
theorem replaceErased_data {ge f j : Nat} {entry : α} {t : BPlusTree α} (hj : firstGe key t.data entry = j)
    (hfound : foundAt key t.data j entry = true) (hlast : j + 1 < t.subset.length) :
    replaceErased key ge entry (some f) t = replaceData j t := by
  subst hj
  exact if_pos ⟨Or.inl hlast, hfound⟩

/-- The entry is in the repaired child. -/
theorem replaceErased_child {ge f j : Nat} {entry : α} {t c : BPlusTree α} (hc : t.child f = c)
    (habsent : foundAt key t.data (firstGe key t.data entry) entry = false) (hj : firstGe key c.data entry = j)
    (hfound : foundAt key c.data j entry = true) (hlast : j + 1 < c.subset.length) :
    replaceErased key ge entry (some f) t = t.setChild f (replaceData j c) := by
  subst hc hj
  refine (if_neg ?_).trans (if_pos ⟨Or.inl hlast, hfound⟩)
  rw [habsent]
  simp

/-- The entry is gone from both. -/
theorem replaceErased_neither {ge f : Nat} {entry : α} {t c : BPlusTree α} (hc : t.child f = c)
    (habsent : foundAt key t.data (firstGe key t.data entry) entry = false)
    (hchild : foundAt key c.data (firstGe key c.data entry) entry = false) : replaceErased key ge entry (some f) t =
      if ge < t.data.length ∧ (t.child (ge + 1)).data.length ≥ minimum then replaceData ge t else t := by
  subst hc
  refine (if_neg ?_).trans (if_neg ?_)
  · rw [habsent]
    simp
  · rw [hchild]
    simp

omit [LinearOrder K] in
/-- `get_small` finds the first item. -/
theorem getSmall_spec : ∀ {n : Nat} {c : BPlusTree α}, Good key n c → c.Full → c.items.head? = some c.getSmall
  | 0, ⟨id, data, subset⟩, h, hf => by
    obtain rfl : subset = [] := h
    obtain ⟨x, xs, rfl⟩ := List.exists_cons_of_length_pos hf.pos
    rw [items_nil]
    rfl
  | n + 1, ⟨id, data, subset⟩, h, _ => by
    obtain ⟨c, cs, rfl⟩ := List.exists_cons_of_ne_nil h.1
    have hc := h.2.2 c List.mem_cons_self
    rw [items_cons, List.head?_append, getSmall_spec hc.1 hc.2, getSmall]
    rfl

omit [LinearOrder K] in
theorem sep_getSmall {c : BPlusTree α} (h : Good key n c ∧ c.Full) : Sep key c.getSmall c := by
  rw [Sep, getSmall_spec h.1 h.2]
  rfl

theorem forall₂_set {β γ : Type} {R : β → γ → Prop} {x : β} : ∀ {xs : List β} {ys : List γ} {i : Nat}, List.Forall₂ R xs ys →
    (∀ y, ys[i]? = some y → R x y) → List.Forall₂ R (xs.set i x) ys
  | [], _, _, .nil, _ => List.Forall₂.nil
  | _ :: _, y :: _, 0, .cons _ h, hx => List.Forall₂.cons (hx y rfl) h
  | _ :: _, _ :: _, _ + 1, .cons h1 h, hx => List.Forall₂.cons h1 (forall₂_set h hx)

omit [LinearOrder K] in
/-- Separators may be replaced by what stands to their right. -/
theorem Good.replaceData {t : BPlusTree α} (h : Good key (n + 1) t) (i : Nat) : Good key (n + 1) (replaceData i t) := by
  refine ⟨h.1, forall₂_set h.2.1 (fun c hc => ?_), h.2.2⟩
  rw [List.getElem?_tail] at hc
  have hc : t.subset[i + 1]? = some c := hc
  have hchild : t.child (i + 1) = c := by rw [child, List.getD_eq_getElem?_getD, hc, Option.getD_some]
  rw [hchild]
  exact sep_getSmall (h.2.2 c (List.mem_of_getElem? hc))

omit [LinearOrder K] [Inhabited α] in
theorem child_at (id : Nat) (data : List α) (A B : List (BPlusTree α)) (c : BPlusTree α) :
    (⟨id, data, A ++ c :: B⟩ : BPlusTree α).child A.length = c := by
  simp [child]

omit [LinearOrder K] [Inhabited α] in
theorem child_second (id : Nat) (data : List α) (A B : List (BPlusTree α)) (a b : BPlusTree α) :
    (⟨id, data, A ++ a :: b :: B⟩ : BPlusTree α).child (A.length + 1) = b := by
  simp [child]

omit [Inhabited α] in
/-- Every separator within a node is an item. -/
theorem Good.data_lt {c : BPlusTree α} (h : Good key n c) {k : K} (hk : ∀ x ∈ c.items, key x < k) : ∀ d ∈ c.data,
    key d < k := by
  intro d hd
  cases n with
  | zero =>
    rw [items_leaf h] at hk
    exact hk d hd
  | succ n =>
    obtain ⟨x, hx, hxd⟩ := sep_mem h.2.1 hd
    obtain ⟨child, hchild, hx⟩ := List.mem_flatMap.1 hx
    rw [items_node h.1] at hk
    exact hxd ▸ hk x (List.mem_flatMap.2 ⟨child, List.mem_of_mem_tail hchild, hx⟩)

/-- The erased separator has moved into the right child, or is gone. -/
theorem transferFromLeft_stale {a b : BPlusTree α} {s entry : α} (ha : Good key n a) (h2 : a.data.length = 2)
    (hb : Good key n b)
    (h0 : b.data.length = 0) (hs : key s = key entry) (hlt : ∀ x ∈ a.items, key x < key entry) :
    ∃ a' b' d, Pair key n m m [a, b] a' b' d ∧ ∀ (id : Nat) (P Q : List α) (A B : List (BPlusTree α)), P.length = A.length →
      (∀ x ∈ P, key x < key d) → (∀ x ∈ Q, key entry < key x) →
        replaceErased key P.length entry (some (A.length + 1)) (transferFromLeft key (A.length + 1)
          ⟨id, P ++ s :: Q, A ++ a :: b :: B⟩) = ⟨id, P ++ d :: Q, A ++ a' :: b' :: B⟩ := by
  have hdata := ha.data_lt hlt
  rcases hb.no_items h0 with ⟨rfl, bi, rfl⟩ | ⟨k, bi, b0, rfl, rfl, hb0⟩
  · rcases ha.two_items h2 with ⟨-, ai, x1, x2, rfl⟩ | ⟨k, ai, x1, x2, a0, a1, a2, hk, -⟩
    · have hx2 : key x2 < key entry := hdata x2 (by simp)
      refine ⟨_, _, x2, pair_leaf rfl, fun id P Q A B hlen hP hQ => ?_⟩
      have hP' : ∀ x ∈ P ++ [x2], key x < key entry := fun x hx => (List.mem_append.1 hx).elim (fun h => (hP x h).trans hx2)
        (fun h => List.mem_singleton.1 h ▸ hx2)
      rw [transferFromLeft_leaf hlen, replaceErased_neither (child_second ..)
        (by rw [List.append_cons]; exact foundAt_absent hP' hQ)
        (foundAt_absent (P := [x2]) (Q := []) (fun x hx => List.mem_singleton.1 hx ▸ hx2) (by simp))]
      simp [hlen, replaceData, child_second, getSmall, minimum]
    · cases hk
  · rcases ha.two_items h2 with ⟨hk, -⟩ | ⟨k, ai, x1, x2, a0, a1, a2, hk, rfl⟩
    · cases hk
    · have hx2 : key x2 < key entry := hdata x2 (by simp)
      refine ⟨_, _, x2, pair_fromLeft ha hb0 (sep_getSmall hb0), fun id P Q A B hlen hP hQ => ?_⟩
      have hP' : ∀ x ∈ P ++ [x2], key x < key entry := fun x hx => (List.mem_append.1 hx).elim (fun h => (hP x h).trans hx2)
        (fun h => List.mem_singleton.1 h ▸ hx2)
      rw [transferFromLeft_node hlen hP (fun x hx => hx2.trans (hQ x hx)), replaceErased_child (j := 0) (child_second ..)
        (by rw [List.append_cons]; exact foundAt_absent hP' hQ) (firstGe_present (P := []) (by simp) hs)
        (foundAt_present (P := []) hs) (by simp)]
      simp [setChild, replaceData, child]

/-- The erased separator has moved into the merged child, or is gone. -/
theorem mergeWithNextSubset_stale {a b : BPlusTree α} {s entry : α} (ha : Good key n a) (h1 : a.data.length = 1)
    (hb : Good key n b)
    (h0 : b.data.length = 0) (hs : key s = key entry) (hlt : ∀ x ∈ a.items, key x < key entry) :
    ∃ c m', Merged key n m m' [a, b] c ∧ ∀ (id : Nat) (P Q : List α) (A B : List (BPlusTree α)), P.length = A.length →
      (∀ x ∈ P, key x < key entry) → (∀ x ∈ Q, key entry < key x) → ∃ t,
        mergeWithNextSubset A.length ⟨id, P ++ s :: Q, A ++ a :: b :: B⟩ m = (t, m') ∧
        (replaceErased key P.length entry (some A.length) t = ⟨id, P ++ Q, A ++ c :: B⟩ ∨
          replaceErased key P.length entry (some A.length) t = replaceData P.length ⟨id, P ++ Q, A ++ c :: B⟩) := by
  have hdata := ha.data_lt hlt
  rcases hb.no_items h0 with ⟨rfl, bi, rfl⟩ | ⟨k, bi, b0, rfl, rfl, hb0⟩
  · rcases ha.one_item h1 with ⟨-, ai, x, rfl⟩ | ⟨k, ai, x, a0, a1, hk, -⟩
    · refine ⟨_, _, merged_leaf rfl, fun id P Q A B hlen hP hQ => ⟨_, mergeWithNextSubset_leaf hlen m, ?_⟩⟩
      have hx : ∀ y ∈ [x] ++ [], key y < key entry := fun y hy => hdata y (by simpa using hy)
      rw [replaceErased_neither (child_at ..) (foundAt_absent hP hQ)
        (by rw [← List.append_nil ([x] ++ [])]; exact foundAt_absent hx (by simp))]
      split
      · exact Or.inr rfl
      · exact Or.inl rfl
    · cases hk
  · rcases ha.one_item h1 with ⟨hk, -⟩ | ⟨k, ai, x, a0, a1, hk, rfl⟩
    · cases hk
    · refine ⟨_, _, merged_node ha hb (sep_getSmall hb0) (le_refl _),
        fun id P Q A B hlen hP hQ => ⟨_, mergeWithNextSubset_node hlen m, Or.inl ?_⟩⟩
      rw [replaceErased_child (child_at ..) (foundAt_absent hP hQ) (firstGe_present hdata hs) (foundAt_present hs) (by simp)]
      simp [setChild, replaceData, child]

/-- The erased separator is still in front of the two children. -/
theorem replaceErased_front {id f : Nat} {P Q : List α} {s entry d : α} {A B : List (BPlusTree α)} {l a b : BPlusTree α}
    (hlen : P.length = A.length) (hP : ∀ x ∈ P, key x < key entry) (hs : key s = key entry) :
    replaceErased key P.length entry (some f) ⟨id, P ++ s :: d :: Q, A ++ l :: a :: b :: B⟩ =
      ⟨id, P ++ a.getSmall :: d :: Q, A ++ l :: a :: b :: B⟩ := by
  rw [replaceErased_data (firstGe_present hP hs) (foundAt_present hs) (by simp [hlen])]
  simp [replaceData, hlen, child]

/-- What a repaired node looks like from its parent. -/
structure Mended (key : α → K) (n : Nat) (m m' : Memory) (t t' : BPlusTree α) : Prop extends
    Below key (n + 1) m m' t t' t.items where
  length_le : t'.data.length ≤ t.data.length
  le_length : t.data.length ≤ t'.data.length + 1

omit [LinearOrder K] in
theorem Mended.replaceData {m' : Memory} {t t' : BPlusTree α} (h : Mended key n m m' t t') (i : Nat) :
    Mended key n m m' t (replaceData i t') := by
  have hne := h.good.1
  refine ⟨⟨h.good.replaceData i, h.id_eq, ?_, ?_⟩, ?_, ?_⟩
  · rw [items_node (t := BPlusTree.replaceData i t') hne]
    exact (items_node hne).symm.trans h.items_eq
  · have hr := h.rewired
    rw [ids_eq t', leafIds_node hne] at hr
    rw [ids_eq (BPlusTree.replaceData i t'), leafIds_node (t := BPlusTree.replaceData i t') hne]
    exact hr
  · rw [BPlusTree.replaceData, List.length_set]
    exact h.length_le
  · rw [BPlusTree.replaceData, List.length_set]
    exact h.le_length

omit [LinearOrder K] [Inhabited α] in
theorem Pair.mended {m' : Memory} {id : Nat} {data dl dr : List α} {left right : List (BPlusTree α)}
    {a0 b0 a b : BPlusTree α}
    {d : α} (h : Pair key n m m' [a0, b0] a b d) (hg : ∀ x ∈ left ++ right, Good key n x ∧ x.Full)
    (hl : List.Forall₂ (Sep key) dl (left ++ [a]).tail) (hr : List.Forall₂ (Sep key) dr right)
    (ha : Allocated m (⟨id, data, left ++ a0 :: b0 :: right⟩ : BPlusTree α).ids)
      (hlen : data.length = dl.length + dr.length + 1) :
    Mended key n m m' ⟨id, data, left ++ a0 :: b0 :: right⟩ ⟨id, dl ++ d :: dr, left ++ a :: b :: right⟩ where
  good := h.node hg hl hr
  id_eq := rfl
  items_eq := by
    have h1 := items_parts id data left [a0, b0] right (by simp)
    have h2 := items_parts id (dl ++ d :: dr) left [a, b] right (by simp)
    rw [← h.items_eq] at h1
    simpa using h2.trans (by simpa using h1.symm)
  rewired := h.rewired.parts (by simp) (by simp) ha _
  length_le := by simp only [List.length_append, List.length_cons, hlen]; omega
  le_length := by simp only [List.length_append, List.length_cons, hlen]; omega

omit [LinearOrder K] [Inhabited α] in
theorem Merged.mended {m' : Memory} {id : Nat} {data dl dr : List α} {left right : List (BPlusTree α)}
    {a0 b0 c : BPlusTree α}
    (h : Merged key n m m' [a0, b0] c) (hg : ∀ x ∈ left ++ right, Good key n x ∧ x.Full)
    (hl : List.Forall₂ (Sep key) dl (left ++ [c]).tail) (hr : List.Forall₂ (Sep key) dr right)
    (ha : Allocated m (⟨id, data, left ++ a0 :: b0 :: right⟩ : BPlusTree α).ids)
      (hlen : data.length = dl.length + dr.length + 1) :
    Mended key n m m' ⟨id, data, left ++ a0 :: b0 :: right⟩ ⟨id, dl ++ dr, left ++ c :: right⟩ where
  good := by
    refine good_parts [c] hg (fun x hx => List.mem_singleton.1 hx ▸ h.good) (by simp) ?_
    rw [List.singleton_append, tail_append_cons]
    exact List.rel_append hl hr
  id_eq := rfl
  items_eq := by
    have h1 := items_parts id data left [a0, b0] right (by simp)
    have h2 := items_parts id (dl ++ dr) left [c] right (by simp)
    rw [← h.items_eq] at h1
    simpa using h2.trans (by simpa using h1.symm)
  rewired := h.rewired.parts (by simp) (by simp) ha _
  length_le := by simp only [List.length_append, hlen]; omega
  le_length := by simp only [List.length_append, hlen]; omega

/-! ## The repair of a child -/

variable {id : Nat} {data : List α} {A B : List (BPlusTree α)} {l c r : BPlusTree α}

theorem fixShortage_fromLeft (h : l.data.length > minimum) : fixShortage key (A.length + 1) ⟨id, data, A ++ l :: c :: B⟩ m =
    (transferFromLeft key (A.length + 1) ⟨id, data, A ++ l :: c :: B⟩, m, A.length + 1) := by
  refine if_pos ⟨Nat.succ_pos _, ?_⟩
  rw [Nat.add_sub_cancel, child_at]
  exact h

theorem fixShortage_fromRight (hl : ∀ x, A.getLast? = some x → x.data.length ≤ minimum) (h : r.data.length > minimum) :
    fixShortage key A.length ⟨id, data, A ++ c :: r :: B⟩ m =
      (transferFromRight key A.length ⟨id, data, A ++ c :: r :: B⟩, m, A.length) := by
  refine (if_neg ?_).trans (if_pos ⟨by simp, ?_⟩)
  · rintro ⟨hpos, hlen⟩
    cases A using List.reverseRecOn with
    | nil => simp at hpos
    | append_singleton A x =>
      rw [List.length_append, List.length_singleton, Nat.add_sub_cancel, List.append_assoc, List.singleton_append,
        child_at] at hlen
      exact Nat.not_lt.2 (hl x (by simp)) hlen
  · rw [child_second]
    exact h

theorem fixShortage_mergeLeft (hl : l.data.length ≤ minimum) (hr : ∀ x, B.head? = some x → x.data.length ≤ minimum) :
    fixShortage key (A.length + 1) ⟨id, data, A ++ l :: c :: B⟩ m =
      let r := mergeWithNextSubset A.length ⟨id, data, A ++ l :: c :: B⟩ m
      (r.1, r.2, A.length) := by
  refine (if_neg ?_).trans ((if_neg ?_).trans (if_pos ⟨Nat.succ_pos _, ?_⟩))
  · rw [Nat.add_sub_cancel, child_at]
    exact fun h => Nat.not_lt.2 hl h.2
  · rintro ⟨hlen, hgt⟩
    cases B with
    | nil => simp at hlen
    | cons x B =>
      have hx := child_second id data (A ++ [l]) B c x
      rw [List.length_append, List.length_singleton, List.append_assoc, List.singleton_append] at hx
      rw [hx] at hgt
      exact Nat.not_lt.2 (hr x rfl) hgt
  · rw [Nat.add_sub_cancel, child_at]
    exact hl

theorem fixShortage_mergeRight (hr : r.data.length ≤ minimum) : fixShortage key 0 ⟨id, data, c :: r :: B⟩ m =
    let r := mergeWithNextSubset 0 ⟨id, data, c :: r :: B⟩ m
    (r.1, r.2, 0) := by
  have hchild : (⟨id, data, c :: r :: B⟩ : BPlusTree α).child (0 + 1) = r := rfl
  refine (if_neg (fun h => absurd h.1 (lt_irrefl 0))).trans
    ((if_neg ?_).trans ((if_neg (fun h => absurd h.1 (lt_irrefl 0))).trans
    (if_pos ⟨by simp, ?_⟩)))
  · rw [hchild]
    exact fun h => Nat.not_lt.2 hr h.2
  · rw [hchild]
    exact hr

end Replacing

section Windows
variable {α K : Type} [Inhabited α] [LinearOrder K] {key : α → K} {n : Nat} {m : Memory} {id : Nat}
  {P Q : List α} {s entry : α} {A B : List (BPlusTree α)} {a b x : BPlusTree α}

/-- **Two adjacent children of a node**, the second one behind a separator that may be out of date. -/
structure Window (key : α → K) (n : Nat) (m : Memory) (id : Nat) (P : List α) (s : α) (Q : List α) (A : List (BPlusTree α))
    (a b : BPlusTree α) (B : List (BPlusTree α)) : Prop where
  others : ∀ x ∈ A ++ B, Good key n x ∧ x.Full
  fst : Good key n a
  snd : Good key n b
  left_sep : List.Forall₂ (Sep key) P (A ++ [a]).tail
  right_sep : List.Forall₂ (Sep key) Q B
  sorted : Sorted key (A.flatMap items ++ [a, b].flatMap items ++ B.flatMap items)
  allocated : Allocated m (⟨id, P ++ s :: Q, A ++ a :: b :: B⟩ : BPlusTree α).ids

omit [Inhabited α] in
theorem Window.length (w : Window key n m id P s Q A a b B) : P.length = A.length := by simpa using w.left_sep.length_eq

omit [Inhabited α] in
/-- What takes the place of the two begins where they did. -/
theorem Window.replace (w : Window key n m id P s Q A a b B) (h : x.items.head? = ([a, b].flatMap BPlusTree.items).head?) :
    List.Forall₂ (Sep key) P (A ++ [x]).tail := by
  refine sep_replace w.left_sep (fun hne => congrArg (Option.map key) ?_)
  have ha : a.items ≠ [] := by
    cases A with
    | nil =>
      cases w.left_sep
      exact absurd rfl hne
    | cons y A => exact sep_last A w.left_sep
  rw [h, List.flatMap_cons, List.head?_append]
  cases h : a.items with
  | nil => exact absurd h ha
  | cons y ys => rfl

omit [Inhabited α] in
theorem Window.lengths (_ : Window key n m id P s Q A a b B) : (P ++ s :: Q).length = P.length + Q.length + 1 := by
  rw [List.length_append, List.length_cons, Nat.add_assoc]

theorem Window.fromLeft (w : Window key n m id P s Q A a b B) (h2 : a.data.length = 2) (h0 : b.data.length = 0)
    (hs : b.subset ≠ [] → Sep key s b) : Mended key n m m ⟨id, P ++ s :: Q, A ++ a :: b :: B⟩
      (transferFromLeft key (A.length + 1) ⟨id, P ++ s :: Q, A ++ a :: b :: B⟩) := by
  obtain ⟨a', b', d, hpair, heq⟩ := transferFromLeft_spec (m := m) w.fst h2 w.snd h0 hs
  have hsep := w.replace hpair.head
  obtain ⟨hP, hQ⟩ := hpair.between hsep w.right_sep w.sorted
  rw [heq id P Q A B w.length hP hQ]
  exact hpair.mended w.others hsep w.right_sep w.allocated w.lengths

theorem Window.fromRight (w : Window key n m id P s Q A a b B) (h0 : a.data.length = 0) (h2 : b.data.length = 2)
    (hs : Sep key s b) : Mended key n m m ⟨id, P ++ s :: Q, A ++ a :: b :: B⟩
      (transferFromRight key A.length ⟨id, P ++ s :: Q, A ++ a :: b :: B⟩) := by
  obtain ⟨a', b', d, hpair, heq⟩ := transferFromRight_spec (m := m) w.fst h0 w.snd h2 hs
  have hsep := w.replace hpair.head
  obtain ⟨hP, hQ⟩ := hpair.between hsep w.right_sep w.sorted
  rw [heq id P Q A B w.length hP hQ]
  exact hpair.mended w.others hsep w.right_sep w.allocated w.lengths

theorem Window.merge (w : Window key n m id P s Q A a b B) (h1 : a.data.length + b.data.length = 1)
    (hs : b.subset ≠ [] → Sep key s b) : ∃ t' m', mergeWithNextSubset A.length ⟨id, P ++ s :: Q, A ++ a :: b :: B⟩ m =
      (t', m') ∧
      Mended key n m m' ⟨id, P ++ s :: Q, A ++ a :: b :: B⟩ t' := by
  obtain ⟨c, m', hmerged, heq⟩ := mergeWithNextSubset_spec (m := m) w.fst w.snd h1 hs
  exact ⟨_, m', heq id P Q A B w.length, hmerged.mended w.others
    (w.replace (congrArg List.head? hmerged.items_eq)) w.right_sep
    w.allocated w.lengths⟩

omit [Inhabited α] in
/-- Left of the two, and in the first of them, everything is less than the erased entry. -/
theorem Window.below (w : Window key n m id P s Q A a b B) (hlt : ∀ x ∈ A.flatMap items ++ a.items, key x < key entry) :
    ∀ d ∈ P, key d < key entry := sep_below w.left_sep hlt

omit [Inhabited α] in
theorem Window.above (w : Window key n m id P s Q A a b B) (hgt : ∀ x ∈ B.flatMap items, key entry < key x) :
    ∀ d ∈ Q, key entry < key d := by
  intro d hd
  obtain ⟨x, hx, hxd⟩ := sep_mem w.right_sep hd
  exact hxd ▸ hgt x hx

theorem Window.fromLeft_stale (w : Window key n m id P s Q A a b B) (h2 : a.data.length = 2) (h0 : b.data.length = 0)
    (hs : key s = key entry) (hlt : ∀ x ∈ A.flatMap items ++ a.items, key x < key entry)
    (hgt : ∀ x ∈ B.flatMap items, key entry < key x) : Mended key n m m ⟨id, P ++ s :: Q, A ++ a :: b :: B⟩
      (replaceErased key P.length entry (some (A.length + 1))
        (transferFromLeft key (A.length + 1) ⟨id, P ++ s :: Q, A ++ a :: b :: B⟩)) := by
  obtain ⟨a', b', d, hpair, heq⟩ := transferFromLeft_stale (m := m) w.fst h2 w.snd h0 hs
    (fun x hx => hlt x (List.mem_append_right _ hx))
  have hsep := w.replace hpair.head
  obtain ⟨hP, -⟩ := hpair.between hsep w.right_sep w.sorted
  rw [heq id P Q A B w.length hP (w.above hgt)]
  exact hpair.mended w.others hsep w.right_sep w.allocated w.lengths

theorem Window.merge_stale (w : Window key n m id P s Q A a b B) (h1 : a.data.length = 1) (h0 : b.data.length = 0)
    (hs : key s = key entry) (hlt : ∀ x ∈ A.flatMap items ++ a.items, key x < key entry)
    (hgt : ∀ x ∈ B.flatMap items, key entry < key x) : ∃ t' m',
      mergeWithNextSubset A.length ⟨id, P ++ s :: Q, A ++ a :: b :: B⟩ m = (t', m') ∧
      Mended key n m m' ⟨id, P ++ s :: Q, A ++ a :: b :: B⟩ (replaceErased key P.length entry (some A.length) t') := by
  obtain ⟨c, m', hmerged, heq⟩ := mergeWithNextSubset_stale (m := m) w.fst h1 w.snd h0 hs
    (fun x hx => hlt x (List.mem_append_right _ hx))
  have hmended := hmerged.mended w.others (w.replace (congrArg List.head? hmerged.items_eq)) w.right_sep w.allocated w.lengths
  obtain ⟨t', heq, hrep | hrep⟩ := heq id P Q A B w.length (w.below hlt) (w.above hgt)
  · exact ⟨t', m', heq, hrep ▸ hmended⟩
  · exact ⟨t', m', heq, hrep ▸ hmended.replaceData P.length⟩

/-- The separator out of date is the one in front of the two. -/
theorem fromRight_stale {l : BPlusTree α} {e : α} (hg : ∀ x ∈ (A ++ [l]) ++ B, Good key n x ∧ x.Full) (ha : Good key n a)
    (h0 : a.data.length = 0) (hb : Good key n b) (h2 : b.data.length = 2) (hl : List.Forall₂ (Sep key) P (A ++ [l]).tail)
    (hs : key s = key entry) (he : Sep key e b) (hr : List.Forall₂ (Sep key) Q B)
    (hlt : ∀ x ∈ A.flatMap items ++ l.items, key x < key entry) (hgt : ∀ x ∈ a.items ++ b.items, key entry < key x)
    (hsorted : Sorted key ((A ++ [l]).flatMap items ++ [a, b].flatMap items ++ B.flatMap items))
    (halloc : Allocated m (⟨id, P ++ s :: e :: Q, A ++ l :: a :: b :: B⟩ : BPlusTree α).ids) :
    Mended key n m m ⟨id, P ++ s :: e :: Q, A ++ l :: a :: b :: B⟩ (replaceErased key P.length entry (some (A.length + 1))
      (transferFromRight key (A.length + 1) ⟨id, P ++ s :: e :: Q, A ++ l :: a :: b :: B⟩)) := by
  obtain ⟨a', b', d, hpair, heq⟩ := transferFromRight_spec (m := m) ha h0 hb h2 he
  have hlen : P.length = A.length := by simpa using hl.length_eq
  have hPk := sep_below hl hlt
  have hfront : List.Forall₂ (Sep key) (P ++ [a'.getSmall]) ((A ++ [l]) ++ [a']).tail := by
    rw [List.append_assoc, List.singleton_append, tail_append_cons]
    exact List.rel_append hl (List.Forall₂.cons (sep_getSmall hpair.left) List.Forall₂.nil)
  obtain ⟨hP, hQ⟩ := hpair.between hfront hr hsorted
  have hsd : key s < key d := by
    obtain ⟨y, hy, hyd⟩ := sep_mem (List.Forall₂.cons hpair.sep List.Forall₂.nil) (List.mem_singleton.2 rfl)
    have hitems := hpair.items_eq
    rw [List.flatMap_singleton] at hy
    rw [List.flatMap_cons, List.flatMap_singleton] at hitems
    rw [hs, ← hyd]
    exact hgt y (hitems ▸ List.mem_append_right _ hy)
  have hP' : ∀ x ∈ P ++ [s], key x < key d := fun x hx => (List.mem_append.1 hx).elim
    (fun h => hP x (List.mem_append_left _ h)) (fun h => List.mem_singleton.1 h ▸ hsd)
  have htransfer := heq id (P ++ [s]) Q (A ++ [l]) B (by simp [hlen]) hP' hQ
  simp only [List.length_append, List.length_singleton, List.append_assoc, List.singleton_append] at htransfer
  rw [htransfer, replaceErased_front hlen hPk hs]
  have hmended : Mended key n m m ⟨id, P ++ s :: e :: Q, _⟩ _ := hpair.mended hg hfront hr (by simpa using halloc)
    (by simp only [List.length_append, List.length_cons, List.length_nil]; omega)
  simpa using hmended

omit [LinearOrder K] [Inhabited α] in
theorem Full.one_or_two {t : BPlusTree α} (h : t.Full) : t.data.length = 1 ∨ t.data.length = 2 := by
  have h1 := h.pos
  have h2 := h.le
  omega

/-- How a child with a left neighbour is repaired. -/
theorem fixShortage_cases (key : α → K) (id : Nat) (data : List α) {l c : BPlusTree α} (hl : l.Full) (hB : ∀ x ∈ B, x.Full) :
    (l.data.length = 2 ∧ fixShortage key (A.length + 1) ⟨id, data, A ++ l :: c :: B⟩ m =
      (transferFromLeft key (A.length + 1) ⟨id, data, A ++ l :: c :: B⟩, m, A.length + 1)) ∨
    (∃ r rest, B = r :: rest ∧ r.data.length = 2 ∧ fixShortage key (A.length + 1) ⟨id, data, A ++ l :: c :: B⟩ m =
      (transferFromRight key (A.length + 1) ⟨id, data, A ++ l :: c :: B⟩, m, A.length + 1)) ∨
    (l.data.length = 1 ∧ fixShortage key (A.length + 1) ⟨id, data, A ++ l :: c :: B⟩ m =
      let r := mergeWithNextSubset A.length ⟨id, data, A ++ l :: c :: B⟩ m
      (r.1, r.2, A.length)) := by
  rcases hl.one_or_two with h1 | h2
  · by_cases hr : ∃ r rest, B = r :: rest ∧ r.data.length = 2
    · obtain ⟨r, rest, rfl, h2⟩ := hr
      have heq : fixShortage key (A ++ [l]).length ⟨id, data, (A ++ [l]) ++ c :: r :: rest⟩ m = _ :=
        fixShortage_fromRight (by simp [h1, minimum]) (by rw [h2]; exact Nat.lt_succ_self 1)
      rw [List.length_append, List.length_singleton, List.append_assoc, List.singleton_append] at heq
      exact Or.inr (Or.inl ⟨r, rest, rfl, h2, heq⟩)
    · refine Or.inr (Or.inr ⟨h1, fixShortage_mergeLeft h1.le (fun x hx => ?_)⟩)
      obtain ⟨rest, rfl⟩ : ∃ rest, B = x :: rest := by
        cases B with
        | nil => cases hx
        | cons y rest => exact ⟨rest, Option.some.inj hx ▸ rfl⟩
      rcases (hB x List.mem_cons_self).one_or_two with h | h
      · exact h.le
      · exact absurd ⟨x, rest, rfl, h⟩ hr
  · exact Or.inl ⟨h2, fixShortage_fromLeft (by rw [h2]; exact Nat.lt_succ_self 1)⟩

/-- **The repair of a child without items**, when the separators are up to date. -/
theorem fixShortage_exact {left right : List (BPlusTree α)} {c : BPlusTree α} {dl dr : List α}
    (hg : ∀ x ∈ left ++ right, Good key n x ∧ x.Full) (hc : Good key n c) (h0 : c.data.length = 0)
    (hl : List.Forall₂ (Sep key) dl (left ++ [c]).tail) (hr : List.Forall₂ (Sep key) dr right)
    (hs : Sorted key (left.flatMap items ++ c.items ++ right.flatMap items))
    (ha : Allocated m (⟨id, dl ++ dr, left ++ c :: right⟩ : BPlusTree α).ids) (hne : left ++ right ≠ []) : ∃ t' m' f,
      fixShortage key left.length ⟨id, dl ++ dr, left ++ c :: right⟩ m = (t', m', f) ∧
        Mended key n m m' ⟨id, dl ++ dr, left ++ c :: right⟩ t' := by
  have hfocus : Focus key ⟨id, dl ++ dr, left ++ c :: right⟩ left c right dl dr := ⟨rfl, rfl, hl, hr⟩
  -- the window of the child and its right neighbour
  have hwindow : ∀ r rest, right = r :: rest → ∃ e dr', dr = e :: dr' ∧ Sep key e r ∧
    Window key n m id dl e dr' left c r rest := by
    rintro r rest rfl
    cases hr with
    | cons he hr =>
      refine ⟨_, _, rfl, he, fun x hx => ?_, hc, (hg r (by simp)).1, hl, hr, by simpa using hs, ha⟩
      rcases List.mem_append.1 hx with hx | hx
      · exact hg x (List.mem_append_left _ hx)
      · exact hg x (List.mem_append_right _ (List.mem_cons_of_mem r hx))
  rcases hfocus.cases with ⟨rfl, rfl⟩ | ⟨before, l, data, d, rfl, rfl, hdata, hd⟩
  · obtain ⟨r, rest, rfl⟩ := List.exists_cons_of_ne_nil hne
    obtain ⟨e, dr', rfl, he, w⟩ := hwindow r rest rfl
    have hfull := (hg r (by simp)).2
    by_cases hmore : r.data.length > minimum
    · have h2 : r.data.length = 2 := le_antisymm hfull.le hmore
      exact ⟨_, _, _, fixShortage_fromRight (A := []) (by simp) hmore, w.fromRight h0 h2 he⟩
    · have h1 : r.data.length = 1 := le_antisymm (Nat.not_lt.1 hmore) hfull.pos
      obtain ⟨t', m', heq, hmended⟩ := w.merge (by rw [h0, h1]) (fun _ => he)
      refine ⟨t', m', 0, (fixShortage_mergeRight (Nat.not_lt.1 hmore)).trans ?_, hmended⟩
      simp only [List.length_nil, List.nil_append] at heq ⊢
      rw [heq]
  · have hfull := (hg l (by simp)).2
    have w : Window key n m id data d dr before l c right := by
      refine ⟨fun x hx => ?_, (hg l (by simp)).1, hc, hdata, hr, by simpa using hs, by simpa using ha⟩
      rcases List.mem_append.1 hx with hx | hx
      · exact hg x (by simp [hx])
      · exact hg x (by simp [hx])
    have hlast : (before ++ [l]).length = before.length + 1 := List.length_append
    simp only [hlast, List.append_assoc, List.singleton_append]
    rcases fixShortage_cases (m := m) key id (data ++ d :: dr) (c := c) (A := before) (B := right) hfull
        (fun x hx => (hg x (by simp [hx])).2) with ⟨h2, heq⟩ | ⟨r, rest, rfl, h2, heq⟩ | ⟨h1, heq⟩
    · exact ⟨_, _, _, heq, w.fromLeft h2 h0 (fun _ => hd)⟩
    · obtain ⟨e, dr', rfl, he, w'⟩ := hwindow r rest rfl
      have hmended := w'.fromRight h0 h2 he
      simp only [hlast, List.append_assoc, List.singleton_append] at hmended
      exact ⟨_, _, _, heq, hmended⟩
    · obtain ⟨t', m', hmerge, hmended⟩ := w.merge (by rw [h0, h1]) (fun _ => hd)
      refine ⟨t', m', before.length, heq.trans ?_, hmended⟩
      rw [hmerge]

/-- **The repair of a child without items**, when the separator in front of it is the erased entry. -/
theorem fixShortage_stale {right : List (BPlusTree α)} {l c : BPlusTree α} {dr : List α}
    (w : Window key n m id P s dr A l c right)
    (hl : l.Full) (h0 : c.data.length = 0) (hs : key s = key entry)
      (hlt : ∀ x ∈ A.flatMap items ++ l.items, key x < key entry)
    (hgt : ∀ x ∈ c.items ++ right.flatMap items, key entry < key x) : ∃ t' m' f,
      fixShortage key (A.length + 1) ⟨id, P ++ s :: dr, A ++ l :: c :: right⟩ m = (t', m', f) ∧
        Mended key n m m' ⟨id, P ++ s :: dr, A ++ l :: c :: right⟩ (replaceErased key P.length entry (some f) t') := by
  have hright : ∀ x ∈ right.flatMap items, key entry < key x := fun x hx => hgt x (List.mem_append_right _ hx)
  rcases fixShortage_cases (m := m) key id (P ++ s :: dr) (c := c) (A := A) (B := right) hl
      (fun x hx => (w.others x (List.mem_append_right _ hx)).2) with ⟨h2, heq⟩ | ⟨r, rest, rfl, h2, heq⟩ | ⟨h1, heq⟩
  · exact ⟨_, _, _, heq, w.fromLeft_stale h2 h0 hs hlt hright⟩
  · obtain ⟨hothers, hfst, hsnd, hleft, hsep, hsorted, halloc⟩ := w
    cases hsep with
    | cons he hrest =>
      refine ⟨_, _, _, heq, fromRight_stale (fun x hx => ?_) hsnd h0 (hothers r (by simp)).1 h2 hleft hs he hrest hlt
        (fun x hx => hgt x ?_) (by simpa using hsorted) halloc⟩
      · simp only [List.mem_append, List.mem_singleton] at hx
        rcases hx with (hx | rfl) | hx
        · exact hothers x (by simp [hx])
        · exact ⟨hfst, hl⟩
        · exact hothers x (by simp [hx])
      · rcases List.mem_append.1 hx with hx | hx
        · exact List.mem_append_left _ hx
        · exact List.mem_append_right _ (by rw [List.flatMap_cons]; exact List.mem_append_left _ hx)
  · obtain ⟨t', m', hmerge, hmended⟩ := w.merge_stale h1 h0 hs hlt hright
    refine ⟨t', m', A.length, heq.trans ?_, hmended⟩
    rw [hmerge]

end Windows

/-! ## Erasure below the root -/

section Erasing
variable {α K : Type} [Inhabited α] [LinearOrder K] {key : α → K} {n : Nat} {m : Memory}

theorem looseErase_leaf {t : BPlusTree α} (h : t.subset = []) (entry : α) (m : Memory) : t.looseErase key entry m =
    if foundAt key t.data (firstGe key t.data entry) entry then
      (true, { t with data := (deleteItem t.data (firstGe key t.data entry)).2 }, m)
    else (false, t, m) := by
  rw [looseErase]
  exact if_pos h

theorem looseErase_node {t c : BPlusTree α} (h : t.subset ≠ []) {entry : α} {i : Nat} (hi : childIndex key t entry = i)
    (hc : t.subset[i]? = some c) (m : Memory) {ans : Bool} {c' : BPlusTree α} {m' : Memory}
    (herase : c.looseErase key entry m = (ans, c', m')) : t.looseErase key entry m =
      let ge := firstGe key t.data entry
      if c'.data.length < minimum then
        let r := fixShortage key i (t.setChild i c') m'
        (ans, if foundAt key t.data ge entry then replaceErased key ge entry (some r.2.2) r.1 else r.1, r.2.1)
      else (ans, if foundAt key t.data ge entry then replaceErased key ge entry none (t.setChild i c')
        else t.setChild i c', m') := by
  subst hi
  rw [looseErase]
  simp only [show ¬ t.isLeaf from h, if_false]
  split
  · rename_i hnone
    cases hnone.symm.trans hc
  · rename_i child hsome
    obtain rfl := Option.some.inj (hsome.symm.trans hc)
    rw [herase]
    rfl

/-- What an erasure below a node returns. -/
structure Erased (key : α → K) (n : Nat) (entry : α) (m : Memory) (t : BPlusTree α) (ans : Bool) (t' : BPlusTree α)
    (m' : Memory) : Prop extends Below key n m m' t t' (eraseSorted key (key entry) t.items) where
  ans_iff : ans = true ↔ Holds key (key entry) t.items
  length_le : t'.data.length ≤ t.data.length
  le_length : t.data.length ≤ t'.data.length + ans.toNat

theorem looseErase_zero {t : BPlusTree α} (h : Good key 0 t) (hs : Sorted key t.items) (entry : α) (m : Memory) {ans : Bool}
    {t' : BPlusTree α} {m' : Memory} (herase : t.looseErase key entry m = (ans, t', m')) :
    Erased key 0 entry m t ans t' m' := by
  obtain ⟨id, data, subset⟩ := t
  obtain rfl : subset = [] := h
  rw [items_nil] at hs
  rw [looseErase_leaf rfl] at herase
  obtain ⟨left, right, rfl, hge, hleft, ⟨hf, hright⟩ | ⟨hf, x, rest, rfl, hx, hrest⟩⟩ := firstGe_search hs entry
  · simp only [hge, hf] at herase
    injection herase with hans herase
    injection herase with ht hm
    subst hans ht hm
    have hne : ∀ x ∈ left ++ right, key x ≠ key entry := fun x hx => (List.mem_append.1 hx).elim (fun h => (hleft x h).ne)
      (fun h => (hright x h).ne')
    refine ⟨⟨rfl, rfl, ?_, Rewired.refl ..⟩, ?_, le_refl _, Nat.le_add_right _ _⟩
    · rw [items_nil, eraseSorted_of_ne hne]
    · rw [items_nil]
      exact iff_of_false Bool.false_ne_true (not_holds hleft hright)
  · simp only [hge, hf] at herase
    injection herase with hans herase
    injection herase with ht hm
    subst hans ht hm
    have hdata : (deleteItem (left ++ x :: rest) left.length).2 = left ++ rest := eraseIdx_at rfl
    refine ⟨⟨rfl, rfl, ?_, Rewired.refl ..⟩, ?_, ?_, ?_⟩
    · rw [items_nil, items_nil, hdata, eraseSorted_append, eraseSorted_of_ne (fun y hy => (hleft y hy).ne), eraseSorted,
        List.filter_cons_of_neg (by simp [hx])]
      exact congrArg (left ++ ·) (eraseSorted_of_ne (fun y hy => (hrest y hy).ne')).symm
    · rw [items_nil]
      exact iff_of_true rfl ⟨x, by simp, hx⟩
    · simp [hdata]
    · simp only [hdata, List.length_append, List.length_cons, Bool.toNat_true]
      omega

omit [Inhabited α] in
theorem eraseSorted_focus {t c : BPlusTree α} {left right : List (BPlusTree α)} {dl dr : List α} {k : K}
    (h : Focus key t left c right dl dr) (hl : ∀ x ∈ left.flatMap items, key x < k)
      (hr : ∀ x ∈ right.flatMap items, k < key x) :
    eraseSorted key k t.items = left.flatMap items ++ eraseSorted key k c.items ++ right.flatMap items := by
  rw [h.items, eraseSorted_append, eraseSorted_append, eraseSorted_of_ne (fun x hx => (hl x hx).ne),
    eraseSorted_of_ne (fun x hx => (hr x hx).ne')]

omit [Inhabited α] in
/-- An erasure below a node that leaves the child with an item. -/
theorem Erased.node {id : Nat} {left right : List (BPlusTree α)} {c c' : BPlusTree α} {dl dr dl' : List α} {ans : Bool}
    {m' : Memory}
    {entry : α} (h : Good key (n + 1) ⟨id, dl ++ dr, left ++ c :: right⟩)
    (hf : Focus key ⟨id, dl ++ dr, left ++ c :: right⟩ left c right dl dr) (he : Erased key n entry m c ans c' m')
    (hl : ∀ x ∈ left.flatMap items, key x < key entry) (hr : ∀ x ∈ right.flatMap items, key entry < key x)
    (ha : Allocated m (⟨id, dl ++ dr, left ++ c :: right⟩ : BPlusTree α).ids) (hfull : c'.Full)
    (hsep : List.Forall₂ (Sep key) dl' (left ++ [c']).tail) :
    Erased key (n + 1) entry m ⟨id, dl ++ dr, left ++ c :: right⟩ ans ⟨id, dl' ++ dr, left ++ c' :: right⟩ m' := by
  have hlen : dl'.length = dl.length := by
    rw [hf.length]
    simpa using hsep.length_eq
  refine ⟨⟨?_, rfl, ?_, he.rewired.child ha _⟩, he.ans_iff.trans (holds_focus hf hl hr).symm, ?_, ?_⟩
  · refine good_parts [c'] (hf.others h) (fun x hx => List.mem_singleton.1 hx ▸ ⟨he.good, hfull⟩) (by simp) ?_
    rw [List.singleton_append, tail_append_cons]
    exact List.rel_append hsep hf.right_sep
  · rw [eraseSorted_focus hf hl hr, ← he.items_eq]
    exact (items_parts id _ left [c'] right (by simp)).trans (by simp)
  · simp [hlen]
  · simp only [List.length_append, hlen]
    exact Nat.le_add_right _ _

omit [Inhabited α] in
/-- An erasure below a node that leaves the child without items, after the repair. -/
theorem Erased.mended {id : Nat} {left right : List (BPlusTree α)} {c c' t' : BPlusTree α} {dl dr : List α} {ans : Bool}
    {m' m'' : Memory} {entry : α} (hf : Focus key ⟨id, dl ++ dr, left ++ c :: right⟩ left c right dl dr)
    (he : Erased key n entry m c ans c' m') (hl : ∀ x ∈ left.flatMap items, key x < key entry)
    (hr : ∀ x ∈ right.flatMap items, key entry < key x)
    (ha : Allocated m (⟨id, dl ++ dr, left ++ c :: right⟩ : BPlusTree α).ids) (hc : c.Full) (h0 : c'.data.length = 0)
    (hm : Mended key n m' m'' ⟨id, dl ++ dr, left ++ c' :: right⟩ t') :
    Erased key (n + 1) entry m ⟨id, dl ++ dr, left ++ c :: right⟩ ans t' m'' := by
  have hans : ans.toNat = 1 := by
    have hpos := hc.pos
    have hlen := he.le_length
    have hone := Bool.toNat_le ans
    omega
  refine ⟨⟨hm.good, hm.id_eq, ?_, (he.rewired.child ha _).trans hm.rewired⟩,
    he.ans_iff.trans (holds_focus hf hl hr).symm, hm.length_le, ?_⟩
  · rw [hm.items_eq, eraseSorted_focus hf hl hr, ← he.items_eq]
    exact (items_parts id _ left [c'] right (by simp)).trans (by simp)
  · rw [hans]
    exact hm.le_length

/-- **An erasure below a node keeps the tree.** -/
theorem looseErase_spec (entry : α) : ∀ (n : Nat) (t : BPlusTree α) (m : Memory), Good key n t → Sorted key t.items →
    Allocated m t.ids → (t.subset ≠ [] → 0 < t.data.length) → ∀ {ans t' m'}, t.looseErase key entry m = (ans, t', m') →
      Erased key n entry m t ans t' m'
  | 0, t, m, h, hs, _, _, ans, t', m', herase => looseErase_zero h hs entry m herase
  | n + 1, t, m, h, hs, ha, hpos, ans, t', m', herase => by
    obtain ⟨left, c, right, dl, dr, hfocus, hindex, hl, hr, hdl, hfound⟩ := h.descend hs entry
    obtain ⟨id, data, subset⟩ := t
    obtain rfl : data = dl ++ dr := hfocus.data_eq
    obtain rfl : subset = left ++ c :: right := hfocus.subset_eq
    obtain ⟨hgood, hfull⟩ := h.2.2 c hfocus.mem
    have hsc := hfocus.sorted hs
    rcases hchild : c.looseErase key entry m with ⟨ansc, c', m1⟩
    have ih := looseErase_spec entry n c m hgood hsc ha.child (fun _ => hfull.pos) hchild
    have hset : (⟨id, dl ++ dr, left ++ c :: right⟩ : BPlusTree α).setChild left.length c' =
        ⟨id, dl ++ dr, left ++ c' :: right⟩ := by
      simp [setChild]
    rw [looseErase_node h.1 hindex hfocus.child m hchild, hset] at herase
    have hrew := ih.rewired.child ha (dl ++ dr)
    have hs' : Sorted key (left.flatMap items ++ c'.items ++ right.flatMap items) := by
      rw [ih.items_eq, ← eraseSorted_focus hfocus hl hr]
      exact hs.erase
    have hlen := ih.length_le
    have hle := hfull.le
    by_cases hf : foundAt key (dl ++ dr) (firstGe key (dl ++ dr) entry) entry = true
    · obtain ⟨data, d, hdl', hd⟩ := hfound.1 hf
      rcases hfocus.cases with ⟨-, hnil⟩ | ⟨before, l, data', d', hleft, hdl'', hdata, hsep⟩
      · rw [hnil] at hdl'
        simp at hdl'
      obtain ⟨rfl, hdd⟩ := List.append_inj' (hdl'.symm.trans hdl'') rfl
      obtain rfl : d = d' := by simpa using hdd
      subst hleft hdl'
      have hge : firstGe key (data ++ [d] ++ dr) entry = data.length := by
        have hlen := hfocus.length
        rw [childIndex, if_pos hf, ← hlen, List.length_append, List.length_singleton] at hindex
        exact Nat.succ.inj hindex
      have hlast : (before ++ [l]).length = before.length + 1 := List.length_append
      have hlt : ∀ x ∈ before.flatMap items ++ l.items, key x < key entry := by simpa using hl
      have hgt : ∀ x ∈ c'.items ++ right.flatMap items, key entry < key x := by
        intro x hx
        rcases List.mem_append.1 hx with hx | hx
        · rw [ih.items_eq, eraseSorted, List.mem_filter, decide_eq_true_eq] at hx
          exact lt_of_le_of_ne (hd ▸ sep_le hsep hsc x hx.1) (fun h => hx.2 h.symm)
        · exact hr x hx
      rw [hge] at hf
      simp only [hge, if_pos hf] at herase
      by_cases hshort : c'.data.length < minimum
      · have hshort0 := Nat.lt_one_iff.1 hshort
        have w : Window key n m1 id data d dr before l c' right := by
          refine ⟨fun x hx => ?_, (h.2.2 l (by simp)).1, ih.good, hdata, hfocus.right_sep, by simpa using hs',
            by simpa using hrew.allocated ha⟩
          rcases List.mem_append.1 hx with hx | hx
          · exact h.2.2 x (by simp [hx])
          · exact h.2.2 x (by simp [hx])
        obtain ⟨t2, m2, f, hfix, hmended⟩ := fixShortage_stale w (h.2.2 l (by simp)).2 hshort0 hd hlt hgt
        simp only [hlast, List.append_assoc, List.singleton_append] at herase
        rw [if_pos hshort, hfix] at herase
        injection herase with hans herase
        injection herase with ht hm
        subst hans ht hm
        exact ih.mended hfocus hl hr ha hfull hshort0 (by simpa using hmended)
      · have hfull' := full_of (Nat.not_lt.1 hshort) (hlen.trans hle)
        rw [if_neg hshort] at herase
        injection herase with hans herase
        injection herase with ht hm
        have hrep : replaceErased key data.length entry none ⟨id, data ++ [d] ++ dr, before ++ [l] ++ c' :: right⟩ =
            ⟨id, data ++ [c'.getSmall] ++ dr, before ++ [l] ++ c' :: right⟩ := by
          have hcount : before.length = data.length := by
            have := hfocus.length
            simpa using this.symm
          simp [replaceErased, replaceData, ← hcount, child, hfull'.1, set_at hcount]
        rw [hrep] at ht
        subst hans ht hm
        refine Erased.node h hfocus ih hl hr ha hfull' ?_
        rw [List.append_assoc, List.singleton_append, tail_append_cons]
        exact List.rel_append hdata (List.Forall₂.cons (sep_getSmall ⟨ih.good, hfull'⟩) List.Forall₂.nil)
    · have hexact : dl ≠ [] → c'.items.head? = c.items.head? := by
        intro hne
        obtain ⟨data, d, x, xs, hd, hc, hkey⟩ := hfocus.first hne (hgood.items_ne hfull)
        rw [ih.items_eq, hc]
        exact head_eraseSorted (fun hx => hf (hfound.2 ⟨data, d, hd, hkey ▸ hx⟩))
      have hsep := sep_replace hfocus.left_sep (fun hne => congrArg (Option.map key) (hexact hne))
      simp only [if_neg hf] at herase
      by_cases hshort : c'.data.length < minimum
      · have hne : left ++ right ≠ [] := by
          intro hnil
          obtain ⟨rfl, rfl⟩ := List.append_eq_nil_iff.1 hnil
          exact absurd (Nat.succ.inj h.length).symm (hpos h.1).ne'
        obtain ⟨t2, m2, f, hfix, hmended⟩ := fixShortage_exact (hfocus.others h) ih.good (Nat.lt_one_iff.1 hshort) hsep
          hfocus.right_sep hs' (hrew.allocated ha) hne
        rw [if_pos hshort, hfix] at herase
        injection herase with hans herase
        injection herase with ht hm
        subst hans ht hm
        exact ih.mended hfocus hl hr ha hfull (Nat.lt_one_iff.1 hshort) hmended
      · rw [if_neg hshort] at herase
        injection herase with hans herase
        injection herase with ht hm
        subst hans ht hm
        exact Erased.node h hfocus ih hl hr ha (full_of (Nat.not_lt.1 hshort) (hlen.trans hle)) hsep

/-! ## Whole trees -/

omit [Inhabited α] in
/-- The only child of a root without items takes its place. -/
theorem rooted_collapse {m' : Memory} {t c : BPlusTree α} (hm : Good key (n + 1) t) (hsubset : t.subset = [c])
    (hs : Sorted key t.items) (hlinked : Linked m'.next t.leafIds none) (hnext : m'.next t.id = none)
      (ha : Allocated m' t.ids) :
    Rooted key m' ⟨t.id, c.data, c.subset⟩ ∧ (∀ j ∈ (⟨t.id, c.data, c.subset⟩ : BPlusTree α).ids, j ∈ t.ids) ∧
      (⟨t.id, c.data, c.subset⟩ : BPlusTree α).items = t.items := by
  obtain ⟨hgood, hfull⟩ := hm.2.2 c (hsubset ▸ List.mem_cons_self)
  obtain ⟨id, data, subset⟩ := t
  obtain rfl : subset = [c] := hsubset
  obtain ⟨ci, cdata, csubset⟩ := c
  have hsub : (⟨id, cdata, csubset⟩ : BPlusTree α).ids.Sublist (⟨id, data, [⟨ci, cdata, csubset⟩]⟩ : BPlusTree α).ids := by
    simp
  have hitems : (⟨id, cdata, csubset⟩ : BPlusTree α).items = (⟨id, data, [⟨ci, cdata, csubset⟩]⟩ : BPlusTree α).items := by
    cases csubset with
    | nil => simp
    | cons a as => simp
  refine ⟨⟨⟨n, ?_⟩, hfull.2, fun _ => hfull.1, hitems ▸ hs, ?_, hnext, ha.nodup.sublist hsub,
    fun j hj => ha.lt j (hsub.subset hj)⟩,
    fun j hj => hsub.subset hj, hitems⟩
  · cases n with
    | zero => exact hgood
    | succ n => exact hgood
  · cases csubset with
    | nil =>
      rw [leafIds_nil]
      exact ⟨hnext, trivial⟩
    | cons a as => simpa using hlinked

/-- **`erase` keeps the tree**: the items are the old ones without the entry, and the answer says whether that is a change. -/
theorem erase_spec {t : BPlusTree α} (h : Rooted key m t) (entry : α) {ans : Bool} {t' : BPlusTree α} {m' : Memory}
    (herase : t.erase key entry m = (ans, t', m')) : Rooted key m' t' ∧ Kept m m' t.ids t'.ids ∧
      t'.items = eraseSorted key (key entry) t.items ∧ (ans = true ↔ Holds key (key entry) t.items) := by
  obtain ⟨n, hgood⟩ := h.shape
  have hpos : t.subset ≠ [] → 0 < t.data.length := h.pos
  rcases hloose : t.looseErase key entry m with ⟨ans1, t1, m1⟩
  have hspec := looseErase_spec entry n t m hgood h.sorted h.allocated hpos hloose
  have hsorted := h.sorted.erase (k := key entry)
  have hle := hspec.length_le.trans h.le
  have hlen := hspec.le_length
  simp only [erase, hloose] at herase
  by_cases hans : ans1 = false
  · rw [if_pos hans] at herase
    injection herase with h1 herase
    injection herase with ht hm
    subst h1 ht hm
    rw [hans, Bool.toNat_false] at hlen
    refine ⟨hspec.toBelow.rooted hgood h hsorted hle (fun hne => ?_), hspec.kept, hspec.items_eq, hans ▸ hspec.ans_iff⟩
    cases n with
    | zero => exact absurd hspec.good hne
    | succ n => exact (hpos hgood.1).trans_le hlen
  · have hans' := hspec.ans_iff
    rw [eq_true_of_ne_false hans] at hans'
    rw [if_neg hans] at herase
    by_cases hempty : t1.data.length < minimum ∧ t1.subset.length > 0
    · rw [if_pos hempty] at herase
      injection herase with h1 herase
      injection herase with ht hm
      subst h1 ht hm
      cases n with
      | zero =>
        have hleaf : t1.subset = [] := hspec.good
        rw [hleaf] at hempty
        exact absurd hempty.2 (lt_irrefl _)
      | succ n =>
        obtain ⟨c, hc⟩ := List.length_eq_one_iff.1 (hspec.good.length.trans (congrArg (· + 1) (Nat.lt_one_iff.1 hempty.1)))
        have hchild : t1.child 0 = c := by simp [child, hc]
        obtain ⟨hrooted, hids, hitems⟩ := rooted_collapse hspec.good hc (hspec.items_eq ▸ hsorted)
          (hspec.rewired.links none h.linked) (hspec.toBelow.next hgood h) (hspec.rewired.allocated h.allocated)
        have hkept := hspec.kept
        rw [hchild]
        exact ⟨hrooted, ⟨hkept.fresh_le, fun j hj => hkept.ids_mem j (hids j hj), hkept.frame⟩, hitems.trans hspec.items_eq,
          hans'⟩
    · rw [if_neg hempty] at herase
      injection herase with h1 herase
      injection herase with ht hm
      subst h1 ht hm
      refine ⟨hspec.toBelow.rooted hgood h hsorted hle (fun hne => Nat.not_lt.1 (fun hlt => hempty ⟨hlt, ?_⟩)), hspec.kept,
        hspec.items_eq, hans'⟩
      exact List.length_pos_iff.2 hne

end Erasing

end BPlusTree
end BPlus
end Sql
