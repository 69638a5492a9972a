import SqlEngine.BPlusShape
/-!
# BPlusLinks — the leaf links of a tree under change

The leaves of a tree are linked from left to right (`Linked`).  What an operation below a node does to the links and to the
addresses in use is `Rewired`: it composes, and it may happen below one child of a node (`Rewired.context`).
-/
namespace Sql
namespace BPlus

/-- Each leaf leads to the next one, and the last one to `last`. -/
def Linked (next : Nat → Option Nat) : List Nat → Option Nat → Prop
  | [], _ => True
  | i :: is, last => next i = is.head?.or last ∧ Linked next is last

theorem Linked.congr {next next' : Nat → Option Nat} : ∀ {is : List Nat} {last : Option Nat}, Linked next is last →
    (∀ i ∈ is, next' i = next i) → Linked next' is last
  | [], _, _, _ => trivial
  | i :: _, _, h, heq => ⟨(heq i List.mem_cons_self).trans h.1, h.2.congr (fun j hj => heq j (List.mem_cons_of_mem i hj))⟩

theorem linked_append {next : Nat → Option Nat} {last : Option Nat} {ys : List Nat} : ∀ {xs : List Nat},
    Linked next (xs ++ ys) last ↔ Linked next xs (ys.head?.or last) ∧ Linked next ys last
  | [] => by simp [Linked]
  | x :: xs => by
    rw [List.cons_append, Linked, Linked, linked_append, and_assoc]
    cases xs with
    | nil => simp
    | cons y xs => simp

/-- The addresses taken from one memory to a later one. -/
def taken (m m' : Memory) : List Nat := List.range' m.fresh (m'.fresh - m.fresh)

theorem mem_taken {m m' : Memory} {j : Nat} : j ∈ taken m m' ↔ m.fresh ≤ j ∧ j < m'.fresh := by
  rw [taken, List.mem_range'_1]
  omega

/-- **What an operation below a node may do**: its nodes are old ones and newly allocated ones, none twice; the first leaf
stays the first; the links run through the leaves as before, and no other link changes. -/
structure Rewired (m m' : Memory) (ids ids' leafIds leafIds' : List Nat) : Prop where
  fresh_le : m.fresh ≤ m'.fresh
  count_le : ∀ j, ids'.count j ≤ ids.count j + (taken m m').count j
  first : leafIds'.head? = leafIds.head?
  leaf_mem : ∀ j ∈ leafIds', j ∈ leafIds ∨ m.fresh ≤ j
  links : ∀ last, Linked m.next leafIds last → Linked m'.next leafIds' last
  frame : ∀ j < m.fresh, j ∉ leafIds → m'.next j = m.next j

theorem Rewired.refl (m : Memory) (ids leafIds : List Nat) : Rewired m m ids ids leafIds leafIds where
  fresh_le := Nat.le_refl _
  count_le _ := Nat.le_add_right _ _
  first := rfl
  leaf_mem _ hj := Or.inl hj
  links _ h := h
  frame _ _ _ := rfl

theorem count_taken {m m' m'' : Memory} (h : m.fresh ≤ m'.fresh) (h' : m'.fresh ≤ m''.fresh) (j : Nat) :
    (taken m m'').count j = (taken m m').count j + (taken m' m'').count j := by
  have hsplit : taken m m'' = taken m m' ++ taken m' m'' := by
    unfold taken
    obtain ⟨a, ha⟩ := Nat.exists_eq_add_of_le h
    obtain ⟨b, hb⟩ := Nat.exists_eq_add_of_le h'
    rw [hb, ha, Nat.add_assoc, Nat.add_sub_cancel_left, Nat.add_sub_cancel_left, ← Nat.add_assoc, Nat.add_sub_cancel_left,
      List.range'_append_1]
  rw [hsplit, List.count_append]

theorem Rewired.trans {m m' m'' : Memory} {a b c la lb lc : List Nat} (h : Rewired m m' a b la lb)
    (h' : Rewired m' m'' b c lb lc) : Rewired m m'' a c la lc where
  fresh_le := Nat.le_trans h.fresh_le h'.fresh_le
  count_le j := by
    have h1 := h.count_le j
    have h2 := h'.count_le j
    have h3 := count_taken h.fresh_le h'.fresh_le j
    omega
  first := h'.first.trans h.first
  leaf_mem j hj := by
    rcases h'.leaf_mem j hj with hj | hj
    · exact h.leaf_mem j hj
    · exact Or.inr (Nat.le_trans h.fresh_le hj)
  links last hl := h'.links last (h.links last hl)
  frame j hj hn := by
    have hn' : j ∉ lb := fun hmem => (h.leaf_mem j hmem).elim hn (fun hle => absurd hj (Nat.not_lt.2 hle))
    rw [h'.frame j (Nat.lt_of_lt_of_le hj h.fresh_le) hn', h.frame j hj hn]

/-- Below one part of a list of parts. -/
theorem Rewired.context {m m' : Memory} {a b la lb : List Nat} (h : Rewired m m' a b la lb)
    {before after lbefore lafter : List Nat}
    (hfresh : ∀ j ∈ lbefore ++ lafter, j < m.fresh) (hdisjoint : ∀ j ∈ lbefore ++ lafter, j ∉ la) :
    Rewired m m' (before ++ a ++ after) (before ++ b ++ after) (lbefore ++ la ++ lafter) (lbefore ++ lb ++ lafter) where
  fresh_le := h.fresh_le
  count_le j := by
    have := h.count_le j
    simp only [List.count_append]
    omega
  first := by
    simp only [List.head?_append, h.first]
  leaf_mem j hj := by
    simp only [List.mem_append] at hj ⊢
    rcases hj with (hj | hj) | hj
    · exact Or.inl (Or.inl (Or.inl hj))
    · exact (h.leaf_mem j hj).imp_left (fun hj => Or.inl (Or.inr hj))
    · exact Or.inl (Or.inr hj)
  links last hl := by
    have hsame : ∀ j ∈ lbefore ++ lafter, m'.next j = m.next j := fun j hj => h.frame j (hfresh j hj) (hdisjoint j hj)
    rw [linked_append, linked_append] at hl ⊢
    obtain ⟨⟨h1, h2⟩, h3⟩ := hl
    rw [h.first]
    exact ⟨⟨h1.congr (fun j hj => hsame j (List.mem_append_left _ hj)), h.links _ h2⟩,
      h3.congr (fun j hj => hsame j (List.mem_append_right _ hj))⟩
  frame j hj hn := h.frame j hj (fun hmem => hn (by simp [hmem]))

/-- A node whose children are rewired. -/
theorem Rewired.cons {m m' : Memory} {a b la lb : List Nat} (h : Rewired m m' a b la lb) (id : Nat) :
    Rewired m m' (id :: a) (id :: b) la lb where
  fresh_le := h.fresh_le
  count_le j := by
    have := h.count_le j
    simp only [List.count_cons]
    omega
  first := h.first
  leaf_mem := h.leaf_mem
  links := h.links
  frame := h.frame

/-! ## Addresses in use -/

/-- Different addresses, all of them allocated. -/
structure Allocated (m : Memory) (ids : List Nat) : Prop where
  nodup : ids.Nodup
  lt : ∀ j ∈ ids, j < m.fresh

theorem Rewired.allocated {m m' : Memory} {a b la lb : List Nat} (h : Rewired m m' a b la lb) (ha : Allocated m a) :
    Allocated m' b where
  nodup := by
    rw [List.nodup_iff_count_le_one]
    intro j
    have h1 := h.count_le j
    have h2 := List.nodup_iff_count_le_one.1 ha.nodup j
    have h3 := List.nodup_iff_count_le_one.1 (List.nodup_range' (s := m.fresh) (n := m'.fresh - m.fresh)) j
    by_cases hj : j ∈ a
    · have hlt := ha.lt j hj
      have : (taken m m').count j = 0 := List.count_eq_zero.2 (fun hm => absurd (mem_taken.1 hm).1 (Nat.not_le.2 hlt))
      omega
    · rw [List.count_eq_zero.2 hj] at h1
      unfold taken at h1
      omega
  lt j hj := by
    have h1 := h.count_le j
    have h2 := List.count_pos_iff.2 hj
    by_cases hm : j ∈ taken m m'
    · exact (mem_taken.1 hm).2
    · rw [List.count_eq_zero.2 hm] at h1
      exact Nat.lt_of_lt_of_le (ha.lt j (List.count_pos_iff.1 (by omega))) h.fresh_le

/-! ## Other trees -/

/-- What an operation on one tree leaves of everything else: nothing is freed and reused, no other link changes. -/
structure Kept (m m' : Memory) (ids ids' : List Nat) : Prop where
  fresh_le : m.fresh ≤ m'.fresh
  ids_mem : ∀ j ∈ ids', j ∈ ids ∨ m.fresh ≤ j
  frame : ∀ j < m.fresh, j ∉ ids → m'.next j = m.next j

theorem Kept.trans {m m' m'' : Memory} {a b c : List Nat} (h : Kept m m' a b) (h' : Kept m' m'' b c) : Kept m m'' a c where
  fresh_le := Nat.le_trans h.fresh_le h'.fresh_le
  ids_mem j hj := by
    rcases h'.ids_mem j hj with hj | hj
    · exact h.ids_mem j hj
    · exact Or.inr (Nat.le_trans h.fresh_le hj)
  frame j hj hn := by
    have hn' : j ∉ b := fun hmem => (h.ids_mem j hmem).elim hn (fun hle => absurd hj (Nat.not_lt.2 hle))
    rw [h'.frame j (Nat.lt_of_lt_of_le hj h.fresh_le) hn', h.frame j hj hn]

theorem Rewired.kept {m m' : Memory} {a b la lb : List Nat} (h : Rewired m m' a b la lb) (hsub : ∀ j ∈ la, j ∈ a) :
    Kept m m' a b where
  fresh_le := h.fresh_le
  ids_mem j hj := by
    by_cases hm : j ∈ taken m m'
    · exact Or.inr (mem_taken.1 hm).1
    · have hcount := h.count_le j
      rw [List.count_eq_zero.2 hm] at hcount
      have hpos := List.count_pos_iff.2 hj
      exact Or.inl (List.count_pos_iff.1 (by omega))
  frame j hj hn := h.frame j hj (fun hmem => hn (hsub j hmem))

namespace BPlusTree
variable {α : Type}

mutual
theorem leaves_sublist : ∀ t : BPlusTree α, t.leaves.Sublist t.nodes
  | ⟨id, data, subset⟩ => by
    rw [leaves, nodes]
    by_cases h : subset = []
    · rw [if_pos h]
      exact (List.nil_sublist _).cons_cons _
    · rw [if_neg h]
      exact (leavesOf_sublist subset).cons _
theorem leavesOf_sublist : ∀ ts : List (BPlusTree α), (leavesOf ts).Sublist (nodesOf ts)
  | [] => List.Sublist.refl _
  | t :: ts => by
    rw [leavesOf, nodesOf]
    exact (leaves_sublist t).append (leavesOf_sublist ts)
end

theorem leafIds_sublist (t : BPlusTree α) : t.leafIds.Sublist t.ids := (leaves_sublist t).map _

theorem ids_parts (id : Nat) (data : List α) (left cs right : List (BPlusTree α)) :
    (⟨id, data, left ++ (cs ++ right)⟩ : BPlusTree α).ids =
      id :: (left.flatMap ids ++ cs.flatMap ids ++ right.flatMap ids) := by
  rw [ids_eq, List.flatMap_append, List.flatMap_append, List.append_assoc]

theorem leafIds_parts (id : Nat) (data : List α) (left right : List (BPlusTree α)) {cs : List (BPlusTree α)} (h : cs ≠ []) :
    (⟨id, data, left ++ (cs ++ right)⟩ : BPlusTree α).leafIds =
      left.flatMap leafIds ++ cs.flatMap leafIds ++ right.flatMap leafIds := by
  rw [leafIds_node (by simp [h]), List.flatMap_append, List.flatMap_append, List.append_assoc]

theorem flatMap_sublist {f g : BPlusTree α → List Nat} (h : ∀ t, (f t).Sublist (g t)) : ∀ ts : List (BPlusTree α),
    (ts.flatMap f).Sublist (ts.flatMap g)
  | [] => List.Sublist.refl _
  | t :: ts => by
    rw [List.flatMap_cons, List.flatMap_cons]
    exact (h t).append (flatMap_sublist h ts)

end BPlusTree

section Children
open BPlusTree
variable {α : Type}

theorem Allocated.parts {m : Memory} {id : Nat} {data : List α} {left cs right : List (BPlusTree α)}
    (h : Allocated m (⟨id, data, left ++ (cs ++ right)⟩ : BPlusTree α).ids) : Allocated m (cs.flatMap ids) := by
  have hsub : (cs.flatMap ids).Sublist (⟨id, data, left ++ (cs ++ right)⟩ : BPlusTree α).ids := by
    rw [ids_parts]
    exact ((List.sublist_append_right _ _).trans (List.sublist_append_left _ _)).cons _
  exact ⟨h.nodup.sublist hsub, fun j hj => h.lt j (hsub.subset hj)⟩

theorem Allocated.child {m : Memory} {id : Nat} {data : List α} {left right : List (BPlusTree α)} {c : BPlusTree α}
    (h : Allocated m (⟨id, data, left ++ c :: right⟩ : BPlusTree α).ids) : Allocated m c.ids := by
  have hparts : Allocated m ([c].flatMap ids) := Allocated.parts h
  rwa [List.flatMap_singleton] at hparts

/-- **What happens to some children** happens below the node. -/
theorem Rewired.parts {m m' : Memory} {id : Nat} {data : List α} {left right cs cs' : List (BPlusTree α)}
    (h : Rewired m m' (cs.flatMap ids) (cs'.flatMap ids) (cs.flatMap leafIds) (cs'.flatMap leafIds)) (hne : cs ≠ [])
    (hne' : cs' ≠ []) (ha : Allocated m (⟨id, data, left ++ (cs ++ right)⟩ : BPlusTree α).ids) (data' : List α) :
    Rewired m m' (⟨id, data, left ++ (cs ++ right)⟩ : BPlusTree α).ids
      (⟨id, data', left ++ (cs' ++ right)⟩ : BPlusTree α).ids (⟨id, data, left ++ (cs ++ right)⟩ : BPlusTree α).leafIds
      (⟨id, data', left ++ (cs' ++ right)⟩ : BPlusTree α).leafIds := by
  have hnodup := ha.nodup
  have hlt := ha.lt
  rw [ids_parts] at hnodup hlt
  have hl := flatMap_sublist leafIds_sublist left
  have hr := flatMap_sublist leafIds_sublist right
  have hc := flatMap_sublist leafIds_sublist cs
  obtain ⟨hleft, hright, hlr⟩ := List.nodup_append.1 (List.nodup_cons.1 hnodup).2
  obtain ⟨-, -, hlc⟩ := List.nodup_append.1 hleft
  rw [ids_parts, ids_parts, leafIds_parts id data left right hne, leafIds_parts id data' left right hne']
  refine (h.context (fun j hj => hlt j ?_) (fun j hj hmem => ?_)).cons id
  · rcases List.mem_append.1 hj with hj | hj
    · exact List.mem_cons_of_mem _ (List.mem_append_left _ (List.mem_append_left _ (hl.subset hj)))
    · exact List.mem_cons_of_mem _ (List.mem_append_right _ (hr.subset hj))
  · rcases List.mem_append.1 hj with hj | hj
    · exact hlc j (hl.subset hj) j (hc.subset hmem) rfl
    · exact hlr j (List.mem_append_right _ (hc.subset hmem)) j (hr.subset hj) rfl

/-- What happens below a child happens below the node. -/
theorem Rewired.child {m m' : Memory} {id : Nat} {data : List α} {left right : List (BPlusTree α)} {c c' : BPlusTree α}
    (h : Rewired m m' c.ids c'.ids c.leafIds c'.leafIds)
      (ha : Allocated m (⟨id, data, left ++ c :: right⟩ : BPlusTree α).ids)
    (data' : List α) : Rewired m m' (⟨id, data, left ++ c :: right⟩ : BPlusTree α).ids
      (⟨id, data', left ++ c' :: right⟩ : BPlusTree α).ids (⟨id, data, left ++ c :: right⟩ : BPlusTree α).leafIds
      (⟨id, data', left ++ c' :: right⟩ : BPlusTree α).leafIds := by
  have hsingle : Rewired m m' ([c].flatMap ids) ([c'].flatMap ids) ([c].flatMap leafIds) ([c'].flatMap leafIds) := by
    simpa only [List.flatMap_singleton] using h
  exact hsingle.parts (List.cons_ne_nil c []) (List.cons_ne_nil c' []) ha data'

end Children
end BPlus
end Sql
