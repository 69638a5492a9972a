import SqlEngine.Wire
/-!
# BTree — B+ trees of one depth

A library: trees over any linear order, with a numbered node at every place.  The depth is the index of the type, so a
tree whose leaves lie at different depths cannot be written down.  Separators are not stored: the separators of a node
are the least entries of its children from the second on (`seps`), which is what every layout of such a tree on disk
has to agree with.

Inserting changes one leaf and splits along one path.  The facts an implementation needs about that are about lists of
subtrees: where an entry is routed (`route_spec`), what replacing a child by one or two does to the entries
(`lowerInsert_append`), and what cutting a list of children in two does to the separators (`seps_take`, `seps_drop`).
-/
namespace BTree

/-! ## Inserting into a sorted list -/

section
variable {α : Type} [LinearOrder α]

/-- Insert `e` in front of the first element that is not smaller. -/
def lowerInsert (e : α) (l : List α) : List α := l.takeWhile (· < e) ++ e :: l.dropWhile (· < e)

theorem lowerInsert_perm (e : α) (l : List α) : (lowerInsert e l).Perm (e :: l) := by
  unfold lowerInsert
  refine List.perm_middle.trans ?_
  rw [List.takeWhile_append_dropWhile]

theorem mem_lowerInsert {e x : α} {l : List α} : x ∈ lowerInsert e l ↔ x = e ∨ x ∈ l := by
  rw [(lowerInsert_perm e l).mem_iff, List.mem_cons]

theorem length_lowerInsert (e : α) (l : List α) : (lowerInsert e l).length = l.length + 1 := by
  rw [(lowerInsert_perm e l).length_eq, List.length_cons]

theorem lowerInsert_ne_nil (e : α) (l : List α) : lowerInsert e l ≠ [] := by simp [lowerInsert]

/-- **Only the middle part changes** when everything before it is smaller and nothing behind it is. -/
theorem lowerInsert_append {e : α} {X C Y : List α} (hX : ∀ x ∈ X, x < e) (hY : ∀ y ∈ Y, ¬ y < e) :
    lowerInsert e (X ++ C ++ Y) = X ++ lowerInsert e C ++ Y := by
  have hpre : ∀ l : List α, lowerInsert e (X ++ l) = X ++ lowerInsert e l := fun l => by
    unfold lowerInsert
    rw [List.takeWhile_append_of_pos (by simpa using hX), List.dropWhile_append_of_pos (by simpa using hX),
      List.append_assoc]
  have hYt : Y.takeWhile (fun y => decide (y < e)) = [] := by
    cases Y with
    | nil => rfl
    | cons y Y => simp [hY y List.mem_cons_self]
  have hYd : Y.dropWhile (fun y => decide (y < e)) = Y := by
    cases Y with
    | nil => rfl
    | cons y Y => simp [hY y List.mem_cons_self]
  rw [List.append_assoc, hpre]
  suffices h : lowerInsert e (C ++ Y) = lowerInsert e C ++ Y by rw [h, List.append_assoc]
  unfold lowerInsert
  induction C with
  | nil => simp [hYt, hYd]
  | cons c C ih =>
    by_cases hc : c < e
    · simpa [hc] using ih
    · simp [hc]

theorem lowerInsert_sorted {e : α} {l : List α} (hl : l.Pairwise (· ≤ ·)) :
    (lowerInsert e l).Pairwise (· ≤ ·) := by
  induction l with
  | nil => simp [lowerInsert]
  | cons x l ih =>
    have hxl : ∀ y ∈ l, x ≤ y := fun y hy => List.rel_of_pairwise_cons hl hy
    by_cases hx : x < e
    · have : lowerInsert e (x :: l) = x :: lowerInsert e l := by simp [lowerInsert, hx]
      rw [this, List.pairwise_cons]
      refine ⟨fun y hy => ?_, ih hl.of_cons⟩
      rcases mem_lowerInsert.1 hy with rfl | hy
      · exact le_of_lt hx
      · exact hxl _ hy
    · have : lowerInsert e (x :: l) = e :: x :: l := by simp [lowerInsert, hx]
      rw [this, List.pairwise_cons]
      refine ⟨fun y hy => ?_, hl⟩
      rcases List.mem_cons.1 hy with rfl | hy
      · exact not_lt.1 hx
      · exact le_trans (not_lt.1 hx) (hxl _ hy)

/-- The first entry stays first when it is smaller. -/
theorem head?_lowerInsert_of_lt {e x : α} {l : List α} (hx : l.head? = some x) (h : x < e) :
    (lowerInsert e l).head? = some x := by
  cases l with
  | nil => cases hx
  | cons y l =>
    obtain rfl : y = x := by simpa using hx
    simp [lowerInsert, h]

/-- Two sorted lists with the same elements are equal. -/
theorem eq_of_perm_of_sorted {l m : List α} (h : l.Perm m) (hl : l.Pairwise (· ≤ ·)) (hm : m.Pairwise (· ≤ ·)) :
    l = m :=
  h.eq_of_pairwise (fun _ _ _ _ h1 h2 => le_antisymm h1 h2) hl hm

end

/-! ## Trees -/

structure Leaf (α : Type) where
  id : Nat
  entries : List α

structure Node (κ : Type) where
  id : Nat
  kids : List κ

/-- **A B+ tree whose leaves all lie `n` levels below the root.** -/
def Tree (α : Type) : Nat → Type
  | 0 => Leaf α
  | n + 1 => Node (Tree α n)

section
variable {α : Type}

def Tree.leaf (t : Tree α 0) : Leaf α := t

def Tree.node {n : Nat} (t : Tree α (n + 1)) : Node (Tree α n) := t

def Tree.mkLeaf (id : Nat) (entries : List α) : Tree α 0 := Leaf.mk id entries

def Tree.mkNode {n : Nat} (id : Nat) (kids : List (Tree α n)) : Tree α (n + 1) := Node.mk id kids

@[simp] theorem Tree.leaf_mkLeaf (id : Nat) (es : List α) : (Tree.mkLeaf id es).leaf = ⟨id, es⟩ := rfl

@[simp] theorem Tree.node_mkNode {n : Nat} (id : Nat) (kids : List (Tree α n)) :
    (Tree.mkNode id kids).node = ⟨id, kids⟩ := rfl

def root : (n : Nat) → Tree α n → Nat
  | 0, t => t.leaf.id
  | _ + 1, t => t.node.id

/-- The leaves from left to right. -/
def leaves : (n : Nat) → Tree α n → List (Leaf α)
  | 0, t => [t.leaf]
  | n + 1, t => t.node.kids.flatMap (leaves n)

/-- The numbers of the inner nodes. -/
def inner : (n : Nat) → Tree α n → List Nat
  | 0, _ => []
  | n + 1, t => t.node.id :: t.node.kids.flatMap (inner n)

def entries (n : Nat) (t : Tree α n) : List α := (leaves n t).flatMap Leaf.entries

/-- The numbers of all nodes. -/
def ids (n : Nat) (t : Tree α n) : List Nat := inner n t ++ (leaves n t).map Leaf.id

/-- Leaves are not empty and inner nodes have at least two children. -/
def Full : (n : Nat) → Tree α n → Prop
  | 0, t => t.leaf.entries ≠ []
  | n + 1, t => 2 ≤ t.node.kids.length ∧ ∀ k ∈ t.node.kids, Full n k

@[simp] theorem leaves_mkLeaf (id : Nat) (es : List α) : leaves 0 (Tree.mkLeaf id es) = [⟨id, es⟩] := rfl

@[simp] theorem entries_mkLeaf (id : Nat) (es : List α) : entries 0 (Tree.mkLeaf id es) = es := by
  simp [entries]

@[simp] theorem ids_mkLeaf (id : Nat) (es : List α) : ids 0 (Tree.mkLeaf id es) = [id] := rfl

@[simp] theorem root_mkLeaf (id : Nat) (es : List α) : root 0 (Tree.mkLeaf id es) = id := rfl

@[simp] theorem root_mkNode {n : Nat} (id : Nat) (kids : List (Tree α n)) :
    root (n + 1) (Tree.mkNode id kids) = id := rfl

@[simp] theorem leaves_mkNode {n : Nat} (id : Nat) (kids : List (Tree α n)) :
    leaves (n + 1) (Tree.mkNode id kids) = kids.flatMap (leaves n) := rfl

theorem entries_succ {n : Nat} (t : Tree α (n + 1)) : entries (n + 1) t = t.node.kids.flatMap (entries n) := by
  unfold entries
  rw [leaves, List.flatMap_assoc]

@[simp] theorem entries_mkNode {n : Nat} (id : Nat) (kids : List (Tree α n)) :
    entries (n + 1) (Tree.mkNode id kids) = kids.flatMap (entries n) := entries_succ _

theorem leaves_ne_nil : ∀ (n : Nat) (t : Tree α n), Full n t → leaves n t ≠ []
  | 0, _, _ => by simp [leaves]
  | n + 1, t, h => by
    obtain ⟨h2, hk⟩ := h
    match hks : t.node.kids, h2, hk with
    | k :: ks, _, hk =>
      have := leaves_ne_nil n k (hk k List.mem_cons_self)
      simp [leaves, hks, this]

theorem leaf_entries_ne_nil : ∀ (n : Nat) (t : Tree α n), Full n t → ∀ l ∈ leaves n t, l.entries ≠ []
  | 0, t, h, l, hl => by
    obtain rfl : l = t.leaf := by simpa [leaves] using hl
    exact h
  | n + 1, t, h, l, hl => by
    obtain ⟨k, hk, hl⟩ := List.mem_flatMap.1 hl
    exact leaf_entries_ne_nil n k (h.2 k hk) l hl

theorem entries_ne_nil (n : Nat) (t : Tree α n) (h : Full n t) : entries n t ≠ [] := by
  obtain ⟨l, hl⟩ := List.exists_mem_of_ne_nil _ (leaves_ne_nil n t h)
  obtain ⟨x, hx⟩ := List.exists_mem_of_ne_nil _ (leaf_entries_ne_nil n t h l hl)
  exact List.ne_nil_of_mem (List.mem_flatMap.2 ⟨l, hl, hx⟩)

theorem root_mem_ids : ∀ (n : Nat) (t : Tree α n), root n t ∈ ids n t
  | 0, t => by simp [ids, inner, leaves, root]
  | n + 1, t => by simp [ids, inner, root]

/-- **A tree of depth `n` has at least `2 ^ n` leaves.** -/
theorem two_pow_le_leaves : ∀ (n : Nat) (t : Tree α n), Full n t → 2 ^ n ≤ (leaves n t).length
  | 0, _, _ => by simp [leaves]
  | n + 1, t, h => by
    obtain ⟨h2, hk⟩ := h
    match hks : t.node.kids, h2, hk with
    | a :: b :: ks, _, hk =>
      have ha := two_pow_le_leaves n a (hk a (by simp))
      have hb := two_pow_le_leaves n b (hk b (by simp))
      simp only [leaves, hks, List.flatMap_cons, List.length_append, Nat.pow_succ]
      omega

theorem ids_succ_perm {n : Nat} (t : Tree α (n + 1)) :
    (ids (n + 1) t).Perm (t.node.id :: t.node.kids.flatMap (ids n)) := by
  unfold ids
  simp only [inner, leaves, List.cons_append, List.map_flatMap]
  exact List.Perm.cons _ (List.flatMap_append_perm _ (inner n) (fun k => (leaves n k).map Leaf.id))

theorem ids_mkNode_perm {n : Nat} (id : Nat) (kids : List (Tree α n)) :
    (ids (n + 1) (Tree.mkNode id kids)).Perm (id :: kids.flatMap (ids n)) := ids_succ_perm _

/-- **A tree has fewer inner nodes than leaves, and no more leaves than entries.** -/
theorem length_ids_lt : ∀ (n : Nat) (t : Tree α n), Full n t →
    (inner n t).length < (leaves n t).length ∧ (leaves n t).length ≤ (entries n t).length
  | 0, t, h => ⟨Nat.one_pos, Nat.succ_le_of_lt (List.length_pos_iff.2 (entries_ne_nil 0 t h))⟩
  | n + 1, t, h => by
    obtain ⟨h2, hk⟩ := h
    have hsum : ∀ ks : List (Tree α n), (∀ k ∈ ks, Full n k) →
        (ks.flatMap (inner n)).length + ks.length ≤ (ks.flatMap (leaves n)).length ∧
          (ks.flatMap (leaves n)).length ≤ (ks.flatMap (entries n)).length := by
      intro ks
      induction ks with
      | nil => exact fun _ => ⟨Nat.le_refl _, Nat.le_refl _⟩
      | cons k ks ih =>
        intro hks
        have hhead := length_ids_lt n k (hks k List.mem_cons_self)
        have hrest := ih (fun k' hk' => hks k' (List.mem_cons_of_mem k hk'))
        simp only [List.flatMap_cons, List.length_append, List.length_cons]
        omega
    have hkids := hsum t.node.kids hk
    rw [entries_succ, inner, leaves, List.length_cons]
    omega

/-! ## Separators and routing -/

variable [Inhabited α]

/-- The least entry of a tree: its first one. -/
def least (n : Nat) (t : Tree α n) : α := (entries n t).headD default

/-- The separators of a list of siblings. -/
def seps (n : Nat) (ks : List (Tree α n)) : List α := ks.tail.map (least n)

theorem length_seps (n : Nat) (ks : List (Tree α n)) : (seps n ks).length = ks.length - 1 := by simp [seps]

theorem head?_entries {n : Nat} {t : Tree α n} (h : Full n t) : (entries n t).head? = some (least n t) := by
  unfold least
  cases he : entries n t with
  | nil => exact absurd he (entries_ne_nil n t h)
  | cons x l => rfl

theorem least_mem {n : Nat} {t : Tree α n} (h : Full n t) : least n t ∈ entries n t :=
  List.mem_of_head? (head?_entries h)

theorem seps_take (n : Nat) (ks : List (Tree α n)) (k : Nat) : seps n (ks.take k) = (seps n ks).take (k - 1) := by
  unfold seps
  rw [← List.drop_one, List.drop_take, List.drop_one, List.map_take]

theorem seps_drop (n : Nat) (ks : List (Tree α n)) (k : Nat) : seps n (ks.drop k) = (seps n ks).drop k := by
  unfold seps
  rw [List.tail_drop, ← List.map_drop, List.drop_tail]

/-- The separator in front of the child at `k`. -/
theorem seps_getElem? (n : Nat) (ks : List (Tree α n)) (k : Nat) :
    (seps n ks)[k]? = (ks[k + 1]?).map (least n) := by
  cases ks with
  | nil => simp [seps]
  | cons a ks => simp [seps]

variable [LinearOrder α]

/-- The child an entry is routed to: the number of separators that are not greater. -/
def route (e : α) (ss : List α) : Nat := (ss.takeWhile (fun s => ¬ e < s)).length

omit [Inhabited α] in
theorem route_le (e : α) (ss : List α) : route e ss ≤ ss.length := (List.takeWhile_sublist _).length_le

theorem least_le {n : Nat} {t : Tree α n} (h : Full n t) (hs : (entries n t).Pairwise (· ≤ ·)) :
    ∀ x ∈ entries n t, least n t ≤ x := by
  intro x hx
  have hh := head?_entries h
  cases he : entries n t with
  | nil => rw [he] at hx; cases hx
  | cons y l =>
    rw [he] at hh hs hx
    obtain rfl : y = least n t := by simpa using hh
    rcases List.mem_cons.1 hx with rfl | hx
    · exact le_refl _
    · exact List.rel_of_pairwise_cons hs hx

/-- Every separator is the smallest entry of the child right of it. -/
def Separated : (n : Nat) → Tree α n → Prop
  | 0, _ => True
  | n + 1, t => (∀ k ∈ t.node.kids.tail, least n k ∈ entries n k ∧ ∀ e ∈ entries n k, least n k ≤ e) ∧
      ∀ k ∈ t.node.kids, Separated n k

theorem separated_of_sorted : ∀ (n : Nat) (t : Tree α n), Full n t → (entries n t).Pairwise (· ≤ ·) → Separated n t
  | 0, _, _, _ => trivial
  | n + 1, t, hf, hs => by
    rw [entries_succ] at hs
    have hkid : ∀ k ∈ t.node.kids, (entries n k).Pairwise (· ≤ ·) := fun k hk => by
      obtain ⟨A, B, hks⟩ := List.append_of_mem hk
      rw [hks, List.flatMap_append, List.flatMap_cons] at hs
      exact (List.pairwise_append.1 (List.pairwise_append.1 hs).2.1).1
    refine ⟨fun k hk => ?_, fun k hk => separated_of_sorted n k (hf.2 k hk) (hkid k hk)⟩
    have hk' := List.mem_of_mem_tail hk
    exact ⟨least_mem (hf.2 k hk'), least_le (hf.2 k hk') (hkid k hk')⟩

/-- **Where an entry is routed**: the children split around the chosen one; its least entry is not greater unless it is
the first child, and every later child starts above. -/
theorem route_spec {n : Nat} {ks : List (Tree α n)} {e : α} (hne : ks ≠ [])
    (hfull : ∀ k ∈ ks, Full n k) (hs : (ks.flatMap (entries n)).Pairwise (· ≤ ·)) :
    ∃ A c B, ks = A ++ c :: B ∧ A.length = route e (seps n ks) ∧ (A ≠ [] → least n c ≤ e) ∧
      ∀ b ∈ B, e < least n b := by
  induction ks with
  | nil => exact absurd rfl hne
  | cons a ks ih =>
    cases ks with
    | nil => exact ⟨[], a, [], rfl, rfl, fun h => absurd rfl h, by simp⟩
    | cons b ks =>
      have hs' : ((b :: ks).flatMap (entries n)).Pairwise (· ≤ ·) := by
        rw [List.flatMap_cons] at hs; exact (List.pairwise_append.1 hs).2.1
      by_cases hb : e < least n b
      · refine ⟨[], a, b :: ks, rfl, by simp [seps, route, hb], fun h => absurd rfl h, ?_⟩
        intro k hk
        rcases List.mem_cons.1 hk with rfl | hk
        · exact hb
        · rw [List.flatMap_cons] at hs'
          have hlb := least_mem (hfull b (by simp))
          have hlk := least_mem (hfull k (by simp [hk]))
          exact lt_of_lt_of_le hb
            ((List.pairwise_append.1 hs').2.2 _ hlb _ (List.mem_flatMap.2 ⟨k, hk, hlk⟩))
      · obtain ⟨A, c, B, hks, hlen, hle, hlt⟩ := ih (by simp) (fun k hk => hfull k (List.mem_cons_of_mem a hk)) hs'
        refine ⟨a :: A, c, B, by rw [hks]; rfl, ?_, fun _ => ?_, hlt⟩
        · simp only [List.length_cons, hlen, seps, List.tail_cons, List.map_cons, route]
          rw [List.takeWhile_cons_of_pos (by simpa using hb), List.length_cons]
        · cases A with
          | nil =>
            obtain ⟨rfl, -⟩ : b = c ∧ ks = B := by simpa using hks
            exact not_lt.1 hb
          | cons x A => exact hle (by simp)

end
end BTree
