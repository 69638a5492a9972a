import SqlEngine.Chain
/-!
# Validate — what the index validator accepts

`validateIndexNode` accepts a page exactly when it is the root of a B+ tree of one depth on pages nobody owns yet, and
returns that tree's level, entries and leaves (`validateIndexNode_ok`, `validateIndexNode_tree`).  The local checks (per
leaf, per separator, between neighbouring children) are enough for the order of the whole entry list.
-/
namespace Sql
namespace Storage

open Wire BTree

/-- A leaf on its page, whatever its links. -/
def LeafPage (pages : List Page) (l : Leaf Entry) : Prop :=
  ∃ previous next, pages[l.id]? = some ⟨.indexLeaf, l.id, next, leafPayload previous l.entries⟩ ∧
    LeafOk previous l.entries

/-- A tree on its pages, leaf links aside. -/
structure TreeOn (pages : List Page) (n : Nat) (t : Tree Entry n) : Prop where
  full : Full n t
  inner : InnerAt pages n t
  leaf : ∀ l ∈ leaves n t, LeafPage pages l

theorem TreeOn.kid {pages : List Page} {n : Nat} {t : Tree Entry (n + 1)} (h : TreeOn pages (n + 1) t) :
    ∀ k ∈ t.node.kids, TreeOn pages n k := fun k hk =>
  ⟨h.full.2 k hk, h.inner.2 k hk, fun l hl => h.leaf l (List.mem_flatMap.2 ⟨k, hk, hl⟩)⟩

theorem TreeOn.node {pages : List Page} {n : Nat} (id : Nat) {kids : List (Tree Entry n)} (h2 : 2 ≤ kids.length)
    (hp : pages[id]? = some ⟨.indexInternal, id, noPage, nodePayload n kids⟩) (hk : ∀ k ∈ kids, TreeOn pages n k) :
    TreeOn pages (n + 1) (Tree.mkNode id kids) where
  full := ⟨h2, fun k hk' => (hk k hk').full⟩
  inner := ⟨hp, fun k hk' => (hk k hk').inner⟩
  leaf l hl := by
    obtain ⟨k, hk', hl⟩ := List.mem_flatMap.1 hl
    exact (hk k hk').leaf l hl

theorem TreeOn.ids_lt {pages : List Page} : ∀ {n : Nat} {t : Tree Entry n}, TreeOn pages n t →
    ∀ i ∈ ids n t, i < pages.length
  | 0, t, h, i, hi => by
    obtain rfl : i = t.leaf.id := by simpa [ids, BTree.inner, leaves] using hi
    obtain ⟨_, _, hp, _⟩ := h.leaf t.leaf (by simp [leaves])
    exact lt_of_getElem?_some hp
  | n + 1, t, h, i, hi => by
    rcases List.mem_cons.1 ((ids_succ_perm t).mem_iff.1 hi) with rfl | hi
    · exact lt_of_getElem?_some h.inner.1
    · obtain ⟨k, hk, hi⟩ := List.mem_flatMap.1 hi
      exact TreeOn.ids_lt (h.kid k hk) i hi

theorem TreeOn.root_lt {pages : List Page} {n : Nat} {t : Tree Entry n} (h : TreeOn pages n t) :
    root n t < pages.length := h.ids_lt _ (root_mem_ids n t)

theorem TreeOn.entryOk {pages : List Page} {n : Nat} {t : Tree Entry n} (h : TreeOn pages n t) :
    ∀ e ∈ entries n t, EntryOk e := fun e he => by
  obtain ⟨l, hl, he⟩ := List.mem_flatMap.1 he
  obtain ⟨_, _, _, hok⟩ := h.leaf l hl
  exact hok.entries_ok e he

/-- The depth of a tree on pages is far below the largest level. -/
theorem TreeOn.depth_lt {pages : List Page} (hlen : pages.length < 2 ^ 32) {n : Nat} {t : Tree Entry n}
    (h : TreeOn pages n t) (hnd : (ids n t).Nodup) : n < 32 := by
  have h1 := two_pow_le_leaves n t h.full
  have h2 : (ids n t).length ≤ pages.length := by
    have := (List.subperm_of_subset hnd (fun i hi => List.mem_range.2 (h.ids_lt i hi))).length_le
    simpa using this
  have h3 : (leaves n t).length ≤ (ids n t).length := by simp [ids]
  exact (Nat.pow_lt_pow_iff_right (by decide : 1 < 2)).1 (by omega)

/-! ## Sorted concatenations -/

theorem pairwise_append_of_last_le {xs ys : List Entry} (hx : xs.Pairwise (· ≤ ·)) (hy : ys.Pairwise (· ≤ ·))
    (h : ¬ ∃ last ∈ xs.getLast?, ∃ front ∈ ys.head?, front < last) : (xs ++ ys).Pairwise (· ≤ ·) := by
  refine List.pairwise_append.2 ⟨hx, hy, fun a ha b hb => ?_⟩
  have hxne : xs ≠ [] := List.ne_nil_of_mem ha
  have hyne : ys ≠ [] := List.ne_nil_of_mem hb
  have hmid : xs.getLast hxne ≤ ys.head hyne := by
    refine not_lt.1 (fun hlt => h ⟨_, List.getLast?_eq_some_getLast hxne, _, List.head?_eq_some_head hyne, hlt⟩)
  have h1 : a ≤ xs.getLast hxne := by
    rw [← List.dropLast_append_getLast hxne] at ha hx
    rcases List.mem_append.1 ha with ha | ha
    · exact (List.pairwise_append.1 hx).2.2 a ha _ (by simp)
    · obtain rfl := List.mem_singleton.1 ha
      simp
  have h2 : ys.head hyne ≤ b := by
    cases ys with
    | nil => cases hb
    | cons y ys =>
      rcases List.mem_cons.1 hb with rfl | hb
      · exact le_refl _
      · exact List.rel_of_pairwise_cons hy hb
  exact le_trans h1 (le_trans hmid h2)

theorem last_le_of_pairwise {xs ys : List Entry} (h : (xs ++ ys).Pairwise (· ≤ ·)) :
    ¬ ∃ last ∈ xs.getLast?, ∃ front ∈ ys.head?, front < last := by
  rintro ⟨last, hl, front, hf, hlt⟩
  have := (List.pairwise_append.1 h).2.2 last (List.mem_of_getLast? hl) front (List.mem_of_head? hf)
  exact absurd hlt (not_lt.2 this)

/-! ## Acceptance means a tree -/

/-- What an accepted node stands for. -/
structure ValidTree (pages : List Page) (owned owned' : Finset Nat) (id : Nat) (node : ValidatedNode) (n : Nat)
    (t : Tree Entry n) : Prop where
  root_eq : root n t = id
  tree : TreeOn pages n t
  level_eq : node.level = n
  entries_eq : node.entries = entries n t
  leaves_eq : node.leaves = (leaves n t).map Leaf.id
  sorted : (entries n t).Pairwise (· ≤ ·)
  nodup : (ids n t).Nodup
  fresh : ∀ i ∈ ids n t, i ∉ owned
  owned_eq : owned' = owned ∪ (ids n t).toFinset

/-- What an accepted list of children stands for. -/
structure ValidKids (pages : List Page) (owned owned' : Finset Nat) (children : List (Option Entry × Nat))
    (result result' : ValidatedNode) (n : Nat) (kids : List (Tree Entry n)) : Prop where
  match_eq : List.Forall₂ (fun c k => root n k = c.2 ∧ ∀ s ∈ c.1, s = least n k) children kids
  tree : ∀ k ∈ kids, TreeOn pages n k
  level_eq : result'.level = result.level
  entries_eq : result'.entries = result.entries ++ kids.flatMap (entries n)
  leaves_eq : result'.leaves = result.leaves ++ kids.flatMap (fun k => (leaves n k).map Leaf.id)
  sorted : result'.entries.Pairwise (· ≤ ·)
  nodup : (kids.flatMap (ids n)).Nodup
  fresh : ∀ i ∈ kids.flatMap (ids n), i ∉ owned
  owned_eq : owned' = owned ∪ (kids.flatMap (ids n)).toFinset

theorem joinChildren_ok {pages : List Page} {n : Nat}
    {validate : Nat → Finset Nat → Except Corruption (ValidatedNode × Finset Nat)}
    (hv : ∀ id owned node owned', validate id owned = .ok (node, owned') →
      ∃ m t, ValidTree pages owned owned' id node m t) :
    ∀ (children : List (Option Entry × Nat)) (result : ValidatedNode) (owned : Finset Nat)
      {result' : ValidatedNode} {owned' : Finset Nat}, result.entries.Pairwise (· ≤ ·) →
      joinChildren validate (n + 1) children result owned = .ok (result', owned') →
      ∃ kids, ValidKids pages owned owned' children result result' n kids
  | [], result, owned, result', owned', hs, h => by
    obtain ⟨rfl, rfl⟩ : result = result' ∧ owned = owned' := by simpa [joinChildren] using h
    exact ⟨[], .nil, by simp, rfl, by simp, by simp, hs, by simp, by simp, by simp⟩
  | (sep, id) :: children, result, owned, result', owned', hs, h => by
    rw [joinChildren] at h
    obtain ⟨⟨child, ow⟩, h1, h⟩ := except_bind_ok.1 h
    obtain ⟨_, h2, h⟩ := except_bind_ok.1 h
    obtain ⟨_, h3, h⟩ := except_bind_ok.1 h
    obtain ⟨_, h4, h⟩ := except_bind_ok.1 h
    obtain ⟨m, k, hk⟩ := hv _ _ _ _ h1
    have hm : m = n := by
      have := throwIf_ok.1 h2
      rw [hk.level_eq] at this
      omega
    subst hm
    have hsort : (result.entries ++ child.entries).Pairwise (· ≤ ·) :=
      pairwise_append_of_last_le hs (hk.entries_eq ▸ hk.sorted) (throwIf_ok.1 h4)
    obtain ⟨kids, hks⟩ := joinChildren_ok hv children _ ow hsort h
    refine ⟨k :: kids, .cons ⟨hk.root_eq, fun s hsep => ?_⟩ hks.match_eq, ?_, hks.level_eq, ?_, ?_, hks.sorted, ?_, ?_, ?_⟩
    · have h3' := throwIf_ok.1 h3
      obtain rfl : sep = some s := hsep
      rw [ hk.entries_eq, head?_entries hk.tree.full] at h3'
      simpa using h3'
    · intro k' hk'
      rcases List.mem_cons.1 hk' with rfl | hk'
      · exact hk.tree
      · exact hks.tree k' hk'
    · rw [hks.entries_eq, hk.entries_eq, List.flatMap_cons, List.append_assoc]
    · rw [hks.leaves_eq, hk.leaves_eq, List.flatMap_cons, List.append_assoc]
    · rw [List.flatMap_cons, List.nodup_append]
      refine ⟨hk.nodup, hks.nodup, fun a ha b hb hab => ?_⟩
      have := hks.fresh b hb
      rw [hk.owned_eq] at this
      exact this (Finset.mem_union_right _ (by simpa [← hab] using ha))
    · intro i hi
      rw [List.flatMap_cons] at hi
      rcases List.mem_append.1 hi with hi | hi
      · exact hk.fresh i hi
      · have := hks.fresh i hi
        rw [hk.owned_eq] at this
        exact fun h => this (Finset.mem_union_left _ h)
    · rw [hks.owned_eq, hk.owned_eq, List.flatMap_cons, List.toFinset_append, Finset.union_assoc]

/-- The separators that were checked are those of the children. -/
theorem separators_of_match {n : Nat} {rest : List (Entry × Nat)} {kids : List (Tree Entry n)}
    (h : List.Forall₂ (fun c k => root n k = c.2 ∧ ∀ s ∈ c.1, s = least n k)
      (rest.map (fun r => (some r.1, r.2))) kids) : rest = kids.map (fun k => (least n k, root n k)) := by
  rw [List.forall₂_map_left_iff] at h
  induction h with
  | nil => rfl
  | @cons r k _ _ hr _ ih =>
    obtain ⟨hr1, hr2⟩ := hr
    rw [List.map_cons, ← ih, hr1, ← hr2 r.1 rfl]

theorem page_eta {page : Page} {type : PageType} {id next : Nat} {payload : Bytes} (h1 : page.type = type)
    (h2 : page.id = id) (h3 : page.next = next) (h4 : page.payload = payload) : page = ⟨type, id, next, payload⟩ := by
  subst h1 h2 h3 h4; rfl

/-- **An accepted node is the root of a tree on fresh pages.** -/
theorem validateIndexNode_ok {pages : List Page} (hpages : PagesOk pages) (id : Nat) (owned active : Finset Nat) :
    ∀ {node : ValidatedNode} {owned' : Finset Nat}, validateIndexNode pages id owned active = .ok (node, owned') →
      ∃ n t, ValidTree pages owned owned' id node n t := by
  induction id, owned, active using validateIndexNode.induct pages with
  | case4 id owned active page hp ha ho ht =>
    intro node owned' h
    rw [validateIndexNode] at h
    split at h
    · rename_i hp'; rw [hp] at hp'; cases hp'
    rename_i page' hp'
    obtain rfl : page = page' := by rw [hp] at hp'; simpa using hp'
    rw [dif_neg ha, if_neg ho] at h
    simp only [ht] at h
    obtain ⟨⟨previous, es⟩, h1, h⟩ := except_bind_ok.1 h
    obtain ⟨_, h2, h⟩ := except_bind_ok.1 h
    obtain ⟨rfl, rfl⟩ : ⟨0, es, [id]⟩ = node ∧ insert id owned = owned' := by simpa [pure, Except.pure] using h
    obtain ⟨hok, hne, hpay⟩ := readLeaf_ok h1
    have hsort : es.Pairwise (· ≤ ·) := List.isChain_iff_pairwise.1 (not_not.1 (throwIf_ok.1 h2))
    have hpage := page_eta ht (hpages id page hp).1 rfl hpay
    refine ⟨0, Tree.mkLeaf id es, rfl, ⟨hne rfl, trivial, fun l hl => ?_⟩, rfl, by simp, by simp, by simpa using hsort,
      by simp, ?_, ?_⟩
    · obtain rfl : l = ⟨id, es⟩ := by simpa using hl
      exact ⟨previous, page.next, by rw [hp]; exact congrArg some hpage, hok⟩
    · intro i hi
      obtain rfl : i = id := by simpa using hi
      exact ho
    · ext x; simp
  | case5 id owned active page hp ha ho ht ih =>
    intro node owned' h
    rw [validateIndexNode] at h
    split at h
    · rename_i hp'; rw [hp] at hp'; cases hp'
    rename_i page' hp'
    obtain rfl : page = page' := by rw [hp] at hp'; simpa using hp'
    rw [dif_neg ha, if_neg ho] at h
    simp only [ht] at h
    obtain ⟨_, h1, h⟩ := except_bind_ok.1 h
    obtain ⟨⟨level, first, rest⟩, h2, h⟩ := except_bind_ok.1 h
    obtain ⟨_, h3, h⟩ := except_bind_ok.1 h
    obtain ⟨-, hb, hpay⟩ := readInternal_ok h2
    obtain ⟨hlevel, hrest⟩ := hb rfl
    obtain ⟨n, rfl⟩ := Nat.exists_eq_succ_of_ne_zero hlevel
    obtain ⟨kids, hks⟩ := joinChildren_ok (fun c ow nd ow' hc => ih c ow hc) _ _ _ (by simp) h
    obtain ⟨-, hk0⟩ : True ∧ kids ≠ [] := ⟨trivial, by rintro rfl; cases hks.match_eq⟩
    match kids, hks, hk0 with
    | k :: ks, hks, _ =>
      obtain ⟨hroot, hmatch⟩ := List.forall₂_cons.1 hks.match_eq
      have hseps : rest = ks.map (fun k => (least n k, root n k)) := separators_of_match hmatch
      have hpage : page = ⟨.indexInternal, id, noPage, nodePayload n (k :: ks)⟩ :=
        page_eta ht (hpages id page hp).1 (by simpa using throwIf_ok.1 h1) (by
          rw [hpay, hseps, nodePayload, firstChild, separators]
          simp only [List.map_cons, List.headD_cons, List.tail_cons, hroot.1, Nat.succ_eq_add_one])
      have hlen : 2 ≤ (k :: ks).length := by
        have : ks ≠ [] := by rintro rfl; exact hrest (by simpa using hseps)
        have := List.length_pos_iff.2 this
        simp only [List.length_cons]; omega
      have htree := TreeOn.node id hlen (by rw [hp, hpage]) hks.tree
      have hids := ids_mkNode_perm id (k :: ks)
      have hfresh : ∀ i ∈ (k :: ks).flatMap (ids n), i ≠ id ∧ i ∉ owned := fun i hi => by
        have := hks.fresh i hi
        simpa [not_or] using this
      refine ⟨n + 1, Tree.mkNode id (k :: ks), rfl, htree, by rw [hks.level_eq], ?_, ?_, ?_, ?_, ?_, ?_⟩
      · rw [hks.entries_eq, entries_mkNode]; rfl
      · rw [hks.leaves_eq, leaves_mkNode, List.map_flatMap]; rfl
      · have := hks.sorted
        rw [hks.entries_eq] at this
        simpa using this
      · rw [hids.nodup_iff, List.nodup_cons]
        exact ⟨fun hm => (hfresh id hm).1 rfl, hks.nodup⟩
      · intro i hi
        rcases List.mem_cons.1 (hids.mem_iff.1 hi) with rfl | hi
        · exact ho
        · exact (hfresh i hi).2
      · rw [hks.owned_eq]
        ext x
        have : x ∈ ids (n + 1) (Tree.mkNode id (k :: ks)) ↔ x = id ∨ x ∈ (k :: ks).flatMap (ids n) := by
          rw [hids.mem_iff, List.mem_cons]
        simp only [Finset.mem_union, Finset.mem_insert, List.mem_toFinset, this]
        tauto
  | case1 id owned active hp =>
    intro node owned' h
    rw [validateIndexNode] at h
    split at h
    · cases h
    · rename_i hp'; rw [hp] at hp'; cases hp'
  | case2 id owned active page hp ha =>
    intro node owned' h
    rw [validateIndexNode] at h
    split at h
    · cases h
    · rw [dif_pos ha] at h; cases h
  | case3 id owned active page hp ha ho =>
    intro node owned' h
    rw [validateIndexNode] at h
    split at h
    · cases h
    · rw [dif_neg ha, if_pos ho] at h; cases h
  | case6 id owned active page hp ha ho h1 h2 =>
    intro node owned' h
    rw [validateIndexNode] at h
    split at h
    · cases h
    rename_i page' hp'
    obtain rfl : page = page' := by rw [hp] at hp'; simpa using hp'
    rw [dif_neg ha, if_neg ho] at h
    split at h
    · rename_i ht; exact absurd ht h1
    · rename_i ht; exact absurd ht h2
    · cases h

/-! ## Trees are accepted -/

theorem sorted_flatMap_of_mem {n : Nat} {kids : List (Tree Entry n)} (hs : (kids.flatMap (entries n)).Pairwise (· ≤ ·)) :
    ∀ k ∈ kids, (entries n k).Pairwise (· ≤ ·) := fun k hk => by
  obtain ⟨A, B, rfl⟩ := List.append_of_mem hk
  rw [List.flatMap_append, List.flatMap_cons] at hs
  exact (List.pairwise_append.1 (List.pairwise_append.1 hs).2.1).1

/-- The least entries of siblings are in order. -/
theorem least_sorted {n : Nat} : ∀ {kids : List (Tree Entry n)}, (∀ k ∈ kids, Full n k) →
    (kids.flatMap (entries n)).Pairwise (· ≤ ·) → (kids.map (least n)).Pairwise (· ≤ ·)
  | [], _, _ => by simp
  | k :: ks, hf, hs => by
    rw [List.flatMap_cons] at hs
    obtain ⟨-, hs', hle⟩ := List.pairwise_append.1 hs
    have hk := least_mem (hf k List.mem_cons_self)
    rw [List.map_cons, List.pairwise_cons]
    refine ⟨fun x hx => ?_, least_sorted (fun k' hk' => hf k' (List.mem_cons_of_mem k hk')) hs'⟩
    obtain ⟨k', hk', rfl⟩ := List.mem_map.1 hx
    exact hle _ hk _ (List.mem_flatMap.2 ⟨k', hk', least_mem (hf k' (List.mem_cons_of_mem k hk'))⟩)

theorem separators_fst (n : Nat) (kids : List (Tree Entry n)) : (separators n kids).map Prod.fst = seps n kids := by
  simp [separators, seps, Function.comp_def]

theorem length_separators (n : Nat) (kids : List (Tree Entry n)) : (separators n kids).length = kids.length - 1 := by
  simp [separators]

theorem separators_take (n : Nat) (kids : List (Tree Entry n)) (k : Nat) :
    separators n (kids.take k) = (separators n kids).take (k - 1) := by
  unfold separators
  rw [← List.drop_one, List.drop_take, List.drop_one, List.map_take]

theorem separators_drop (n : Nat) (kids : List (Tree Entry n)) (k : Nat) :
    separators n (kids.drop k) = (separators n kids).drop k := by
  unfold separators
  rw [List.tail_drop, ← List.map_drop, List.drop_tail]

/-- Separators take at least 14 bytes each. -/
theorem length_flatMap_putSeparator (rest : List (Entry × Nat)) : 14 * rest.length ≤ (rest.flatMap putSeparator).length :=
  le_length_flatMap (fun r _ => by rw [length_putSeparator]; omega)

/-- The payload of an internal page is read back. -/
theorem nodePayload_ok {pages : List Page} (hlen : pages.length < 2 ^ 32) {n : Nat} {kids : List (Tree Entry n)}
    (hk : ∀ k ∈ kids, TreeOn pages n k) (hn : n + 1 < 2 ^ 16) (h2 : 2 ≤ kids.length)
    (hp : (nodePayload n kids).length ≤ pagePayloadSize) : InternalOk (n + 1) (firstChild n kids) (separators n kids) where
  level_lt := hn
  length_lt := by
    have h1 := length_flatMap_putSeparator (separators n kids)
    rw [nodePayload, length_internalPayload] at hp
    have : pagePayloadSize = 4064 := rfl
    omega
  first_lt := by
    match kids, h2, hk with
    | k :: _, _, hk => exact Nat.lt_trans (hk k List.mem_cons_self).root_lt hlen
  rest_ok r hr := by
    obtain ⟨k, hk', rfl⟩ := List.mem_map.1 hr
    have hon := hk k (List.mem_of_mem_tail hk')
    exact ⟨hon.entryOk _ (least_mem hon.full), Nat.lt_trans hon.root_lt hlen⟩

theorem joinChildren_kids {pages : List Page} {n : Nat}
    (validate : Nat → Finset Nat → Except Corruption (ValidatedNode × Finset Nat)) :
    ∀ (children : List (Option Entry × Nat)) (kids : List (Tree Entry n)) (result : ValidatedNode) (owned : Finset Nat),
      List.Forall₂ (fun c k => root n k = c.2 ∧ ∀ s ∈ c.1, s = least n k) children kids →
      (∀ k ∈ kids, TreeOn pages n k) → (result.entries ++ kids.flatMap (entries n)).Pairwise (· ≤ ·) →
      (kids.flatMap (ids n)).Nodup → (∀ i ∈ kids.flatMap (ids n), i ∉ owned) →
      (∀ k ∈ kids, ∀ owned, (∀ i ∈ ids n k, i ∉ owned) → validate (root n k) owned =
        .ok (⟨n, entries n k, (leaves n k).map Leaf.id⟩, owned ∪ (ids n k).toFinset)) →
      joinChildren validate (n + 1) children result owned =
        .ok (⟨result.level, result.entries ++ kids.flatMap (entries n),
          result.leaves ++ (kids.flatMap (leaves n)).map Leaf.id⟩, owned ∪ (kids.flatMap (ids n)).toFinset)
  | [], kids, result, owned, hkids, _, _, _, _, _ => by
    obtain rfl := List.forall₂_nil_left_iff.1 hkids
    simp [joinChildren]
  | (sep, id) :: children, kids, result, owned, hkids, hk, hs, hnd, hfresh, hv => by
    obtain ⟨k, kids, ⟨hroot, hsep⟩, hm, rfl⟩ := List.forall₂_cons_left_iff.1 hkids
    rw [List.flatMap_cons] at hs hnd hfresh
    obtain ⟨-, hnd', hdisj⟩ := List.nodup_append.1 hnd
    have hkv := hv k List.mem_cons_self owned (fun i hi => hfresh i (List.mem_append_left _ hi))
    rw [← List.append_assoc] at hs
    have ih := joinChildren_kids validate children kids
      ⟨result.level, result.entries ++ entries n k, result.leaves ++ (leaves n k).map Leaf.id⟩
      (owned ∪ (ids n k).toFinset) hm (fun k' hk' => hk k' (List.mem_cons_of_mem k hk')) hs hnd'
      (fun i hi h => by
        rcases Finset.mem_union.1 h with h | h
        · exact hfresh i (List.mem_append_right _ hi) h
        · exact hdisj i (by simpa using h) i hi rfl)
      (fun k' hk' => hv k' (List.mem_cons_of_mem k hk'))
    have hsep' : ¬ (sep.isSome = true ∧ sep ≠ (entries n k).head?) := by
      rintro ⟨h1, h2⟩
      obtain ⟨s, rfl⟩ := Option.isSome_iff_exists.1 h1
      rw [head?_entries (hk k List.mem_cons_self).full, hsep s rfl] at h2
      exact h2 rfl
    obtain rfl : root n k = id := hroot
    rw [joinChildren, hkv]
    simp only [bind, Except.bind, throwIf_neg hsep', throwIf_neg (last_le_of_pairwise (List.pairwise_append.1 hs).1), ih]
    simp [throwIf, List.flatMap_cons, List.append_assoc, Finset.union_assoc]

/-- **A tree on fresh pages is accepted**, and its level, entries and leaves are returned. -/
theorem validateIndexNode_tree {pages : List Page} (hpages : PagesOk pages) (hlen : pages.length < 2 ^ 32) :
    ∀ (n : Nat) (t : Tree Entry n) (owned active : Finset Nat), TreeOn pages n t → (entries n t).Pairwise (· ≤ ·) →
      (ids n t).Nodup → (∀ i ∈ ids n t, i ∉ owned ∧ i ∉ active) →
      validateIndexNode pages (root n t) owned active =
        .ok (⟨n, entries n t, (leaves n t).map Leaf.id⟩, owned ∪ (ids n t).toFinset)
  | 0, t, owned, active, h, hs, _, hfresh => by
    obtain ⟨previous, next, hp, hok⟩ := h.leaf t.leaf (by simp [leaves])
    obtain ⟨ho, ha⟩ := hfresh t.leaf.id (by simp [ids, leaves])
    have hs' : t.leaf.entries.Pairwise (· ≤ ·) := by simpa [entries, leaves] using hs
    rw [show root 0 t = t.leaf.id from rfl, validateIndexNode]
    split
    · rename_i hp'; rw [hp] at hp'; cases hp'
    rename_i page hp'
    obtain rfl := Option.some.inj (hp.symm.trans hp')
    rw [dif_neg ha, if_neg ho]
    simp only [readLeaf_leafPayload hok (fun _ => h.full), bind, Except.bind,
      throwIf_neg (not_not.2 (List.isChain_iff_pairwise.2 hs')), pure, Except.pure, Except.ok.injEq, Prod.mk.injEq]
    refine ⟨by simp [entries, leaves], ?_⟩
    ext x
    simp [ids, BTree.inner, leaves]
  | n + 1, t, owned, active, h, hs, hnd, hfresh => by
    have hids := ids_succ_perm t
    have hdepth := h.depth_lt hlen hnd
    rw [hids.nodup_iff, List.nodup_cons] at hnd
    obtain ⟨ho, ha⟩ := hfresh t.node.id (hids.mem_iff.2 List.mem_cons_self)
    have hp := h.inner.1
    have hpay := (hpages _ _ hp).2.payload_le
    rw [entries_succ] at hs ⊢
    have hmem : ∀ i ∈ t.node.kids.flatMap (ids n), i ∉ owned ∧ i ∉ active ∧ i ≠ t.node.id := fun i hi =>
      have := hfresh i (hids.mem_iff.2 (List.mem_cons_of_mem _ hi))
      ⟨this.1, this.2, fun hit => hnd.1 (hit ▸ hi)⟩
    have hk := h.kid
    have h2 := h.full.1
    have hjoin := joinChildren_kids (fun c ow => validateIndexNode pages c ow (insert t.node.id active))
      ((none, firstChild n t.node.kids) :: (separators n t.node.kids).map (fun r => (some r.1, r.2))) t.node.kids
      ⟨n + 1, [], []⟩ (insert t.node.id owned)
      (by
        obtain ⟨k, ks, hks⟩ := List.exists_cons_of_length_pos (Nat.lt_of_lt_of_le (by decide) h2)
        rw [hks]
        refine .cons ⟨rfl, by simp⟩ ?_
        simp [separators, List.forall₂_map_left_iff, List.forall₂_same])
      hk hs hnd.2 (fun i hi => by
        have := hmem i hi
        simp only [Finset.mem_insert, not_or]
        exact ⟨this.2.2, this.1⟩)
      (fun k hk' ow how => validateIndexNode_tree hpages hlen n k ow _ (hk k hk') (sorted_flatMap_of_mem hs k hk')
        ((List.nodup_flatMap.1 hnd.2).1 k hk') (fun i hi => by
          have := hmem i (List.mem_flatMap.2 ⟨k, hk', hi⟩)
          refine ⟨how i hi, ?_⟩
          simp only [Finset.mem_insert, not_or]
          exact ⟨this.2.2, this.2.1⟩))
    have hne : separators n t.node.kids ≠ [] := by
      rw [← List.length_pos_iff, length_separators]; omega
    rw [show root (n + 1) t = t.node.id from rfl, validateIndexNode]
    split
    · rename_i hp'; rw [hp] at hp'; cases hp'
    rename_i page hp'
    obtain rfl := Option.some.inj (hp.symm.trans hp')
    have hchain : ((separators n t.node.kids).map Prod.fst).IsChain (· ≤ ·) := by
      rw [separators_fst]
      exact List.isChain_iff_pairwise.2 ((least_sorted h.full.2 hs).sublist (by
        simpa [seps] using (List.tail_sublist t.node.kids).map (least n)))
    rw [dif_neg ha, if_neg ho]
    simp only [nodePayload, readInternal_internalPayload (nodePayload_ok hlen hk (by omega) h2 hpay)
      (fun _ => ⟨by omega, hne⟩), bind, Except.bind, throwIf_neg (not_not.2 hchain), hjoin]
    simp only [throwIf, ne_eq, not_true_eq_false, ite_false, List.nil_append, leaves, Except.ok.injEq, Prod.mk.injEq,
      true_and]
    ext x
    have := hids.mem_iff (a := x)
    simp only [Finset.mem_union, Finset.mem_insert, List.mem_toFinset, this, List.mem_cons]
    tauto

end Storage
end Sql
