import SqlEngine.Insert
/-!
# Descent — one entry into one B+ tree on pages

`insertIndexEntry_spec`: inserting into the tree `t`, whose leaves hang between the leaves `p` and `q`, leaves one tree
or two behind.  The statement is about lists of sibling trees: an insertion into one child is an insertion into the row
of its siblings (`Inserted.sandwich`), and an insertion into the children of a node is one into the node, or into the two
nodes it splits into (`Inserted.wrap`).
-/
namespace Sql
namespace Storage

open Wire BTree

/-! ## Contents of pages -/

theorem appendEntry_ok {e : Entry} (h : e.key.length ≤ maxValueLength) : appendEntry e = .ok (putEntry e) := by
  unfold appendEntry
  rw [appendString_ok h]
  rfl

theorem decodeLeafContents_ok {previous id next : Nat} {es : List Entry} (h : LeafOk previous es) :
    decodeLeafContents ⟨.indexLeaf, id, next, leafPayload previous es⟩ = .ok ⟨previous, es⟩ := by
  have hr : readAll (readLeaf false) (leafPayload previous es) = .ok (previous, es) :=
    readLeaf_leafPayload h (fun h => by cases h)
  unfold decodeLeafContents
  rw [throwIf_neg (by simp)]
  simp only [hr, liftCorruption, bind, Except.bind, pure, Except.pure]

theorem encodeLeafPayload_ok (previous : Nat) {es : List Entry} (hne : es ≠ []) (hlen : es.length < 2 ^ 16)
    (hkeys : ∀ e ∈ es, e.key.length ≤ maxValueLength) : encodeLeafPayload previous es = .ok (leafPayload previous es) := by
  unfold encodeLeafPayload
  rw [throwIf_neg (by simp only [hne, false_or, not_lt, gt_iff_lt]; omega),
    except_mapM_map (fun e he => appendEntry_ok (hkeys e he))]
  simp [bind, Except.bind, pure, Except.pure, leafPayload, List.flatMap_def]

/-- The contents of the internal page over some children. -/
def contents (n : Nat) (kids : List (Tree Entry n)) : InternalContents := ⟨n + 1, seps n kids, kids.map (root n)⟩

theorem children_eq {n : Nat} {kids : List (Tree Entry n)} (h : 2 ≤ kids.length) :
    firstChild n kids :: (separators n kids).map Prod.snd = kids.map (root n) := by
  cases kids with
  | nil => cases h
  | cons k kids => simp [firstChild, separators, Function.comp_def]

/-- Numbers that do not fit are cut off by the writer. -/
theorem le_mod (k v : Nat) : le k (v % 256 ^ k) = le k v := by
  rw [← val_le_mod, le_val_of_length (length_le k v)]

theorem internalPayload_mod (level first : Nat) (rest : List (Entry × Nat)) : internalPayload level first rest =
    internalPayload level (first % 2 ^ 32) (rest.map (fun r => (r.1, r.2 % 2 ^ 32))) := by
  have hm : ∀ v, le 4 (v % 2 ^ 32) = le 4 v := le_mod 4
  simp only [internalPayload, List.length_map, hm, List.flatMap_map, putSeparator]
  rfl

/-- The keys and records of separators, and their number. -/
structure SeparatorsOk (n : Nat) (kids : List (Tree Entry n)) : Prop where
  two : 2 ≤ kids.length
  level_lt : n + 1 < 2 ^ 16
  length_le : kids.length ≤ 2 ^ 16
  entries_ok : ∀ k ∈ kids, EntryOk (least n k)

theorem decodeInternalContents_ok {n id next : Nat} {kids : List (Tree Entry n)} (h : SeparatorsOk n kids)
    (hlt : ∀ k ∈ kids, root n k < 2 ^ 32) :
    decodeInternalContents ⟨.indexInternal, id, next, nodePayload n kids⟩ = .ok (contents n kids) := by
  have h2 := h.two
  have hlen := h.length_le
  have hok : InternalOk (n + 1) (firstChild n kids) (separators n kids) := by
    refine ⟨h.level_lt, by rw [length_separators]; omega, ?_, fun r hr => ?_⟩
    · match kids, h2, hlt with
      | k :: _, _, hlt => exact hlt k List.mem_cons_self
    · obtain ⟨k, hk, rfl⟩ := List.mem_map.1 hr
      exact ⟨h.entries_ok k (List.mem_of_mem_tail hk), hlt k (List.mem_of_mem_tail hk)⟩
  have hr : readAll (readInternal false) (nodePayload n kids) = .ok (n + 1, firstChild n kids, separators n kids) :=
    readInternal_internalPayload hok (fun h => by cases h)
  unfold decodeInternalContents
  rw [throwIf_neg (by simp)]
  simp only [hr, liftCorruption, bind, Except.bind, pure, Except.pure, contents, separators_fst, children_eq h2]

/-- The level of an internal page does not depend on how large its page numbers are. -/
theorem nodeLevel_ok {n id next : Nat} {kids : List (Tree Entry n)} (h : SeparatorsOk n kids) :
    nodeLevel ⟨.indexInternal, id, next, nodePayload n kids⟩ = .ok (n + 1) := by
  have h2 := h.two
  have hlen := h.length_le
  have hok : InternalOk (n + 1) (firstChild n kids % 2 ^ 32)
      ((separators n kids).map (fun r => (r.1, r.2 % 2 ^ 32))) := by
    refine ⟨h.level_lt, by rw [List.length_map, length_separators]; omega, Nat.mod_lt _ (by decide), fun r hr => ?_⟩
    obtain ⟨s, hs, rfl⟩ := List.mem_map.1 hr
    obtain ⟨k, hk, rfl⟩ := List.mem_map.1 hs
    exact ⟨h.entries_ok k (List.mem_of_mem_tail hk), Nat.mod_lt _ (by decide)⟩
  have hr := readInternal_internalPayload (b := false) hok (fun h => by cases h)
  unfold nodeLevel decodeInternalContents
  rw [if_neg (by simp), nodePayload, internalPayload_mod, throwIf_neg (by simp)]
  simp only [hr, liftCorruption, bind, Except.bind, pure, Except.pure]

theorem encodeInternalPayload_ok {n : Nat} {kids : List (Tree Entry n)} (h : SeparatorsOk n kids) :
    encodeInternalPayload (contents n kids) = .ok (nodePayload n kids) := by
  have h2 := h.two
  have hlen := h.length_le
  have hzip : (seps n kids).zip (kids.map (root n)).tail = separators n kids := by
    rw [seps, separators, ← List.map_tail, List.zip_map']
  have hmap : (separators n kids).mapM appendSeparator = .ok ((separators n kids).map putSeparator) := by
    refine except_mapM_map (fun r hr => ?_)
    obtain ⟨k, hk, rfl⟩ := List.mem_map.1 hr
    unfold appendSeparator
    rw [appendEntry_ok (h.entries_ok k (List.mem_of_mem_tail hk)).key_le]
    rfl
  have hshape : ¬ ((contents n kids).level = 0 ∨ (contents n kids).children.length < 2 ∨
      (contents n kids).separators.length + 1 ≠ (contents n kids).children.length ∨
      (contents n kids).separators.length > 2 ^ 16 - 1) := by
    simp only [contents, length_seps, List.length_map]
    omega
  unfold encodeInternalPayload
  rw [throwIf_neg hshape]
  simp only [contents, hzip, hmap, bind, Except.bind, pure, Except.pure, nodePayload, internalPayload, firstChild,
    length_separators, length_seps, List.flatMap_def]

/-! ## Lists of sibling trees before and after -/

/-- Trees side by side on pages, between the leaves `p` and `q`, that lack the entry `e`. -/
structure Ready (pages : List Page) (n : Nat) (ts : List (Tree Entry n)) (p q : Nat) (e : Entry) : Prop where
  sized : Sized pages
  full : ∀ k ∈ ts, Full n k
  inner : ∀ k ∈ ts, InnerAt pages n k
  chain : LeafChain pages p (ts.flatMap (leaves n)) q
  /-- The leaf behind the last one links back to it. -/
  sibling : q = noPage ∨ ∃ next es,
    pages[q]? = some ⟨.indexLeaf, q, next, leafPayload (leafLast p (ts.flatMap (leaves n))) es⟩
  nodup : (ts.flatMap (ids n)).Nodup
  fresh : q ∉ ts.flatMap (ids n)
  ids_lt : ∀ i ∈ ts.flatMap (ids n), i < noPage
  prev_lt : p < 2 ^ 32
  sorted : (ts.flatMap (entries n)).Pairwise (· ≤ ·)
  not_mem : e ∉ ts.flatMap (entries n)
  entries_ok : ∀ x ∈ ts.flatMap (entries n), EntryOk x
  entry_ok : EntryOk e

/-- **What an insertion leaves behind**: other trees side by side that hold one entry more, on the same pages and new
ones; of all other pages only the leaf `q` may have changed, and that in its link to the previous leaf. -/
structure Inserted (pages pages' : List Page) (n : Nat) (before after : List (Tree Entry n)) (p q : Nat) (e : Entry) :
    Prop where
  le : pages.length ≤ pages'.length
  sized : Sized pages'
  frame : ∀ i < pages.length, i ∉ before.flatMap (ids n) → i ≠ q → pages'[i]? = pages[i]?
  sibling : q ≠ noPage → ∀ next es,
    pages[q]? = some ⟨.indexLeaf, q, next, leafPayload (leafLast p (before.flatMap (leaves n))) es⟩ →
    pages'[q]? = some ⟨.indexLeaf, q, next, leafPayload (leafLast p (after.flatMap (leaves n))) es⟩
  full : ∀ k ∈ after, Full n k
  inner : ∀ k ∈ after, InnerAt pages' n k
  chain : LeafChain pages' p (after.flatMap (leaves n)) q
  head_eq : ∀ x, leafHead (after.flatMap (leaves n)) x = leafHead (before.flatMap (leaves n)) x
  entries_eq : after.flatMap (entries n) = lowerInsert e (before.flatMap (entries n))
  ids_perm : (after.flatMap (ids n)).Perm (before.flatMap (ids n) ++ newIds pages pages')

theorem flatMap_ids_perm {n : Nat} (ts : List (Tree Entry n)) :
    (ts.flatMap (ids n)).Perm (ts.flatMap (inner n) ++ (ts.flatMap (leaves n)).map Leaf.id) := by
  rw [List.map_flatMap]
  exact (List.flatMap_append_perm ts (inner n) (fun k => (leaves n k).map Leaf.id)).symm

theorem inner_mem_ids {n : Nat} {t : Tree Entry n} {i : Nat} (h : i ∈ inner n t) : i ∈ ids n t := List.mem_append_left _ h

theorem leaf_mem_ids {n : Nat} {ts : List (Tree Entry n)} {l : Leaf Entry} (h : l ∈ ts.flatMap (leaves n)) :
    l.id ∈ ts.flatMap (ids n) :=
  (flatMap_ids_perm ts).mem_iff.2 (List.mem_append_right _ (List.mem_map_of_mem h))

/-- No page is an inner node and a leaf of the same trees. -/
theorem inner_ne_leaf {n : Nat} {ts : List (Tree Entry n)} (h : (ts.flatMap (ids n)).Nodup) {k : Tree Entry n} (hk : k ∈ ts)
    {i : Nat} (hi : i ∈ inner n k) {l : Leaf Entry} (hl : l ∈ ts.flatMap (leaves n)) : i ≠ l.id := by
  have hnd := (flatMap_ids_perm ts).nodup_iff.1 h
  rw [List.nodup_append] at hnd
  exact hnd.2.2 i (List.mem_flatMap.2 ⟨k, hk, hi⟩) l.id (List.mem_map_of_mem hl)

theorem leafHead_cases (ls : List (Leaf Entry)) (q : Nat) : leafHead ls q = q ∧ ls = [] ∨
    ∃ l rest, ls = l :: rest ∧ leafHead ls q = l.id := by
  cases ls with
  | nil => exact Or.inl ⟨rfl, rfl⟩
  | cons l rest => exact Or.inr ⟨l, rest, rfl, rfl⟩

variable {pages pages' : List Page} {n p q : Nat} {e : Entry}

theorem siblings_lt {ts : List (Tree Entry n)} (hinner : ∀ k ∈ ts, InnerAt pages n k)
    (hchain : LeafChain pages p (ts.flatMap (leaves n)) q) : ∀ i ∈ ts.flatMap (ids n), i < pages.length := fun i hi => by
  obtain ⟨k, hk, hik⟩ := List.mem_flatMap.1 hi
  rcases List.mem_append.1 hik with hin | hleaf
  · exact (hinner k hk).lt i hin
  · obtain ⟨l, hl, rfl⟩ := List.mem_map.1 hleaf
    exact hchain.lt l (List.mem_flatMap.2 ⟨k, hk, hl⟩)

theorem Ready.lt {ts : List (Tree Entry n)} (h : Ready pages n ts p q e) : ∀ i ∈ ts.flatMap (ids n), i < pages.length :=
  siblings_lt h.inner h.chain

theorem Inserted.lt {before after : List (Tree Entry n)} (h : Inserted pages pages' n before after p q e) :
    ∀ i ∈ after.flatMap (ids n), i < pages'.length := siblings_lt h.inner h.chain

/-- The child an entry is routed to is ready for it. -/
theorem Ready.child {A B : List (Tree Entry n)} {c : Tree Entry n} (h : Ready pages n (A ++ c :: B) p q e) :
    Ready pages n [c] (leafLast p (A.flatMap (leaves n))) (leafHead (B.flatMap (leaves n)) q) e := by
  obtain ⟨hs, hfull, hinner, hchain, hsib, hnd, hfresh, hlt, hprev, hsort, hmem, hok, he⟩ := h
  simp only [List.flatMap_append, List.flatMap_cons] at hchain hsib hnd hfresh hlt hsort hmem hok
  obtain ⟨-, hchain⟩ := LeafChain_append.1 hchain
  obtain ⟨hc, hB⟩ := LeafChain_append.1 hchain
  rw [List.nodup_append, List.nodup_append] at hnd
  have hc' : ([c] : List (Tree Entry n)).flatMap (leaves n) = leaves n c := by simp
  have hcI : ([c] : List (Tree Entry n)).flatMap (ids n) = ids n c := by simp
  have hcE : ([c] : List (Tree Entry n)).flatMap (entries n) = entries n c := by simp
  have hcases := leafHead_cases (B.flatMap (leaves n)) q
  refine ⟨hs, fun k hk => hfull k (by simp at hk ⊢; exact Or.inr (Or.inl hk)),
    fun k hk => hinner k (by simp at hk ⊢; exact Or.inr (Or.inl hk)), by rwa [hc'], ?_, by rw [hcI]; exact hnd.2.1.1, ?_,
    fun i hi => hlt i (by rw [hcI] at hi; simp [hi]), ?_, ?_, fun hm => hmem (by rw [hcE] at hm; simp [hm]),
    fun x hx => hok x (by rw [hcE] at hx; simp [hx]), he⟩
  · rw [hc']
    rcases hcases with ⟨hq, hnil⟩ | ⟨l, rest, hl, hq⟩
    · rw [hnil, List.append_nil, leafLast_append] at hsib
      rw [hq]
      exact hsib
    · rw [hl, LeafChain] at hB
      rw [hq]
      exact Or.inr ⟨_, _, hB.1⟩
  · rw [hcI]
    intro hm
    rcases hcases with ⟨hq, -⟩ | ⟨l, rest, hl, hq⟩
    · rw [hq] at hm
      exact hfresh (by simp [hm])
    · rw [hq] at hm
      exact hnd.2.1.2.2 _ hm _ (leaf_mem_ids (hl ▸ List.mem_cons_self)) rfl
  · cases hA : A.flatMap (leaves n) using List.reverseRecOn with
    | nil => simpa [leafLast] using hprev
    | append_singleton xs x =>
      have hx : x.id ∈ A.flatMap (ids n) := leaf_mem_ids (by rw [hA]; simp)
      have := hlt x.id (by simp [hx])
      simp only [leafLast, List.map_append, List.map_cons, List.map_nil, List.getLastD_concat]
      unfold noPage at this
      omega
  · rw [hcE]
    exact (List.pairwise_append.1 (List.pairwise_append.1 hsort).2.1).1

/-- **An insertion into one child is an insertion into the row of its siblings.** -/
theorem Inserted.sandwich {A B ts : List (Tree Entry n)} {c : Tree Entry n} (hr : Ready pages n (A ++ c :: B) p q e)
    (hA : ∀ x ∈ A.flatMap (entries n), x < e) (hB : ∀ x ∈ B.flatMap (entries n), ¬ x < e)
    (h : Inserted pages pages' n [c] ts (leafLast p (A.flatMap (leaves n))) (leafHead (B.flatMap (leaves n)) q) e) :
    Inserted pages pages' n (A ++ c :: B) (A ++ ts ++ B) p q e := by
  have hnd := hr.nodup
  have hfresh := hr.fresh
  obtain ⟨hchainA, hchain⟩ := LeafChain_append.1 (by simpa only [List.flatMap_append, List.flatMap_cons] using hr.chain)
  obtain ⟨-, hchainB⟩ := LeafChain_append.1 hchain
  simp only [List.flatMap_append, List.flatMap_cons] at hnd hfresh
  rw [List.nodup_append, List.nodup_append] at hnd
  obtain ⟨-, ⟨-, hndB, hcB⟩, hAcB⟩ := hnd
  have hcI : ([c] : List (Tree Entry n)).flatMap (ids n) = ids n c := by simp
  have hcL : ([c] : List (Tree Entry n)).flatMap (leaves n) = leaves n c := by simp
  have hcases := leafHead_cases (B.flatMap (leaves n)) q
  -- the pages left and right of the child, where the one that is relinked is the first leaf to the right
  have hleft : ∀ i ∈ A.flatMap (ids n), pages'[i]? = pages[i]? := fun i hi => by
    have hlt : i < pages.length := hr.lt i (by simp [hi])
    refine h.frame i hlt (fun hm => hAcB i hi i (by rw [hcI] at hm; simp [hm]) rfl) (fun heq => ?_)
    rcases hcases with ⟨hq, -⟩ | ⟨l, rest, hl, hq⟩
    · exact hfresh (by rw [← hq, ← heq]; simp [hi])
    · have : l.id ∈ B.flatMap (ids n) := leaf_mem_ids (hl ▸ List.mem_cons_self)
      exact hAcB i hi i (by rw [heq, hq]; simp [this]) rfl
  have hright : ∀ i ∈ B.flatMap (ids n), i ≠ leafHead (B.flatMap (leaves n)) q → pages'[i]? = pages[i]? := fun i hi hne => by
    have hlt : i < pages.length := hr.lt i (by simp [hi])
    exact h.frame i hlt (fun hm => hcB i (by rwa [hcI] at hm) i hi rfl) hne
  have hqB : leafHead (B.flatMap (leaves n)) q = q ∨ leafHead (B.flatMap (leaves n)) q ∈ B.flatMap (ids n) := by
    rcases hcases with ⟨hq, -⟩ | ⟨l, rest, hl, hq⟩
    · exact Or.inl hq
    · exact Or.inr (hq ▸ leaf_mem_ids (hl ▸ List.mem_cons_self))
  refine ⟨h.le, h.sized, fun i hi hm hq => ?_, fun hqne next es hpage => ?_, fun k hk => ?_, fun k hk => ?_, ?_,
    fun x => ?_, ?_, ?_⟩
  · simp only [List.flatMap_append, List.flatMap_cons, List.mem_append, not_or] at hm
    refine h.frame i hi (fun hc => hm.2.1 (by rwa [hcI] at hc)) (fun heq => ?_)
    rcases hqB with h1 | h1
    · exact hq (heq.trans h1)
    · exact hm.2.2 (heq ▸ h1)
  · simp only [List.flatMap_append, List.flatMap_cons] at hpage ⊢
    rcases hcases with ⟨hq, hnil⟩ | ⟨l, rest, hl, hq⟩
    · have hsib := h.sibling (by rw [hq]; exact hqne) next es
      rw [hq, hcL] at hsib
      rw [hnil, List.append_nil, leafLast_append] at hpage ⊢
      exact hsib hpage
    · have hne : B.flatMap (leaves n) ≠ [] := by rw [hl]; simp
      rw [leafLast_append, leafLast_append, leafLast_of_ne_nil hne _ p] at hpage
      rw [leafLast_append, leafLast_of_ne_nil hne _ p, ← hpage]
      have hqlt := lt_of_getElem?_some hpage
      have hlB : l.id ∈ B.flatMap (ids n) := leaf_mem_ids (hl ▸ List.mem_cons_self)
      refine h.frame q hqlt (fun hm => hfresh (by rw [hcI] at hm; simp [hm])) (fun heq => hfresh ?_)
      rw [heq, hq]
      simp [hlB]
  · rcases List.mem_append.1 hk with hk | hk
    · rcases List.mem_append.1 hk with hk | hk
      · exact hr.full k (by simp [hk])
      · exact h.full k hk
    · exact hr.full k (by simp [hk])
  · rcases List.mem_append.1 hk with hk | hk
    · rcases List.mem_append.1 hk with hk | hk
      · exact (hr.inner k (by simp [hk])).congr (fun i hi => hleft i (List.mem_flatMap.2 ⟨k, hk, inner_mem_ids hi⟩))
      · exact h.inner k hk
    · refine (hr.inner k (by simp [hk])).congr (fun i hi => ?_)
      have hiB : i ∈ B.flatMap (ids n) := List.mem_flatMap.2 ⟨k, hk, inner_mem_ids hi⟩
      refine hright i hiB (fun heq => ?_)
      rcases hcases with ⟨hq, -⟩ | ⟨l, rest, hl, hq⟩
      · exact hfresh (by rw [← hq, ← heq]; simp [hiB])
      · exact inner_ne_leaf hndB hk hi (hl ▸ List.mem_cons_self) (heq.trans hq)
  · rw [List.flatMap_append, List.flatMap_append, LeafChain_append, LeafChain_append]
    refine ⟨⟨?_, h.chain⟩, ?_⟩
    · rw [h.head_eq, hcL, ← leafHead_append]
      exact hchainA.congr (fun l hl => hleft l.id (leaf_mem_ids hl))
    · rw [leafLast_append]
      rcases hcases with ⟨-, hnil⟩ | ⟨l, rest, hl, hq⟩
      · rw [hnil]; trivial
      · rw [hl] at hchainB ⊢
        have hq' : l.id ≠ noPage := fun heq => by
          have := hr.ids_lt l.id (by
            simp only [List.flatMap_append, List.flatMap_cons]
            have : l.id ∈ B.flatMap (ids n) := leaf_mem_ids (hl ▸ List.mem_cons_self)
            simp [this])
          omega
        have hsib := h.sibling (by rw [hq]; exact hq') (leafHead rest q) l.entries
        rw [hq, hcL] at hsib
        refine ⟨hsib hchainB.1, hchainB.2.congr (fun l' hl' => hright l'.id (leaf_mem_ids (hl ▸ List.mem_cons_of_mem l hl'))
          (fun heq => ?_))⟩
        have hndL := (List.nodup_append.1 ((flatMap_ids_perm B).nodup_iff.1 hndB)).2.1
        rw [hl, List.map_cons, List.nodup_cons] at hndL
        rw [hq] at heq
        exact hndL.1 (heq ▸ List.mem_map_of_mem hl')
  · have hx := h.head_eq (leafHead (B.flatMap (leaves n)) x)
    rw [hcL] at hx
    simp only [List.flatMap_append, List.flatMap_cons, leafHead_append, hx]
  · have he := h.entries_eq
    simp only [List.flatMap_cons, List.flatMap_nil, List.append_nil] at he
    rw [List.flatMap_append, List.flatMap_append, he, ← lowerInsert_append hA hB, List.flatMap_append, List.flatMap_cons,
      List.append_assoc]
  · have hp := h.ids_perm
    rw [hcI] at hp
    simp only [List.flatMap_append, List.flatMap_cons, List.append_assoc]
    refine List.Perm.append_left _ ?_
    refine (hp.append_right _).trans ?_
    rw [List.append_assoc]
    exact List.Perm.append_left _ List.perm_append_comm

/-- The children of a node that is ready are ready. -/
theorem Ready.kids {t : Tree Entry (n + 1)} (h : Ready pages (n + 1) [t] p q e) : Ready pages n t.node.kids p q e := by
  have hL : ([t] : List (Tree Entry (n + 1))).flatMap (leaves (n + 1)) = t.node.kids.flatMap (leaves n) := by
    simp [leaves]
  have hE : ([t] : List (Tree Entry (n + 1))).flatMap (entries (n + 1)) = t.node.kids.flatMap (entries n) := by
    simp [entries_succ]
  have hI : ([t] : List (Tree Entry (n + 1))).flatMap (ids (n + 1)) = ids (n + 1) t := by simp
  have hperm := ids_succ_perm t
  have hmem : ∀ i, i ∈ t.node.kids.flatMap (ids n) → i ∈ ([t] : List (Tree Entry (n + 1))).flatMap (ids (n + 1)) :=
    fun i hi => by rw [hI]; exact hperm.mem_iff.2 (List.mem_cons_of_mem _ hi)
  have ht : t ∈ [t] := List.mem_cons_self
  refine ⟨h.sized, (h.full t ht).2, (h.inner t ht).2, hL ▸ h.chain, hL ▸ h.sibling, ?_, fun hq => h.fresh (hmem q hq),
    fun i hi => h.ids_lt i (hmem i hi), h.prev_lt, hE ▸ h.sorted, hE ▸ h.not_mem, hE ▸ h.entries_ok, h.entry_ok⟩
  have := h.nodup
  rw [hI, hperm.nodup_iff, List.nodup_cons] at this
  exact this.2

/-- **An insertion into the children of a node** becomes one into the node, whose page is rewritten, or into the two
nodes it is split into. -/
theorem Inserted.wrap {pages1 : List Page} {t : Tree Entry (n + 1)} {kids : List (Tree Entry n)}
    {after : List (Tree Entry (n + 1))} (hr : Ready pages (n + 1) [t] p q e)
    (h : Inserted pages pages1 n t.node.kids kids p q e) (hkids : after.flatMap (fun k => k.node.kids) = kids)
    (hids : after.map (fun k => k.node.id) = t.node.id :: newIds pages1 pages') (hle : pages1.length ≤ pages'.length)
    (hs : Sized pages') (hframe : ∀ i < pages1.length, i ≠ t.node.id → pages'[i]? = pages1[i]?)
    (hat : ∀ k ∈ after, pages'[k.node.id]? = some ⟨.indexInternal, k.node.id, noPage, nodePayload n k.node.kids⟩)
    (h2 : ∀ k ∈ after, 2 ≤ k.node.kids.length) : Inserted pages pages' (n + 1) [t] after p q e := by
  have hI : ([t] : List (Tree Entry (n + 1))).flatMap (ids (n + 1)) = ids (n + 1) t := by simp
  have hL : ([t] : List (Tree Entry (n + 1))).flatMap (leaves (n + 1)) = t.node.kids.flatMap (leaves n) := by
    simp [leaves]
  have hE : ([t] : List (Tree Entry (n + 1))).flatMap (entries (n + 1)) = t.node.kids.flatMap (entries n) := by
    simp [entries_succ]
  have hL' : after.flatMap (leaves (n + 1)) = kids.flatMap (leaves n) := by
    rw [← hkids, List.flatMap_assoc]; rfl
  have hE' : after.flatMap (entries (n + 1)) = kids.flatMap (entries n) := by
    rw [← hkids, List.flatMap_assoc]
    exact List.flatMap_congr (fun k _ => entries_succ k)
  have hmem : ∀ k ∈ after, ∀ j ∈ k.node.kids, j ∈ kids := fun k hk j hj => by
    rw [← hkids]; exact List.mem_flatMap.2 ⟨k, hk, hj⟩
  -- the node's own page is none of its children's
  have hnd : t.node.id ∉ t.node.kids.flatMap (ids n) := by
    have := hr.nodup
    rw [hI, (ids_succ_perm t).nodup_iff, List.nodup_cons] at this
    exact this.1
  have hlt : t.node.id < pages.length := hr.lt _ (by rw [hI]; exact root_mem_ids (n + 1) t)
  have hq : q ≠ t.node.id := fun heq => hr.fresh (by rw [hI, heq]; exact root_mem_ids (n + 1) t)
  have hown : ∀ i ∈ kids.flatMap (ids n), i ≠ t.node.id := fun i hi heq => by
    rcases List.mem_append.1 (h.ids_perm.mem_iff.1 hi) with hi | hi
    · exact hnd (heq ▸ hi)
    · have := mem_newIds.1 hi
      omega
  have hsame : ∀ i ∈ kids.flatMap (ids n), pages'[i]? = pages1[i]? := fun i hi => hframe i (h.lt i hi) (hown i hi)
  refine ⟨Nat.le_trans h.le hle, hs, fun i hi hm hiq => ?_, fun hqne next es hpage => ?_, fun k hk => ?_, fun k hk => ?_,
    ?_, fun x => ?_, ?_, ?_⟩
  · rw [hI, (ids_succ_perm t).mem_iff, List.mem_cons, not_or] at hm
    rw [hframe i (Nat.lt_of_lt_of_le hi h.le) hm.1, h.frame i hi hm.2 hiq]
  · rw [hL] at hpage
    have hq1 := h.sibling hqne next es hpage
    rw [hframe q (lt_of_getElem?_some hq1) hq, hq1, hL']
  · exact ⟨h2 k hk, fun j hj => h.full j (hmem k hk j hj)⟩
  · exact ⟨hat k hk, fun j hj => (h.inner j (hmem k hk j hj)).congr (fun i hi =>
      hsame i (List.mem_flatMap.2 ⟨j, hmem k hk j hj, inner_mem_ids hi⟩))⟩
  · rw [hL']
    exact h.chain.congr (fun l hl => hsame l.id (leaf_mem_ids hl))
  · rw [hL, hL', h.head_eq]
  · rw [hE, hE', h.entries_eq]
  · have hafter : (after.flatMap (ids (n + 1))).Perm (after.map (fun k => k.node.id) ++ kids.flatMap (ids n)) := by
      have hall : (after.flatMap (ids (n + 1))).Perm (after.flatMap (fun k => k.node.id :: k.node.kids.flatMap (ids n))) :=
        List.Perm.flatMap_left after (fun k _ => ids_succ_perm k)
      refine hall.trans ?_
      rw [← hkids, List.flatMap_assoc, List.map_eq_flatMap]
      exact (List.flatMap_append_perm after (fun k => [k.node.id]) _).symm
    refine hafter.trans ?_
    rw [hids, hI, ← newIds_join h.le hle, List.cons_append]
    refine List.Perm.trans ?_ ((ids_succ_perm t).symm.append_right _)
    rw [List.cons_append]
    refine List.Perm.cons _ (List.perm_append_comm.trans ((h.ids_perm.append_right _).trans ?_))
    rw [List.append_assoc]

/-! ## Halves -/

/-- **Both halves of a leaf that has become too large fit.** -/
theorem leaf_halves {previous : Nat} {es : List Entry} (hok : ∀ x ∈ es, EntryOk x)
    (hbig : pagePayloadSize < (leafPayload previous es).length)
    (hle : (leafPayload previous es).length ≤ pagePayloadSize + 110) :
    es.take (es.length / 2) ≠ [] ∧ es.drop (es.length / 2) ≠ [] ∧ es.length < 2 ^ 16 ∧
      ∀ p, (leafPayload p (es.take (es.length / 2))).length ≤ pagePayloadSize ∧
        (leafPayload p (es.drop (es.length / 2))).length ≤ pagePayloadSize := by
  have hall := length_flatMap_bounds (fun x hx => (hok x hx).size)
  have htake := length_flatMap_bounds (fun x hx => (hok x (List.mem_of_mem_take (i := es.length / 2) hx)).size)
  have hdrop := length_flatMap_bounds (fun x hx => (hok x (List.mem_of_mem_drop (i := es.length / 2) hx)).size)
  have hsum := length_flatMap_take_drop putEntry es (es.length / 2)
  have hsize : pagePayloadSize = 4064 := rfl
  simp only [length_leafPayload, List.length_take, List.length_drop] at hbig hle htake hdrop ⊢
  refine ⟨?_, ?_, by omega, fun _ => ⟨by omega, by omega⟩⟩
  · rw [← List.length_pos_iff, List.length_take]; omega
  · rw [← List.length_pos_iff, List.length_drop]; omega

/-- **Both halves of an internal page that has become too large fit**, and both have two children or more. -/
theorem node_halves {kids : List (Tree Entry n)} (hok : ∀ k ∈ kids, EntryOk (least n k))
    (hbig : pagePayloadSize < (nodePayload n kids).length) (hle : (nodePayload n kids).length ≤ pagePayloadSize + 114) :
    2 ≤ kids.length / 2 ∧ 2 ≤ kids.length - kids.length / 2 ∧ kids.length ≤ 2 ^ 16 ∧
      (nodePayload n (kids.take (kids.length / 2))).length ≤ pagePayloadSize ∧
      (nodePayload n (kids.drop (kids.length / 2))).length ≤ pagePayloadSize := by
  have hmem : ∀ r ∈ separators n kids, 14 ≤ (putSeparator r).length ∧ (putSeparator r).length ≤ 114 := fun r hr => by
    obtain ⟨k, hk, rfl⟩ := List.mem_map.1 hr
    exact putSeparator_size (hok k (List.mem_of_mem_tail hk))
  have hall := length_flatMap_bounds hmem
  have b1 := length_flatMap_bounds (fun r hr => hmem r (List.mem_of_mem_drop (i := kids.length / 2 - 1) hr))
  have b2 := length_flatMap_bounds (fun r hr => hmem r (List.mem_of_mem_take (i := kids.length / 2) hr))
  have s1 := length_flatMap_take_drop putSeparator (separators n kids) (kids.length / 2 - 1)
  have s2 := length_flatMap_take_drop putSeparator (separators n kids) (kids.length / 2)
  have hsize : pagePayloadSize = 4064 := rfl
  have hlen := length_separators n kids
  simp only [nodePayload, length_internalPayload, List.length_take, List.length_drop, hlen] at hbig hle hall b1 b2 ⊢
  rw [separators_take, separators_drop]
  refine ⟨by omega, by omega, by omega, by omega, by omega⟩

/-! ## The leaf case -/

/-- One tree or two, with what the caller is told about the second. -/
inductive Outcome (pages pages' : List Page) (n : Nat) (t : Tree Entry n) (p q : Nat) (e : Entry) :
    Option NodeSplit → Prop
  | one (k : Tree Entry n) : root n k = root n t → Inserted pages pages' n [t] [k] p q e →
      Outcome pages pages' n t p q e none
  | two (l r : Tree Entry n) : root n l = root n t → Inserted pages pages' n [t] [l, r] p q e →
      Outcome pages pages' n t p q e (some ⟨least n r, root n r⟩)

theorem lowerInsert_entryOk {es : List Entry} (hok : ∀ x ∈ es, EntryOk x) (he : EntryOk e) :
    ∀ x ∈ lowerInsert e es, EntryOk x := fun x hx => by
  rcases mem_lowerInsert.1 hx with rfl | hx
  · exact he
  · exact hok x hx

theorem length_leafPayload_lowerInsert (previous : Nat) (es : List Entry) :
    (leafPayload previous (lowerInsert e es)).length = (leafPayload previous es).length + (putEntry e).length := by
  have h := ((lowerInsert_perm e es).flatMap_right putEntry).length_eq
  rw [length_leafPayload, length_leafPayload, h, List.flatMap_cons, List.length_append]
  omega

/-- Relinking rewrites the previous link of the next leaf, when there is one. -/
theorem relinkSibling_spec {w : Work} (rightId : Nat) {previous : Nat} (hs : Sized w.pages) (hsib : q = noPage ∨ ∃ next es,
    w.pages[q]? = some ⟨.indexLeaf, q, next, leafPayload previous es⟩) : ∃ w', relinkSibling q rightId w = .ok w' ∧
      w'.pages.length = w.pages.length ∧ Sized w'.pages ∧ (∀ i, i ≠ q → w'.pages[i]? = w.pages[i]?) ∧
      (q ≠ noPage → ∀ next es, w.pages[q]? = some ⟨.indexLeaf, q, next, leafPayload previous es⟩ →
        w'.pages[q]? = some ⟨.indexLeaf, q, next, leafPayload rightId es⟩) ∧ (q = noPage → w'.pages = w.pages) := by
  unfold relinkSibling
  by_cases hq : q = noPage
  · exact ⟨w, if_pos hq, rfl, hs, fun _ _ => rfl, fun h => absurd hq h, fun _ => rfl⟩
  · obtain ⟨next, es, hpage⟩ := hsib.resolve_left hq
    have hlen : ¬ 2 + 4 > (leafPayload previous es).length := by rw [length_leafPayload]; omega
    obtain ⟨-, hpay, hnext⟩ := hs _ _ hpage
    refine ⟨⟨w.pages.set q ⟨.indexLeaf, q, next, leafPayload rightId es⟩, insert q w.dirty⟩, ?_, by simp,
      hs.set rfl (by simpa only [length_leafPayload] using hpay) hnext, fun i hi => getElem?_set_other hi, ?_,
      fun h => absurd h hq⟩
    · rw [if_neg hq]
      simp only [hpage, ne_eq, not_true_eq_false, writeU32, throwIf_neg hlen, patch_leafPayload, bind, Except.bind, pure,
        Except.pure]
      rfl
    · intro _ next' es' hpage'
      obtain ⟨rfl, hpay'⟩ : next = next' ∧ leafPayload previous es = leafPayload previous es' := by
        rw [hpage] at hpage'
        simpa using hpage'
      rw [getElem?_set_same hpage]
      have := congrArg (fun bs => patch bs 2 (le 4 rightId)) hpay'
      simp only [patch_leafPayload] at this
      rw [this]

/-- **The leaf case.** -/
theorem insertLeafEntry_spec {w : Work} {id : Nat} {es : List Entry} (hr : Ready w.pages 0 [Tree.mkLeaf id es] p q e) :
    ∃ split w', insertLeafEntry ⟨.indexLeaf, id, q, leafPayload p es⟩ id e w = .ok (split, w') ∧
      Outcome w.pages w'.pages 0 (Tree.mkLeaf id es) p q e split := by
  have hpage : w.pages[id]? = some ⟨.indexLeaf, id, q, leafPayload p es⟩ := hr.chain.1
  have hsib : q = noPage ∨ ∃ next es', w.pages[q]? = some ⟨.indexLeaf, q, next, leafPayload id es'⟩ := hr.sibling
  have hok : ∀ x ∈ es, EntryOk x := by simpa using hr.entries_ok
  have hmem : e ∉ es := by simpa using hr.not_mem
  have hqid : q ≠ id := by simpa using hr.fresh
  have hidlt : id < w.pages.length := lt_of_getElem?_some hpage
  have hnext := (hr.sized _ _ hpage).2.2
  have hpaylen : (leafPayload p es).length ≤ pagePayloadSize := (hr.sized _ _ hpage).2.1
  have hins := lowerInsert_entryOk hok hr.entry_ok
  have hkeys : ∀ x ∈ lowerInsert e es, x.key.length ≤ maxValueLength := fun x hx => (hins x hx).key_le
  have hgrow := length_leafPayload_lowerInsert (e := e) p es
  have hesize := hr.entry_ok.size
  have hsize : pagePayloadSize = 4064 := rfl
  have hlt : es.length < 2 ^ 16 ∧ (lowerInsert e es).length < 2 ^ 16 := by
    have h1 := length_flatMap_putEntry es
    have h2 := length_leafPayload p es
    have h3 := length_lowerInsert e es
    omega
  have hdup : ¬ (es.dropWhile (· < e)).head? = some e := fun h =>
    hmem ((List.dropWhile_sublist _).subset (List.mem_of_head? h))
  unfold insertLeafEntry
  simp only [decodeLeafContents_ok ⟨hlt.1, hr.prev_lt, hok⟩, throwIf_neg hdup,
    encodeLeafPayload_ok p (lowerInsert_ne_nil e es) hlt.2 hkeys, bind, Except.bind]
  by_cases hfit : (leafPayload p (lowerInsert e es)).length ≤ pagePayloadSize
  · -- the leaf keeps its place and takes the entry
    rw [if_pos hfit]
    refine ⟨none, _, rfl, .one (Tree.mkLeaf id (lowerInsert e es)) rfl ?_⟩
    refine ⟨by simp, hr.sized.set rfl hfit hnext, fun i _ hi _ => getElem?_set_other (by simpa using hi),
      fun _ next es' h => ?_, by simpa [Full] using lowerInsert_ne_nil e es, by simp [InnerAt],
      ⟨getElem?_set_same hpage, trivial⟩, fun _ => rfl, by simp, by simp [newIds]⟩
    rw [getElem?_set_other hqid]
    exact h
  · -- the leaf splits, and the next leaf links back to the new one
    rw [if_neg hfit]
    obtain ⟨hl, hrt, -, hhalf⟩ := leaf_halves hins (Nat.lt_of_not_le hfit) (by omega)
    generalize hL : (lowerInsert e es).take ((lowerInsert e es).length / 2) = left at hl hhalf
    generalize hR : (lowerInsert e es).drop ((lowerInsert e es).length / 2) = right at hrt hhalf
    have hjoin : left ++ right = lowerInsert e es := by rw [← hL, ← hR, List.take_append_drop]
    have hlens : left.length < 2 ^ 16 ∧ right.length < 2 ^ 16 := by
      have := congrArg List.length hjoin
      rw [List.length_append] at this
      omega
    have hkl : ∀ x ∈ left, x.key.length ≤ maxValueLength := fun x hx => hkeys x (hjoin ▸ List.mem_append_left _ hx)
    have hkr : ∀ x ∈ right, x.key.length ≤ maxValueLength := fun x hx => hkeys x (hjoin ▸ List.mem_append_right _ hx)
    have hqlt : q = noPage ∨ q < w.pages.length := hsib.imp_right (by
      rintro ⟨_, _, h⟩
      exact lt_of_getElem?_some h)
    let pages := w.pages.set id ⟨.indexLeaf, id, w.pages.length, leafPayload p left⟩ ++
      [⟨.indexLeaf, w.pages.length, q, leafPayload id right⟩]
    have hid1 : pages[id]? = some ⟨.indexLeaf, id, w.pages.length, leafPayload p left⟩ := by
      rw [getElem?_append_old (by simpa using hidlt), getElem?_set_same hpage]
    have hnew1 : pages[w.pages.length]? = some ⟨.indexLeaf, w.pages.length, q, leafPayload id right⟩ := by
      have := getElem?_append_new (w.pages.set id ⟨.indexLeaf, id, w.pages.length, leafPayload p left⟩)
        ⟨.indexLeaf, w.pages.length, q, leafPayload id right⟩
      rwa [List.length_set] at this
    have hold1 : ∀ i < w.pages.length, i ≠ id → pages[i]? = w.pages[i]? := fun i hi hne => by
      rw [getElem?_append_old (by simpa using hi), getElem?_set_other hne]
    have hs1 : Sized pages := by
      have h1 : Sized (w.pages.set id ⟨.indexLeaf, id, w.pages.length, leafPayload p left⟩) :=
        hr.sized.set rfl (hhalf p).1 (Or.inr (Nat.le_refl _))
      refine h1.append (by simp) (hhalf id).2 ?_
      rw [List.length_set]
      rcases hqlt with h | h
      · exact Or.inl (h ▸ (by decide : noPage < 2 ^ 32))
      · exact Or.inr (show q ≤ w.pages.length + 1 by omega)
    have hsib1 : q = noPage ∨ ∃ next es', pages[q]? = some ⟨.indexLeaf, q, next, leafPayload id es'⟩ := by
      refine hsib.imp_right ?_
      rintro ⟨next, es', h⟩
      refine ⟨next, es', ?_⟩
      rw [hold1 q (lt_of_getElem?_some h) hqid, h]
    obtain ⟨w', hrun, hlen', hs', hframe', hsib', hnone'⟩ := relinkSibling_spec w.pages.length
      (w := ⟨pages, insert w.pages.length (insert id w.dirty)⟩) hs1 hsib1
    have hlenp : pages.length = w.pages.length + 1 := by simp [pages]
    have hlenw : w'.pages.length = w.pages.length + 1 := hlen'.trans hlenp
    have hqnew : q ≠ w.pages.length ∨ q = noPage := by rcases hqlt with h | h <;> omega
    have hat : ∀ i, i ≠ q ∨ q = noPage → w'.pages[i]? = pages[i]? := fun i hi => by
      rcases hi with h | h
      · exact hframe' i h
      · rw [hnone' h]
    refine ⟨some ⟨right.headD default, w.pages.length⟩, w', ?_, ?_⟩
    · simp only [encodeLeafPayload_ok p hl hlens.1 hkl, encodeLeafPayload_ok id hrt hlens.2 hkr]
      simp only [pages] at hrun
      simp only [hrun, pure, Except.pure]
    · have hright : right.headD default = least 0 (Tree.mkLeaf w.pages.length right) := by simp [least]
      rw [hright]
      refine .two (Tree.mkLeaf id left) (Tree.mkLeaf w.pages.length right) rfl ?_
      refine ⟨by omega, hs', fun i hi hm hiq => ?_, fun hqne next es' h => ?_, ?_, ?_, ⟨?_, ?_, trivial⟩, fun _ => rfl, ?_,
        ?_⟩
      · rw [hframe' i hiq, hold1 i hi (by simpa using hm)]
      · refine hsib' hqne next es' ?_
        rw [hold1 q (lt_of_getElem?_some h) hqid]
        exact h
      · intro k hk
        rcases List.mem_cons.1 hk with rfl | hk
        · exact hl
        · obtain rfl := List.mem_singleton.1 hk
          exact hrt
      · intro k hk
        rcases List.mem_cons.1 hk with rfl | hk
        · trivial
        · obtain rfl := List.mem_singleton.1 hk
          trivial
      · exact (hat id (Or.inl hqid.symm)).trans hid1
      · exact (hat w.pages.length (hqnew.imp_left Ne.symm)).trans hnew1
      · simp [hjoin]
      · rw [newIds_eq hlenw]
        simp

/-! ## The internal case -/

theorem insertIdx_middle {α : Type} (a : α) : ∀ xs ys : List α, (xs ++ ys).insertIdx xs.length a = xs ++ a :: ys
  | [], _ => rfl
  | x :: xs, ys => by rw [List.cons_append, List.length_cons, List.insertIdx_succ_cons, insertIdx_middle a xs ys]; rfl

/-- **A split child adds one separator and one child to its parent.** -/
theorem contents_split {A B : List (Tree Entry n)} {c l r : Tree Entry n} (hroot : root n l = root n c)
    (hleast : A ≠ [] → least n l = least n c) :
    (contents n (A ++ c :: B)).separators.insertIdx A.length (least n r) = (contents n (A ++ [l, r] ++ B)).separators ∧
    (contents n (A ++ c :: B)).children.insertIdx (A.length + 1) (root n r) =
      (contents n (A ++ [l, r] ++ B)).children := by
  constructor
  · cases A with
    | nil => rfl
    | cons a A =>
      have h := insertIdx_middle (least n r) (A.map (least n) ++ [least n c]) (B.map (least n))
      rw [List.length_append, List.length_map, List.length_singleton] at h
      simp only [contents, seps, List.cons_append, List.tail_cons, List.map_append, List.map_cons, List.length_cons,
        List.append_assoc, List.nil_append, hleast (by simp)] at h ⊢
      exact h
  · have h := insertIdx_middle (root n r) (A.map (root n) ++ [root n c]) (B.map (root n))
    rw [List.length_append, List.length_map, List.length_singleton] at h
    simp only [contents, List.map_append, List.map_cons, List.append_assoc, List.cons_append, List.nil_append, hroot] at h ⊢
    exact h

/-- Trees on fewer than 2³² pages are not deep. -/
theorem Ready.depth_lt {t : Tree Entry n} (h : Ready pages n [t] p q e) : n < 33 := by
  have h1 := two_pow_le_leaves n t (h.full t List.mem_cons_self)
  have hI : ([t] : List (Tree Entry n)).flatMap (ids n) = ids n t := by simp
  have hnd := h.nodup
  have hlt := h.ids_lt
  rw [hI] at hnd hlt
  have h2 := (List.subperm_of_subset hnd (fun i hi => List.mem_range.2 (hlt i hi))).length_le
  have h3 : (leaves n t).length ≤ (ids n t).length := by simp [ids]
  rw [List.length_range, noPage] at h2
  exact (Nat.pow_lt_pow_iff_right (by decide : 1 < 2)).1 (by omega)

theorem Inserted.least_ok {before after : List (Tree Entry n)} (h : Inserted pages pages' n before after p q e)
    (hr : Ready pages n before p q e) : ∀ k ∈ after, EntryOk (least n k) := fun k hk => by
  refine lowerInsert_entryOk hr.entries_ok hr.entry_ok _ ?_
  rw [← h.entries_eq]
  exact List.mem_flatMap.2 ⟨k, hk, least_mem (h.full k hk)⟩

/-- The first entry of a tree that is not below the inserted entry stays its first. -/
theorem Inserted.least_head {c k : Tree Entry n} {rest : List (Tree Entry n)}
    (h : Inserted pages pages' n [c] (k :: rest) p q e) (hr : Ready pages n [c] p q e) (hle : least n c ≤ e) :
    least n k = least n c := by
  have hc := hr.full c List.mem_cons_self
  have hlt : least n c < e := lt_of_le_of_ne hle (fun heq => hr.not_mem (by
    simpa using heq ▸ least_mem hc))
  have hent := h.entries_eq
  simp only [List.flatMap_cons, List.flatMap_nil, List.append_nil] at hent
  have hh := congrArg List.head? hent
  rw [head?_lowerInsert_of_lt (head?_entries hc) hlt, List.head?_append,
    head?_entries (h.full k List.mem_cons_self)] at hh
  exact Option.some.inj hh

theorem length_nodePayload (kids : List (Tree Entry n)) :
    (nodePayload n kids).length = 8 + ((separators n kids).flatMap putSeparator).length := length_internalPayload _ _ _

/-- **The internal case, after the child has split.** -/
theorem insertChild_spec {w : Work} {t : Tree Entry (n + 1)} {A B : List (Tree Entry n)} {c l r : Tree Entry n}
    (hr : Ready pages (n + 1) [t] p q e) (hkids : t.node.kids = A ++ c :: B)
    (h : Inserted pages w.pages n t.node.kids (A ++ [l, r] ++ B) p q e)
    (hpage : w.pages[t.node.id]? = some ⟨.indexInternal, t.node.id, noPage, nodePayload n t.node.kids⟩)
    (hroot : root n l = root n c) (hleast : A ≠ [] → least n l = least n c) :
    ∃ split w', insertChild (contents n (A ++ c :: B)) t.node.id A.length ⟨least n r, root n r⟩ w = .ok (split, w') ∧
      Outcome pages w'.pages (n + 1) t p q e split := by
  have hdepth := hr.depth_lt
  have hok := h.least_ok hr.kids
  have hlt := lt_of_getElem?_some hpage
  have h2 : 2 ≤ (A ++ [l, r] ++ B).length := by simp; omega
  -- the old payload fits, so the new one is at most one separator longer
  have hold : (nodePayload n t.node.kids).length ≤ pagePayloadSize := (h.sized _ _ hpage).2.1
  have hsepr := putSeparator_size (r := (least n r, root n r)) (hok r (by simp))
  have hgrow : (nodePayload n (A ++ [l, r] ++ B)).length = (nodePayload n t.node.kids).length +
      (putSeparator (least n r, root n r)).length := by
    rw [hkids, length_nodePayload, length_nodePayload]
    cases A with
    | nil => simp [separators]; omega
    | cons a A =>
      simp only [separators, List.cons_append, List.tail_cons, List.map_append, List.map_cons, List.map_nil,
        List.flatMap_append, List.flatMap_cons, List.flatMap_nil, List.length_append, length_putSeparator,
        hleast (by simp), List.length_nil]
      omega
  have hcount : (A ++ [l, r] ++ B).length ≤ 2 ^ 16 := by
    have h14 := length_flatMap_bounds (fun s hs => by
      obtain ⟨k, hk, rfl⟩ := List.mem_map.1 hs
      exact putSeparator_size (hok k (List.mem_of_mem_tail hk)) : ∀ s ∈ separators n (A ++ [l, r] ++ B),
        14 ≤ (putSeparator s).length ∧ (putSeparator s).length ≤ 114)
    have hsize : pagePayloadSize = 4064 := rfl
    rw [length_separators, ← Nat.add_le_add_iff_left (n := 8), ← length_nodePayload] at h14
    omega
  obtain ⟨hseps, hchildren⟩ := contents_split (B := B) (r := r) hroot hleast
  generalize hks : A ++ [l, r] ++ B = kids at h hok h2 hgrow hcount hseps hchildren
  have hlevel : (contents n (A ++ c :: B)).level = n + 1 := rfl
  unfold insertChild
  simp only [hseps, hchildren, hlevel]
  rw [show (⟨n + 1, (contents n kids).separators, (contents n kids).children⟩ : InternalContents) = contents n kids from rfl,
    encodeInternalPayload_ok ⟨h2, by omega, hcount, hok⟩]
  simp only [bind, Except.bind]
  have hnext : noPage < 2 ^ 32 := by decide
  by_cases hfit : (nodePayload n kids).length ≤ pagePayloadSize
  · rw [if_pos hfit]
    refine ⟨none, _, rfl, .one (Tree.mkNode t.node.id kids) rfl ?_⟩
    rw [setPayload_eq hpage]
    refine h.wrap hr (by simp) (by simp [newIds]) (by simp) (h.sized.set rfl hfit (Or.inl hnext))
      (fun i _ hi => getElem?_set_other hi) (fun k hk => ?_) (fun k hk => ?_)
    · obtain rfl := List.mem_singleton.1 hk
      exact getElem?_set_same hpage
    · obtain rfl := List.mem_singleton.1 hk
      exact h2
  · rw [if_neg hfit]
    obtain ⟨hk1, hk2, -, hleft, hright⟩ := node_halves hok (Nat.lt_of_not_le hfit) (by omega)
    have hclen : (contents n kids).children.length = kids.length := by simp [contents]
    rw [hclen]
    generalize hm : kids.length / 2 = m at hk1 hk2 hleft hright ⊢
    have hmlen : m ≤ kids.length := by omega
    have hcl : (⟨n + 1, (contents n kids).separators.take (m - 1), (contents n kids).children.take m⟩ : InternalContents) =
        contents n (kids.take m) := by simp only [contents, seps_take, List.map_take]
    have hcr : (⟨n + 1, (contents n kids).separators.drop m, (contents n kids).children.drop m⟩ : InternalContents) =
        contents n (kids.drop m) := by simp only [contents, seps_drop, List.map_drop]
    have hlenl : (kids.take m).length = m := by rw [List.length_take]; omega
    have hlenr : (kids.drop m).length = kids.length - m := List.length_drop
    have hokl : SeparatorsOk n (kids.take m) :=
      ⟨by omega, by omega, by omega, fun k hk => hok k (List.mem_of_mem_take hk)⟩
    have hokr : SeparatorsOk n (kids.drop m) :=
      ⟨by omega, by omega, by omega, fun k hk => hok k (List.mem_of_mem_drop hk)⟩
    rw [throwIf_neg (by omega), hcl, hcr, encodeInternalPayload_ok hokl, encodeInternalPayload_ok hokr]
    simp only [pure, Except.pure]
    rw [setPayload_eq hpage]
    let left : Page := ⟨.indexInternal, t.node.id, noPage, nodePayload n (kids.take m)⟩
    let right : Page := ⟨.indexInternal, w.pages.length, noPage, nodePayload n (kids.drop m)⟩
    -- the promoted separator is the least entry of the right node
    have hprom : (contents n kids).separators.getD (m - 1) default =
        least (n + 1) (Tree.mkNode w.pages.length (kids.drop m)) := by
      cases hd : kids.drop m with
      | nil => rw [hd] at hlenr; simp at hlenr; omega
      | cons x xs =>
        have hx : kids[m]? = some x := by rw [← List.head?_drop, hd]; rfl
        have hxm : x ∈ kids := List.mem_of_getElem? hx
        rw [least_mkNode _ (h.full x hxm), List.getD_eq_getElem?_getD]
        simp only [contents, seps_getElem?, show m - 1 + 1 = m by omega, hx, Option.map_some, Option.getD_some]
    rw [hprom]
    refine ⟨_, _, rfl, .two (Tree.mkNode t.node.id (kids.take m)) (Tree.mkNode w.pages.length (kids.drop m)) rfl ?_⟩
    have hs1 : Sized (w.pages.set t.node.id left) := h.sized.set rfl hleft (Or.inl hnext)
    refine h.wrap hr (by simp) ?_ (by simp) (hs1.append (by simp) hright (Or.inl hnext))
      (fun i hi hne => ?_) (fun k hk => ?_) (fun k hk => ?_)
    · rw [newIds_eq (b := w.pages.set t.node.id left ++ [right]) (k := 1) (by simp)]
      simp
    · rw [getElem?_append_old (by simpa using hi), getElem?_set_other hne]
    · rcases List.mem_cons.1 hk with rfl | hk
      · exact (getElem?_append_old (by simpa using hlt)).trans (getElem?_set_same hpage)
      · obtain rfl := List.mem_singleton.1 hk
        have hnew := getElem?_append_new (w.pages.set t.node.id left) right
        rw [List.length_set] at hnew
        exact hnew
    · rcases List.mem_cons.1 hk with rfl | hk
      · exact hokl.two
      · obtain rfl := List.mem_singleton.1 hk
        exact hokr.two

/-! ## The whole descent -/

/-- What is left of the routed child lies below the entry, what is right of it does not. -/
theorem routed_bounds {A B : List (Tree Entry n)} {c : Tree Entry n} (hr : Ready pages n (A ++ c :: B) p q e)
    (hle : A ≠ [] → least n c ≤ e) (hlt : ∀ b ∈ B, e < least n b) :
    (∀ x ∈ A.flatMap (entries n), x < e) ∧ ∀ x ∈ B.flatMap (entries n), ¬ x < e := by
  have hs := hr.sorted
  have hm := hr.not_mem
  simp only [List.flatMap_append, List.flatMap_cons] at hs hm
  have hc := least_mem (hr.full c (by simp))
  obtain ⟨-, hs2, hAc⟩ := List.pairwise_append.1 hs
  obtain ⟨-, hsB, -⟩ := List.pairwise_append.1 hs2
  constructor
  · intro x hx
    have hA : A ≠ [] := by rintro rfl; cases hx
    have hxc : x ≤ e := le_trans (hAc x hx _ (List.mem_append_left _ hc)) (hle hA)
    exact lt_of_le_of_ne hxc (fun h => hm (h ▸ List.mem_append_left _ hx))
  · intro x hx hxe
    obtain ⟨b, hb, hxb⟩ := List.mem_flatMap.1 hx
    have := least_le (hr.full b (by simp [hb])) (sorted_flatMap_of_mem hsB b hb) x hxb
    exact absurd (lt_of_lt_of_le (hlt b hb) this) (not_lt.2 (le_of_lt hxe))

/-- The children of an internal page that fits can be written again. -/
theorem separatorsOk_of_page {t : Tree Entry (n + 1)} (hs : Sized pages) (hfull : Full (n + 1) t)
    (hat : InnerAt pages (n + 1) t) (hdepth : n < 33) (hentries : ∀ x ∈ entries (n + 1) t, EntryOk x) :
    SeparatorsOk n t.node.kids := by
  have hok : ∀ k ∈ t.node.kids, EntryOk (least n k) := fun k hk => by
    refine hentries _ ?_
    rw [entries_succ]
    exact List.mem_flatMap.2 ⟨k, hk, least_mem (hfull.2 k hk)⟩
  have hpay := (hs _ _ hat.1).2.1
  have h14 := length_flatMap_bounds (fun s hs => by
    obtain ⟨k, hk, rfl⟩ := List.mem_map.1 hs
    exact putSeparator_size (hok k (List.mem_of_mem_tail hk)) : ∀ s ∈ separators n t.node.kids,
      14 ≤ (putSeparator s).length ∧ (putSeparator s).length ≤ 114)
  have hsize : pagePayloadSize = 4064 := rfl
  rw [length_nodePayload] at hpay
  rw [length_separators] at h14
  exact ⟨hfull.1, by omega, by omega, hok⟩

theorem Ready.separatorsOk {t : Tree Entry (n + 1)} (hr : Ready pages (n + 1) [t] p q e) :
    SeparatorsOk n t.node.kids ∧ ∀ k ∈ t.node.kids, root n k < 2 ^ 32 := by
  have hdepth := hr.depth_lt
  have hE : ([t] : List (Tree Entry (n + 1))).flatMap (entries (n + 1)) = entries (n + 1) t := by simp
  refine ⟨separatorsOk_of_page hr.sized (hr.full t List.mem_cons_self) (hr.inner t List.mem_cons_self) (by omega)
    (hE ▸ hr.entries_ok), fun k hk => ?_⟩
  have := hr.kids.ids_lt (root n k) (List.mem_flatMap.2 ⟨k, hk, root_mem_ids n k⟩)
  unfold noPage at this
  omega

/-- **One entry into one tree**: the descent never throws, and leaves the tree with the entry, in one piece or two. -/
theorem insertIndexEntry_spec : ∀ (n : Nat) (t : Tree Entry n) (fuel p q : Nat) (w : Work), n < fuel →
    Ready w.pages n [t] p q e → ∃ split w', insertIndexEntry fuel (root n t) e w = .ok (split, w') ∧
      Outcome w.pages w'.pages n t p q e split
  | _, _, 0, _, _, _, hf, _ => by cases hf
  | 0, t, fuel + 1, p, q, w, _, hr => by
    have hpage : w.pages[t.leaf.id]? = some ⟨.indexLeaf, t.leaf.id, q, leafPayload p t.leaf.entries⟩ := hr.chain.1
    rw [insertIndexEntry, show root 0 t = t.leaf.id from rfl]
    simp only [hpage]
    exact insertLeafEntry_spec hr
  | n + 1, t, fuel + 1, p, q, w, hf, hr => by
    have hpage := (hr.inner t List.mem_cons_self).1
    obtain ⟨hsep, hroots⟩ := hr.separatorsOk
    have hkids := hr.kids
    have hne : t.node.kids ≠ [] := by
      have := hsep.two
      rintro h
      rw [h] at this
      cases this
    obtain ⟨A, c, B, hsplit, hroute, hle, hlt⟩ := route_spec (e := e) hne hkids.full hkids.sorted
    rw [hsplit] at hkids
    obtain ⟨hA, hB⟩ := routed_bounds hkids hle hlt
    obtain ⟨split, w1, hrun, hout⟩ := insertIndexEntry_spec n c fuel _ _ w (by omega) hkids.child
    have hidx : route e (contents n t.node.kids).separators = A.length := hroute.symm
    have hchild : (contents n t.node.kids).children.getD A.length noPage = root n c := by
      rw [hsplit, List.getD_eq_getElem?_getD]
      simp [contents]
    -- the node's own page is not touched below it
    have hnd := hr.nodup
    rw [show ([t] : List (Tree Entry (n + 1))).flatMap (ids (n + 1)) = ids (n + 1) t by simp,
      (ids_succ_perm t).nodup_iff, List.nodup_cons, hsplit] at hnd
    have hpage1 : ∀ {after}, Inserted w.pages w1.pages n (A ++ c :: B) after p q e →
        w1.pages[t.node.id]? = some ⟨.indexInternal, t.node.id, noPage, nodePayload n t.node.kids⟩ := fun h => by
      have hmem : t.node.id ∈ ([t] : List (Tree Entry (n + 1))).flatMap (ids (n + 1)) :=
        List.mem_flatMap.2 ⟨t, List.mem_cons_self, root_mem_ids (n + 1) t⟩
      rw [h.frame _ (lt_of_getElem?_some hpage) hnd.1 (fun heq => hr.fresh (heq ▸ hmem)), hpage]
    rw [insertIndexEntry, show root (n + 1) t = t.node.id from rfl]
    simp only [hpage, decodeInternalContents_ok hsep hroots, bind, Except.bind, hidx, hchild, hrun]
    cases hout with
    | one k hroot hins =>
      have h1 := hins.sandwich hkids hA hB
      refine ⟨none, w1, rfl, .one (Tree.mkNode t.node.id (A ++ [k] ++ B)) rfl ?_⟩
      have hpay : nodePayload n (A ++ [k] ++ B) = nodePayload n t.node.kids := by
        have hfirst : (A ++ [k] ++ B).map (root n) = t.node.kids.map (root n) := by simp [hsplit, hroot]
        have hseps : separators n (A ++ [k] ++ B) = separators n t.node.kids := by
          rw [hsplit]
          cases A with
          | nil => rfl
          | cons a A => simp [separators, hroot, hins.least_head hkids.child (hle (by simp))]
        rw [nodePayload, nodePayload, firstChild, firstChild, hfirst, hseps]
      rw [← hsplit] at h1
      refine h1.wrap hr (by simp) (by simp) (Nat.le_refl _) h1.sized (fun _ _ _ => rfl) (fun k' hk' => ?_) (fun k' hk' => ?_)
      · obtain rfl := List.mem_singleton.1 hk'
        rw [Tree.node_mkNode, hpay]
        exact hpage1 (hins.sandwich hkids hA hB)
      · obtain rfl := List.mem_singleton.1 hk'
        have := hsep.two
        rw [hsplit] at this
        simpa using this
    | two l r hroot hins =>
      have h1 := hins.sandwich hkids hA hB
      have hp1 := hpage1 h1
      rw [← hsplit] at h1
      have hchildspec := insertChild_spec hr hsplit h1 hp1 hroot (fun hA' => hins.least_head hkids.child (hle hA'))
      rw [hsplit]
      exact hchildspec

end Storage
end Sql
