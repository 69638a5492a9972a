import SqlEngine.BPlusInsert
/-!
# BPlusCopy — clearing and copying

A copy has nodes of its own (`Copied`): every leaf is linked behind the leaf that was copied last, and `last` goes on
to be the last leaf.  What the copy holds is what the source holds (`Alike`).
-/
namespace Sql
namespace BPlus
namespace BPlusTree
variable {α K : Type} [LinearOrder K] {key : α → K}

/-! ## What a copy holds -/

/-- The second tree holds what the first one does, in the same shape. -/
structure Alike (key : α → K) (source copy : BPlusTree α) : Prop where
  data_eq : copy.data = source.data
  items_eq : copy.items = source.items
  leaf_iff : copy.subset = [] ↔ source.subset = []
  good : ∀ n, Good key n source → Good key n copy

omit [LinearOrder K] in
theorem Alike.sep {s c : BPlusTree α} (h : Alike key s c) {d : α} (hd : Sep key d s) : Sep key d c := by
  rw [Sep, h.items_eq]
  exact hd

omit [LinearOrder K] in
theorem alike_sep : ∀ {data : List α} {sources copies : List (BPlusTree α)}, List.Forall₂ (Alike key) sources copies →
    List.Forall₂ (Sep key) data sources → List.Forall₂ (Sep key) data copies
  | _, _, _, .nil, .nil => List.Forall₂.nil
  | _, _, _, .cons h hs, .cons hd hds => List.Forall₂.cons (h.sep hd) (alike_sep hs hds)

omit [LinearOrder K] in
theorem alike_items : ∀ {sources copies : List (BPlusTree α)}, List.Forall₂ (Alike key) sources copies →
    copies.flatMap items = sources.flatMap items
  | _, _, .nil => rfl
  | _, _, .cons h hs => by rw [List.flatMap_cons, List.flatMap_cons, h.items_eq, alike_items hs]

omit [LinearOrder K] in
theorem alike_good {n : Nat} : ∀ {sources copies : List (BPlusTree α)}, List.Forall₂ (Alike key) sources copies →
    (∀ s ∈ sources, Good key n s ∧ s.Full) → ∀ c ∈ copies, Good key n c ∧ c.Full
  | _, _, .nil, _, c, hc => by cases hc
  | s :: _, c' :: _, .cons h hs, hg, c, hc => by
    rcases List.mem_cons.1 hc with rfl | hc
    · have hsg := hg s List.mem_cons_self
      refine ⟨h.good n hsg.1, ?_⟩
      rw [Full, h.data_eq]
      exact hsg.2
    · exact alike_good hs (fun x hx => hg x (List.mem_cons_of_mem s hx)) c hc

omit [LinearOrder K] in
/-- Copies of the children make a copy of the node. -/
theorem alike_node {sources copies : List (BPlusTree α)} (h : List.Forall₂ (Alike key) sources copies) (id id' : Nat)
    (data : List α) : Alike key ⟨id, data, sources⟩ ⟨id', data, copies⟩ := by
  cases h with
  | nil =>
    refine ⟨rfl, by rw [items_nil, items_nil], Iff.rfl, fun n hn => ?_⟩
    cases n with
    | zero => exact hn
    | succ n => exact absurd rfl hn.1
  | @cons s c ss cs hc hcs =>
    refine ⟨rfl, ?_, iff_of_false (List.cons_ne_nil _ _) (List.cons_ne_nil _ _), fun n hn => ?_⟩
    · rw [items_cons, items_cons, hc.items_eq, alike_items hcs]
    · cases n with
      | zero => cases (hn : s :: ss = [])
      | succ n => exact ⟨List.cons_ne_nil _ _, alike_sep hcs hn.2.1, alike_good (List.Forall₂.cons hc hcs) hn.2.2⟩

/-! ## The links of a copy -/

/-- **What copying some subtrees does**: all nodes are new, the leaves are linked behind `last`, and the last leaf is the
`last` of whatever is copied next. -/
structure Copied (m m' : Memory) (last last' : Option Nat) (ids leafIds : List Nat) : Prop where
  fresh_le : m.fresh ≤ m'.fresh
  count_le : ∀ j, ids.count j ≤ (taken m m').count j
  last_eq : last' = leafIds.getLast?.or last
  linked : Linked m'.next (last.toList ++ leafIds) none
  frame : ∀ j < m.fresh, last ≠ some j → m'.next j = m.next j

/-- A chain of leaves goes on behind its last leaf. -/
theorem linked_last {next : Nat → Option Nat} {is js : List Nat} {last : Nat} (h : is.getLast? = some last)
    (hi : Linked next is none) {next' : Nat → Option Nat} (hframe : ∀ j ∈ is, j ≠ last → next' j = next j)
      (hnodup : is.Nodup)
    (hj : Linked next' (last :: js) none) : Linked next' (is ++ js) none := by
  obtain ⟨init, rfl⟩ := List.getLast?_eq_some_iff.1 h
  rw [linked_append] at hi
  rw [List.append_assoc, List.singleton_append, linked_append]
  refine ⟨hi.1.congr (fun j hmem => hframe j (List.mem_append_left _ hmem) ?_), hj⟩
  rintro rfl
  exact (List.nodup_append.1 hnodup).2.2 j hmem j List.mem_cons_self rfl

theorem linked_getLast {next : Nat → Option Nat} {is : List Nat} {x : Nat} (h : Linked next is none)
    (hx : is.getLast? = some x) :
    next x = none := by
  obtain ⟨init, rfl⟩ := List.getLast?_eq_some_iff.1 hx
  exact (linked_append.1 h).2.1

mutual
theorem leaves_ne : ∀ t : BPlusTree α, t.leaves ≠ []
  | ⟨id, data, subset⟩ => by
    rw [leaves]
    by_cases h : subset = []
    · rw [if_pos h]
      exact List.cons_ne_nil _ _
    · rw [if_neg h]
      exact leavesOf_ne subset h
theorem leavesOf_ne : ∀ ts : List (BPlusTree α), ts ≠ [] → leavesOf ts ≠ []
  | [], h => absurd rfl h
  | t :: ts, _ => by
    rw [leavesOf]
    exact List.append_ne_nil_of_left_ne_nil (leaves_ne t) _
end

theorem leafIds_ne (t : BPlusTree α) : t.leafIds ≠ [] := fun h => leaves_ne t (List.map_eq_nil_iff.1 h)

/-- What copying a tree to the node at `id` does. -/
structure CopiedTo (m m' : Memory) (id : Nat) (last last' : Option Nat) (t : BPlusTree α) : Prop where
  id_eq : t.id = id
  fresh_le : m.fresh ≤ m'.fresh
  count_le : ∀ j, (t.subset.flatMap ids).count j ≤ (taken m m').count j
  last_eq : last' = t.leafIds.getLast?.or last
  linked : Linked m'.next (last.toList ++ t.leafIds) none
  next : t.subset ≠ [] → m'.next id = none
  frame : ∀ j < m.fresh, j ≠ id → last ≠ some j → m'.next j = m.next j

theorem CopiedTo.mem {m m' : Memory} {id : Nat} {last last' : Option Nat} {t : BPlusTree α}
    (h : CopiedTo m m' id last last' t)
    {j : Nat} (hj : j ∈ t.subset.flatMap ids) : m.fresh ≤ j ∧ j < m'.fresh :=
  mem_taken.1 (List.count_pos_iff.1 ((List.count_pos_iff.2 hj).trans_le (h.count_le j)))

theorem CopiedTo.allocated {m m' : Memory} {id : Nat} {last last' : Option Nat} {t : BPlusTree α}
    (h : CopiedTo m m' id last last' t) (hid : id < m.fresh) : Allocated m' t.ids := by
  rw [ids_eq, h.id_eq]
  refine ⟨List.nodup_cons.2 ⟨fun hmem => absurd (h.mem hmem).1 (Nat.not_le.2 hid), ?_⟩, fun j hj => ?_⟩
  · rw [List.nodup_iff_count_le_one]
    exact fun j => (h.count_le j).trans (List.nodup_iff_count_le_one.1 List.nodup_range' j)
  · rcases List.mem_cons.1 hj with rfl | hj
    · exact hid.trans_le h.fresh_le
    · exact (h.mem hj).2

/-- The first leaf. -/
theorem copiedTo_first (m : Memory) (id : Nat) (data : List α) :
    CopiedTo m (m.setNext id none) id none (some id) ⟨id, data, []⟩ := by
  refine ⟨rfl, le_refl _, fun j => Nat.zero_le _, by simp, ?_, fun h => absurd rfl h, fun j hj hne _ => ?_⟩
  · simp [Linked, Memory.setNext]
  · simp [Memory.setNext, hne]

/-- A leaf is linked behind the last one. -/
theorem copiedTo_behind (m : Memory) {id l : Nat} (data : List α) (hl : l ≠ id) :
    CopiedTo m ((m.setNext id none).setNext l (some id)) id (some l) (some id) ⟨id, data, []⟩ := by
  refine ⟨rfl, le_refl _, fun j => Nat.zero_le _, by simp, ?_, fun h => absurd rfl h, fun j hj hne hjl => ?_⟩
  · simp [Linked, Memory.setNext, hl.symm]
  · have hjl' : j ≠ l := fun h => hjl (h ▸ rfl)
    simp [Memory.setNext, hne, hjl']

omit [LinearOrder K] in
mutual
/-- **A copy** is a tree of its own that holds what the source holds. -/
theorem copyTree_spec : ∀ (source : BPlusTree α) (id : Nat) (last : Option Nat) (m : Memory), id < m.fresh →
    (∀ l, last = some l → l < m.fresh ∧ l ≠ id ∧ m.next l = none) → ∀ {t last' m'},
      copyTree source id last m = (t, last', m') →
      Alike key source t ∧ CopiedTo m m' id last last' t
  | ⟨sid, data, subset⟩, id, last, m, hid, hlast, t, last', m', hcopy => by
    rcases hsubset : copySubset subset last (m.setNext id none) with ⟨copies, last1, m1⟩
    have hlast0 : ∀ l, last = some l → l < m.fresh ∧ (m.setNext id none).next l = none := by
      intro l hl
      obtain ⟨h1, h2, h3⟩ := hlast l hl
      exact ⟨h1, by simpa [Memory.setNext, h2] using h3⟩
    obtain ⟨halike, hcopied⟩ := copySubset_spec subset last (m.setNext id none) hlast0 hsubset
    rw [copyTree, hsubset] at hcopy
    by_cases hleaf : subset = []
    · subst hleaf
      rw [copySubset] at hsubset
      injection hsubset with h1 hsubset
      injection hsubset with h2 h3
      subst h1 h2 h3
      simp only [if_true] at hcopy
      injection hcopy with h1 hcopy
      injection hcopy with h2 h3
      subst h1 h2 h3
      refine ⟨alike_node halike sid id data, ?_⟩
      cases last with
      | none => exact copiedTo_first m id data
      | some l => exact copiedTo_behind m data (hlast l rfl).2.1
    · simp only [if_neg hleaf] at hcopy
      injection hcopy with h1 hcopy
      injection hcopy with h2 h3
      subst h1 h2 h3
      have hne : copies ≠ [] := by
        rintro rfl
        cases halike
        exact hleaf rfl
      have hleafIds : (⟨id, data, copies⟩ : BPlusTree α).leafIds = copies.flatMap leafIds := leafIds_node hne
      refine ⟨alike_node halike sid id data, rfl, hcopied.fresh_le, hcopied.count_le, hleafIds ▸ hcopied.last_eq,
        hleafIds ▸ hcopied.linked, fun _ => ?_, fun j hj hne hl => ?_⟩
      · rw [hcopied.frame id hid (fun h => (hlast id h).2.1 rfl)]
        simp [Memory.setNext]
      · rw [hcopied.frame j hj hl]
        simp [Memory.setNext, hne]
theorem copySubset_spec : ∀ (sources : List (BPlusTree α)) (last : Option Nat) (m : Memory),
    (∀ l, last = some l → l < m.fresh ∧ m.next l = none) → ∀ {ts last' m'}, copySubset sources last m = (ts, last', m') →
      List.Forall₂ (Alike key) sources ts ∧ Copied m m' last last' (ts.flatMap ids) (ts.flatMap leafIds)
  | [], last, m, hlast, ts, last', m', hcopy => by
    rw [copySubset] at hcopy
    injection hcopy with h1 hcopy
    injection hcopy with h2 h3
    subst h1 h2 h3
    refine ⟨List.Forall₂.nil, le_refl _, fun j => Nat.zero_le _, rfl, ?_, fun _ _ _ => rfl⟩
    cases last with
    | none => exact trivial
    | some l => exact ⟨(hlast l rfl).2, trivial⟩
  | source :: sources, last, m, hlast, ts, last', m', hcopy => by
    rcases hfirst : copyTree source m.fresh last m.new.2 with ⟨c, last1, m1⟩
    rcases hrest : copySubset sources last1 m1 with ⟨cs, last2, m2⟩
    have hnew : ∀ j < m.fresh, m.new.2.next j = m.next j := fun j hj => by simp [Memory.new, hj.ne]
    obtain ⟨halike, hc⟩ := copyTree_spec source m.fresh last m.new.2 (Nat.lt_succ_self _)
      (fun l hl => ⟨(hlast l hl).1.trans (Nat.lt_succ_self _), (hlast l hl).1.ne,
        (hnew l (hlast l hl).1).trans (hlast l hl).2⟩)
      hfirst
    -- the last leaf of the first copy
    obtain ⟨l1, hl1⟩ := Option.ne_none_iff_exists'.1 (fun h => leafIds_ne c (List.getLast?_eq_none_iff.1 h))
    have hlast1 : last1 = some l1 := by rw [hc.last_eq, hl1]; rfl
    have hids : ∀ j ∈ c.ids, m.fresh ≤ j ∧ j < m1.fresh := by
      intro j hj
      rw [ids_eq, hc.id_eq] at hj
      rcases List.mem_cons.1 hj with rfl | hj
      · exact ⟨le_refl _, hc.fresh_le⟩
      · exact ⟨(Nat.le_succ _).trans (hc.mem hj).1, (hc.mem hj).2⟩
    have hl1mem : l1 ∈ c.leafIds := List.mem_of_getLast? hl1
    have hl1ids := hids l1 ((leafIds_sublist c).subset hl1mem)
    have hchain : (last.toList ++ c.leafIds).getLast? = some l1 := by rw [List.getLast?_append, hl1]; rfl
    obtain ⟨hrestAlike, hcs⟩ := copySubset_spec sources last1 m1 (fun l hl => by
      obtain rfl : l1 = l := Option.some.inj (hlast1.symm.trans hl)
      exact ⟨hl1ids.2, linked_getLast hc.linked hchain⟩) hrest
    have hstep : copySubset (source :: sources) last m = (c :: cs, last2, m2) := by
      rw [copySubset, show m.new = (m.fresh, m.new.2) from rfl]
      simp only [hfirst, hrest]
    rw [hstep] at hcopy
    injection hcopy with h1 hcopy
    injection hcopy with h2 h3
    subst h1 h2 h3
    have hfresh : m.fresh ≤ m1.fresh := (Nat.le_succ _).trans hc.fresh_le
    refine ⟨List.Forall₂.cons halike hrestAlike, hfresh.trans hcs.fresh_le, fun j => ?_, ?_, ?_, fun j hj hne => ?_⟩
    · have hone : taken m m.new.2 = [m.fresh] := by simp [taken, Memory.new]
      have h1 := hc.count_le j
      have h2 := hcs.count_le j
      have h3 := count_taken hfresh hcs.fresh_le j
      have h4 := count_taken (Nat.le_succ _ : m.fresh ≤ m.new.2.fresh) hc.fresh_le j
      rw [hone] at h4
      rw [List.flatMap_cons, List.count_append, ids_eq, hc.id_eq, ← List.singleton_append, List.count_append]
      omega
    · rw [hcs.last_eq, hc.last_eq, List.flatMap_cons, List.getLast?_append, Option.or_assoc]
    · rw [List.flatMap_cons, ← List.append_assoc]
      have hlinked := hcs.linked
      rw [hlast1] at hlinked
      refine linked_last hchain hc.linked (fun j hj hne => hcs.frame j ?_
        (fun h => hne (Option.some.inj (h.symm.trans hlast1))))
        ?_ hlinked
      · rcases List.mem_append.1 hj with hj | hj
        · exact (hlast j (Option.mem_toList.1 hj)).1.trans_le hfresh
        · exact (hids j ((leafIds_sublist c).subset hj)).2
      · refine List.nodup_append.2 ⟨?_, ?_, fun a ha b hb => ?_⟩
        · cases last with
          | none => exact List.nodup_nil
          | some l => exact List.nodup_singleton l
        · exact (hc.allocated (Nat.lt_succ_self _)).nodup.sublist (leafIds_sublist c)
        · have h1 := (hlast a (Option.mem_toList.1 ha)).1
          have h2 := (hids b ((leafIds_sublist c).subset hb)).1
          exact (h1.trans_le h2).ne
    · rw [hcs.frame j (hj.trans_le hfresh) (fun h => absurd (Option.some.inj (hlast1.symm.trans h) ▸ hl1ids.1)
        (Nat.not_le.2 hj)),
        hc.frame j (hj.trans (Nat.lt_succ_self _)) hj.ne hne, hnew j hj]
end

/-! ## Whole trees -/

/-- **A copy of a whole tree**: it is as good as the source, and has no node of another tree. -/
theorem copy_spec {source : BPlusTree α} {id : Nat} {m m₀ : Memory} (h : Rooted key m₀ source) (hid : id < m.fresh)
    {t : BPlusTree α} {last : Option Nat} {m' : Memory} (hcopy : copyTree source id none m = (t, last, m')) :
    Rooted key m' t ∧ Kept m m' [id] t.ids ∧ t.items = source.items := by
  obtain ⟨halike, hc⟩ : Alike key source t ∧ CopiedTo m m' id none last t :=
    copyTree_spec source id none m hid (fun l hl => by cases hl) hcopy
  obtain ⟨n, hgood⟩ := h.shape
  refine ⟨⟨⟨n, halike.good n hgood⟩, ?_, fun hne => ?_, ?_, hc.linked, ?_, hc.allocated hid⟩, ⟨hc.fresh_le, fun j hj => ?_,
    fun j hj hn => ?_⟩, halike.items_eq⟩
  · rw [halike.data_eq]
    exact h.le
  · rw [halike.data_eq]
    exact h.pos (fun hs => hne (halike.leaf_iff.2 hs))
  · rw [halike.items_eq]
    exact h.sorted
  · by_cases hleaf : t.subset = []
    · have hlinked := hc.linked
      rw [leafIds_leaf hleaf] at hlinked
      exact hlinked.1
    · rw [hc.id_eq]
      exact hc.next hleaf
  · rw [ids_eq, hc.id_eq] at hj
    rcases List.mem_cons.1 hj with rfl | hj
    · exact Or.inl List.mem_cons_self
    · exact Or.inr (hc.mem hj).1
  · exact hc.frame j hj (fun heq => hn (heq ▸ List.mem_cons_self)) (by simp)

/-- A new or cleared tree. -/
theorem rooted_empty {m : Memory} {id : Nat} (hid : id < m.fresh) (hnext : m.next id = none) :
    Rooted key m (⟨id, [], []⟩ : BPlusTree α) where
  shape := ⟨0, rfl⟩
  le := Nat.zero_le _
  pos h := absurd rfl h
  sorted := List.Pairwise.nil
  linked := ⟨hnext, trivial⟩
  next := hnext
  allocated := ⟨by simp, fun j hj => by rw [List.mem_singleton.1 hj]; exact hid⟩

theorem clear_spec {m : Memory} {t : BPlusTree α} (h : Rooted key m t) :
    Rooted key (t.clearTree m).2 (t.clearTree m).1 ∧ Kept m (t.clearTree m).2 t.ids [t.id] := by
  have hmem : t.id ∈ t.ids := by rw [ids_eq]; exact List.mem_cons_self
  refine ⟨rooted_empty (h.allocated.lt _ hmem) (by simp [clearTree, Memory.setNext]), le_refl _,
    fun j hj => Or.inl (List.mem_singleton.1 hj ▸ hmem), fun j hj hn => ?_⟩
  have hne : j ≠ t.id := fun heq => hn (heq ▸ hmem)
  simp [clearTree, Memory.setNext, hne]

end BPlusTree
end BPlus
end Sql
