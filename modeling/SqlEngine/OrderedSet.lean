import SqlEngine.Forest
import Mathlib.Data.Finset.Sort
import Mathlib.Order.Bounds.Basic
/-!
# OrderedSet — the B+ tree is an ordered set

The trees of a run against finite sets that are changed by the same operations.  `OrderedSet` says what is to be seen of a tree:
its shape, its links, what an iteration visits and what the queries answer.
-/
namespace Sql
namespace BPlus

open BPlusTree

inductive Op (α : Type)
  | create
  | insert (i : Nat) (entry : α)
  | erase (i : Nat) (target : α)
  | clearTree (i : Nat)
  | copy (source : Nat)
  | assign (i source : Nat)

namespace Forest
variable {α : Type} [Inhabited α] [LinearOrder α]

/-- One operation and its answer; the trees are numbered in the order of their construction. -/
def step (f : Forest α) : Op α → Option (Option Bool × Forest α)
  | .create => some (none, f.construct)
  | .insert i entry => do
    let t ← f.trees[i]?
    let (ans, t, m) := t.insert (fun x => x) entry f.memory
    pure (some ans, ⟨m, f.trees.set i t⟩)
  | .erase i target => do
    let t ← f.trees[i]?
    let (ans, t, m) := t.erase (fun x => x) target f.memory
    pure (some ans, ⟨m, f.trees.set i t⟩)
  | .clearTree i => do
    let t ← f.trees[i]?
    let (t, m) := t.clearTree f.memory
    pure (none, ⟨m, f.trees.set i t⟩)
  | .copy source => do
    let f ← f.copy source
    pure (none, f)
  | .assign i source => do
    let f ← f.assign i source
    pure (none, f)

def run (f : Forest α) : List (Op α) → Option (List (Option Bool) × Forest α)
  | [] => some ([], f)
  | op :: ops => do
    let (ans, f) ← f.step op
    let (answers, f) ← run f ops
    pure (ans :: answers, f)

end Forest

/-! ## The sets -/

namespace Sets
variable {α : Type} [LinearOrder α]

/-- What the operations are on sets. -/
def step (sets : List (Finset α)) : Op α → Option (Option Bool × List (Finset α))
  | .create => some (none, sets ++ [∅])
  | .insert i entry => do
    let s ← sets[i]?
    pure (some (decide (entry ∉ s)), sets.set i (insert entry s))
  | .erase i target => do
    let s ← sets[i]?
    pure (some (decide (target ∈ s)), sets.set i (s.erase target))
  | .clearTree i => do
    let _ ← sets[i]?
    pure (none, sets.set i ∅)
  | .copy source => do
    let s ← sets[source]?
    pure (none, sets ++ [s])
  | .assign i source => do
    let _ ← sets[i]?
    let s ← sets[source]?
    pure (none, sets.set i s)

def run (sets : List (Finset α)) : List (Op α) → Option (List (Option Bool) × List (Finset α))
  | [] => some ([], sets)
  | op :: ops => do
    let (ans, sets) ← step sets op
    let (answers, sets) ← run sets ops
    pure (ans :: answers, sets)

end Sets

/-! ## What is to be seen of a tree -/

section Seen
variable {α : Type} [Inhabited α] [LinearOrder α]

/-- All leaves are at the same depth. -/
def Depth : Nat → BPlusTree α → Prop
  | 0, t => t.subset = []
  | n + 1, t => t.subset ≠ [] ∧ ∀ c ∈ t.subset, Depth n c

/-- **The tree is the ordered set**, to whoever looks at its nodes, follows its links, iterates or asks. -/
structure OrderedSet (f : Forest α) (t : BPlusTree α) (s : Finset α) : Prop where
  depth : ∃ n, Depth n t
  items_le : ∀ u ∈ t.nodes, u.data.length ≤ maximum
  items_ge : ∀ u ∈ t.subset.flatMap nodes, minimum ≤ u.data.length
  children : ∀ u ∈ t.nodes, u.subset ≠ [] → u.subset.length = u.data.length + 1
  separators : ∀ u ∈ t.nodes, ∀ i d c, u.data[i]? = some d → u.subset[i + 1]? = some c → IsLeast {x | x ∈ c.items} d
  links : ∀ fuel ≥ t.leafIds.length, f.follow fuel (some t.getSmallestNode.id) = some t.leafIds
  iteration : ∀ fuel > s.card, f.visitLoop fuel (Forest.begin t) = some s.sort
  size : ∀ fuel > s.card, f.size fuel t = some s.card
  contains : ∀ x, t.contains (fun x => x) x = decide (x ∈ s)
  find : ∀ x, f.Points (t.find (fun x => x) x) (if x ∈ s then some x else none)
  lowerBound : ∀ fuel > s.card, ∀ x, ∃ it, Forest.lowerBound (fun x => x) f fuel t x = some it ∧
    f.Points it (s.sort.find? (fun y => x ≤ y))
  upperBound : ∀ fuel > s.card, ∀ x, ∃ it, Forest.upperBound (fun x => x) f fuel t x = some it ∧
    f.Points it (s.sort.find? (fun y => x < y))

omit [Inhabited α] in
theorem sort_of_sorted {items : List α} {s : Finset α} (h : Sorted (fun x => x) items) (hm : ∀ x, x ∈ items ↔ x ∈ s) :
    items = s.sort := by
  have hs : items.toFinset = s := by
    ext x
    rw [List.mem_toFinset, hm]
  rw [← hs]
  exact ((List.toFinset_sort (r := (· ≤ ·)) (h.imp ne_of_lt)).2 (h.imp le_of_lt)).symm

omit [Inhabited α] in
theorem sorted_sort (s : Finset α) : Sorted (fun x => x) s.sort := by
  refine List.Pairwise.imp₂ (fun a b hle hne => lt_of_le_of_ne hle hne) (s.pairwise_sort (· ≤ ·)) (s.sort_nodup (· ≤ ·))

omit [Inhabited α] in
theorem mem_insertSorted_iff {entry x : α} {items : List α} (hs : Sorted (fun x => x) items) :
    x ∈ insertSorted (fun x => x) entry items ↔ x = entry ∨ x ∈ items := by
  refine ⟨mem_insertSorted, fun h => ?_⟩
  obtain ⟨left, right, rfl, -, hl, ⟨-, hr⟩ | ⟨-, y, rest, rfl, hy, hr⟩⟩ := firstGe_search hs entry
  · rw [insertSorted_absent hl hr]
    simp only [List.mem_append, List.mem_cons] at h ⊢
    tauto
  · have hy : y = entry := hy
    rw [insertSorted_holds hs ⟨y, by simp, hy⟩]
    rcases h with rfl | h
    · exact List.mem_append_right _ (hy ▸ List.mem_cons_self)
    · exact h

omit [Inhabited α] in
/-- An insertion into the sorted list is one into the set. -/
theorem insertSorted_sort (entry : α) (s : Finset α) : insertSorted (fun x => x) entry s.sort = (insert entry s).sort := by
  refine sort_of_sorted (sorted_sort s).insert (fun x => ?_)
  rw [mem_insertSorted_iff (sorted_sort s), Finset.mem_sort, Finset.mem_insert]

omit [Inhabited α] in
theorem eraseSorted_sort (target : α) (s : Finset α) : eraseSorted (fun x => x) target s.sort = (s.erase target).sort := by
  refine sort_of_sorted (sorted_sort s).erase (fun x => ?_)
  rw [eraseSorted, List.mem_filter, Finset.mem_sort, Finset.mem_erase]
  simp [and_comm]

omit [Inhabited α] in
theorem holds_sort (x : α) (s : Finset α) : Holds (fun x => x) x s.sort ↔ x ∈ s := by
  constructor
  · rintro ⟨y, hy, rfl⟩
    exact (Finset.mem_sort _).1 hy
  · exact fun h => ⟨x, (Finset.mem_sort _).2 h, rfl⟩

/-! ## Every step keeps the sets -/

/-- What a tree of a run holds. -/
def HoldsSet (t : BPlusTree α) (s : Finset α) : Prop := t.items = s.sort

theorem step_sets {f f' : Forest α} {sets : List (Finset α)} (h : f.Stands (fun x => x) HoldsSet sets) {op : Op α}
    {ans : Option Bool} (hstep : f.step op = some (ans, f')) :
    ∃ sets', Sets.step sets op = some (ans, sets') ∧ f'.Stands (fun x => x) HoldsSet sets' := by
  cases op with
  | create =>
    obtain ⟨rfl, rfl⟩ := Prod.mk.inj (Option.some.inj hstep)
    refine ⟨_, rfl, h.construct ?_⟩
    rw [HoldsSet, items_nil, Finset.sort_empty]
  | insert i entry =>
    obtain ⟨t, ht, hstep⟩ := Option.bind_eq_some_iff.1 hstep
    rcases hins : t.insert (fun x => x) entry f.memory with ⟨b, t', m'⟩
    rw [hins] at hstep
    obtain ⟨rfl, rfl⟩ := Prod.mk.inj (Option.some.inj hstep)
    obtain ⟨s, hs, hroot, hitems⟩ := h.get ht
    obtain ⟨hroot', hkept, hitems', hans⟩ := insert_spec hroot entry hins
    rw [hitems, holds_sort] at hans
    refine ⟨sets.set i (insert entry s), ?_, h.set ht hroot' ?_ hkept⟩
    · have hb : decide (entry ∉ s) = b := Bool.eq_iff_iff.2 (decide_eq_true_iff.trans hans.symm)
      simp only [Sets.step, hs, Option.bind_eq_bind, Option.bind_some, hb]
      rfl
    · rw [HoldsSet, hitems', hitems, insertSorted_sort]
  | erase i target =>
    obtain ⟨t, ht, hstep⟩ := Option.bind_eq_some_iff.1 hstep
    rcases herase : t.erase (fun x => x) target f.memory with ⟨b, t', m'⟩
    rw [herase] at hstep
    obtain ⟨rfl, rfl⟩ := Prod.mk.inj (Option.some.inj hstep)
    obtain ⟨s, hs, hroot, hitems⟩ := h.get ht
    obtain ⟨hroot', hkept, hitems', hans⟩ := erase_spec hroot target herase
    rw [hitems, holds_sort] at hans
    refine ⟨sets.set i (s.erase target), ?_, h.set ht hroot' ?_ hkept⟩
    · have hb : decide (target ∈ s) = b := Bool.eq_iff_iff.2 (decide_eq_true_iff.trans hans.symm)
      simp only [Sets.step, hs, Option.bind_eq_bind, Option.bind_some, hb]
      rfl
    · rw [HoldsSet, hitems', hitems, eraseSorted_sort]
  | clearTree i =>
    obtain ⟨t, ht, hstep⟩ := Option.bind_eq_some_iff.1 hstep
    obtain ⟨rfl, rfl⟩ := Prod.mk.inj (Option.some.inj hstep)
    obtain ⟨s, hs, hroot, hitems⟩ := h.get ht
    obtain ⟨hroot', hkept⟩ := clear_spec hroot
    refine ⟨sets.set i ∅, ?_, h.set ht hroot' ?_ hkept⟩
    · simp only [Sets.step, hs, Option.bind_eq_bind, Option.bind_some]
      rfl
    · rw [HoldsSet, Finset.sort_empty]
      exact items_nil t.id []
  | copy source =>
    obtain ⟨f1, hcopy, hstep⟩ := Option.bind_eq_some_iff.1 hstep
    obtain ⟨rfl, rfl⟩ := Prod.mk.inj (Option.some.inj hstep)
    obtain ⟨s, hs, hstands⟩ := h.copy (fun heq hitems => heq.trans hitems) hcopy
    refine ⟨sets ++ [s], ?_, hstands⟩
    simp only [Sets.step, hs, Option.bind_eq_bind, Option.bind_some]
    rfl
  | assign i source =>
    obtain ⟨f1, hassign, hstep⟩ := Option.bind_eq_some_iff.1 hstep
    obtain ⟨rfl, rfl⟩ := Prod.mk.inj (Option.some.inj hstep)
    obtain ⟨s, s', hs, hs', hstands⟩ := h.assign (fun heq hitems => heq.trans hitems) hassign
    refine ⟨sets.set i s', ?_, hstands⟩
    simp only [Sets.step, hs, hs', Option.bind_eq_bind, Option.bind_some]
    rfl

/-- A step that cannot be taken with trees cannot be taken with sets. -/
theorem step_none {f : Forest α} {sets : List (Finset α)} (h : f.Stands (fun x => x) HoldsSet sets) {op : Op α}
    (hstep : f.step op = none) : Sets.step sets op = none := by
  cases op with
  | create => cases hstep
  | insert i entry =>
    cases ht : f.trees[i]? with
    | none => simp [Sets.step, h.none ht]
    | some t => simp [Forest.step, ht] at hstep
  | erase i target =>
    cases ht : f.trees[i]? with
    | none => simp [Sets.step, h.none ht]
    | some t => simp [Forest.step, ht] at hstep
  | clearTree i =>
    cases ht : f.trees[i]? with
    | none => simp [Sets.step, h.none ht]
    | some t => simp [Forest.step, ht] at hstep
  | copy source =>
    cases hcopy : f.copy source with
    | none => simp [Sets.step, h.copy_none hcopy]
    | some f1 => simp [Forest.step, hcopy] at hstep
  | assign i source =>
    cases hassign : f.assign i source with
    | none =>
      rcases h.assign_none hassign with hi | hs
      · simp [Sets.step, hi]
      · simp [Sets.step, hs]
    | some f1 => simp [Forest.step, hassign] at hstep

theorem run_sets : ∀ {ops : List (Op α)} {f f' : Forest α} {sets : List (Finset α)} {answers : List (Option Bool)},
    f.Stands (fun x => x) HoldsSet sets → f.run ops = some (answers, f') →
      ∃ sets', Sets.run sets ops = some (answers, sets') ∧ f'.Stands (fun x => x) HoldsSet sets'
  | [], f, f', sets, answers, h, hrun => by
    obtain ⟨rfl, rfl⟩ := Prod.mk.inj (Option.some.inj hrun)
    exact ⟨sets, rfl, h⟩
  | op :: ops, f, f', sets, answers, h, hrun => by
    obtain ⟨⟨ans, f1⟩, hstep, hrun⟩ := Option.bind_eq_some_iff.1 hrun
    obtain ⟨⟨answers', f2⟩, hrest, hrun⟩ := Option.bind_eq_some_iff.1 hrun
    obtain ⟨rfl, rfl⟩ := Prod.mk.inj (Option.some.inj hrun)
    obtain ⟨sets1, hsets1, h1⟩ := step_sets h hstep
    obtain ⟨sets2, hsets2, h2⟩ := run_sets h1 hrest
    refine ⟨sets2, ?_, h2⟩
    simp only [Sets.run, hsets1, hsets2, Option.bind_eq_bind, Option.bind_some]
    rfl

/-! ## What a good tree looks like -/

omit [Inhabited α] [LinearOrder α] in
theorem depth_of_good {K : Type} {key : α → K} : ∀ {n : Nat} {t : BPlusTree α}, Good key n t → Depth n t
  | 0, _, h => h
  | _ + 1, _, h => ⟨h.1, fun c hc => depth_of_good (h.2.2 c hc).1⟩

omit [Inhabited α] in
/-- The nodes of a good tree are good. -/
theorem good_nodes : ∀ {n : Nat} {t : BPlusTree α}, Good (fun x => x) n t → Sorted (fun x => x) t.items → ∀ u ∈ t.nodes,
    (∃ k, Good (fun x => x) k u) ∧ Sorted (fun x => x) u.items ∧ (u = t ∨ u.Full)
  | 0, t, h, hs, u, hu => by
    rw [nodes_eq, show t.subset = [] from h] at hu
    obtain rfl := List.mem_singleton.1 hu
    exact ⟨⟨0, h⟩, hs, Or.inl rfl⟩
  | n + 1, t, h, hs, u, hu => by
    rw [nodes_eq] at hu
    rcases List.mem_cons.1 hu with rfl | hu
    · exact ⟨⟨n + 1, h⟩, hs, Or.inl rfl⟩
    · obtain ⟨c, hc, hu⟩ := List.mem_flatMap.1 hu
      have hitems : c.items.Sublist t.items := by
        obtain ⟨A, B, hsplit⟩ := List.append_of_mem hc
        rw [items_node h.1, hsplit, List.flatMap_append, List.flatMap_cons]
        exact (List.sublist_append_left _ _).trans (List.sublist_append_right _ _)
      obtain ⟨hgood, hsorted, hfull⟩ := good_nodes (h.2.2 c hc).1 (List.Pairwise.sublist hitems hs) u hu
      exact ⟨hgood, hsorted, Or.inr (hfull.elim (fun heq => heq ▸ (h.2.2 c hc).2) (fun hf => hf))⟩

omit [Inhabited α] in
theorem good_separators {n : Nat} {t : BPlusTree α} (h : Good (fun x => x) n t) (hs : Sorted (fun x => x) t.items) {i : Nat}
    {d : α}
    {c : BPlusTree α} (hd : t.data[i]? = some d) (hc : t.subset[i + 1]? = some c) : IsLeast {x | x ∈ c.items} d := by
  cases n with
  | zero =>
    rw [show t.subset = [] from h] at hc
    cases hc
  | succ n =>
    have hmem := List.mem_of_getElem? hc
    have hsep : Sep (fun x => x) d c := by
      rw [← List.getElem?_tail] at hc
      obtain ⟨hi, rfl⟩ := List.getElem?_eq_some_iff.1 hd
      obtain ⟨hi', rfl⟩ := List.getElem?_eq_some_iff.1 hc
      exact (List.forall₂_iff_get.1 h.2.1).2 i hi hi'
    have hsorted : Sorted (fun x => x) c.items := (good_nodes h hs c (by
      rw [nodes_eq]
      exact List.mem_cons_of_mem t (List.mem_flatMap.2 ⟨c, hmem, by rw [nodes_eq]; exact List.mem_cons_self⟩))).2.1
    obtain ⟨x, hx, hxd⟩ := sep_mem (List.Forall₂.cons hsep List.Forall₂.nil) (List.mem_singleton.2 rfl)
    rw [List.flatMap_singleton] at hx
    exact ⟨hxd ▸ hx, sep_le hsep hsorted⟩

/-- **A standing tree is seen as its set.** -/
theorem orderedSet_of {f : Forest α} {sets : List (Finset α)} (h : f.Stands (fun x => x) HoldsSet sets) {t : BPlusTree α}
    {s : Finset α} (ht : t ∈ f.trees) (hroot : Rooted (fun x => x) f.memory t) (hitems : HoldsSet t s) :
      OrderedSet f t s := by
  obtain ⟨n, hgood⟩ := hroot.shape
  have hnodes := good_nodes hgood hroot.sorted
  have hleafNode : ∀ l ∈ t.leaves, f.node l.id = some l := fun l hl => f.node_eq h.nodup ht ((leaves_sublist t).subset hl)
  obtain ⟨its, hlen, hbegin, hwalk⟩ := f.walk_tree hroot hleafNode
  rw [hitems] at hwalk hlen
  rw [Finset.length_sort] at hlen
  refine ⟨⟨n, depth_of_good hgood⟩, fun u hu => ?_, fun u hu => ?_, fun u hu hne => ?_, fun u hu i d c => ?_,
    fun fuel hfuel => ?_,
    fun fuel hfuel => ?_, fun fuel hfuel => ?_, fun x => ?_, fun x => ?_, fun fuel hfuel x => ?_, fun fuel hfuel x => ?_⟩
  · rcases (hnodes u hu).2.2 with rfl | hfull
    · exact hroot.le
    · exact hfull.2
  · obtain ⟨c, hc, hu⟩ := List.mem_flatMap.1 hu
    cases n with
    | zero =>
      rw [show t.subset = [] from hgood] at hc
      cases hc
    | succ n =>
      have hsorted : Sorted (fun x => x) c.items := (hnodes c (by
        rw [nodes_eq]
        exact List.mem_cons_of_mem t (List.mem_flatMap.2 ⟨c, hc, by rw [nodes_eq]; exact List.mem_cons_self⟩))).2.1
      rcases (good_nodes (hgood.2.2 c hc).1 hsorted u hu).2.2 with rfl | hfull
      · exact (hgood.2.2 u hc).2.1
      · exact hfull.1
  · obtain ⟨⟨k, hk⟩, -, -⟩ := hnodes u hu
    cases k with
    | zero => exact absurd hk hne
    | succ k => exact hk.length
  · obtain ⟨⟨k, hk⟩, hs, -⟩ := hnodes u hu
    exact good_separators hk hs
  · rw [← head_leafIds]
    exact f.follow_linked fuel hroot.linked hfuel
  · rw [hbegin]
    exact f.visitLoop_walk fuel hwalk (hlen ▸ hfuel)
  · by_cases hempty : t.data.length = 0 ∧ t.isLeaf
    · have hnil : t.items = [] := by rw [items_leaf hempty.2, List.length_eq_zero_iff.1 hempty.1]
      rw [Forest.size, if_pos hempty, ← Finset.length_sort (· ≤ ·), ← hitems, hnil]
      rfl
    · rw [Forest.size, if_neg hempty, hbegin, f.sizeLoop_walk fuel 0 hwalk (hlen ▸ hfuel), Finset.length_sort, Nat.zero_add]
  · have hc := contains_iff x n t hgood hroot.sorted
    rw [hitems, holds_sort] at hc
    exact Bool.eq_iff_iff.2 (hc.trans decide_eq_true_iff.symm)
  · rcases Forest.find_spec x n t hgood hroot.sorted with ⟨hend, hnone⟩ | ⟨l, hl, i, y, hfind, hy, hsome⟩
    · rw [hitems, List.find?_eq_none] at hnone
      rw [if_neg (fun hx => hnone x ((Finset.mem_sort _).2 hx) (decide_eq_true rfl))]
      exact hend
    · rw [hitems] at hsome
      have hmem := (Finset.mem_sort _).1 (List.mem_of_find?_eq_some hsome)
      obtain rfl : y = x := by simpa using List.find?_some hsome
      rw [if_pos hmem, hfind]
      exact ⟨by simp [Iterator.end], by simp [Forest.deref, hleafNode l hl, hy]⟩
  · obtain ⟨it, hit, hpoints⟩ := f.searchLoop_walk (fun y => ¬ y < x) fuel hwalk (hlen ▸ hfuel)
    refine ⟨it, (congrArg _ hbegin).trans hit, ?_⟩
    simpa only [not_lt] using hpoints
  · obtain ⟨it, hit, hpoints⟩ := f.searchLoop_walk (fun y => x < y) fuel hwalk (hlen ▸ hfuel)
    exact ⟨it, (congrArg _ hbegin).trans hit, hpoints⟩

/-- A run that cannot be taken with trees cannot be taken with sets. -/
theorem run_none : ∀ {ops : List (Op α)} {f : Forest α} {sets : List (Finset α)}, f.Stands (fun x => x) HoldsSet sets →
    f.run ops = none → Sets.run sets ops = none
  | [], f, sets, _, hrun => by cases hrun
  | op :: ops, f, sets, h, hrun => by
    cases hstep : f.step op with
    | none =>
      rw [Sets.run, step_none h hstep]
      rfl
    | some r =>
      obtain ⟨sets1, hsets1, h1⟩ := step_sets h hstep
      have hrest : r.2.run ops = none := by
        cases hr : r.2.run ops with
        | none => rfl
        | some r' =>
          rw [Forest.run, hstep] at hrun
          simp [hr] at hrun
      rw [Sets.run, hsets1]
      simp [run_none h1 hrest]

/-- **The B+ tree is an ordered set**: after every run of insertions, erasures, clearings, copies and assignments the answers
are those of the sets, and every tree is seen as its set. -/
theorem run_orderedSets (ops : List (Op α)) :
    Option.Rel (fun trees sets => trees.1 = sets.1 ∧ List.Forall₂ (OrderedSet trees.2) trees.2.trees sets.2)
      (Forest.new.run ops) (Sets.run [] ops) := by
  cases hrun : (Forest.new : Forest α).run ops with
  | none =>
    rw [run_none Forest.stands_new hrun]
    exact Option.Rel.none
  | some r =>
    obtain ⟨sets, hsets, hstands⟩ := run_sets Forest.stands_new hrun
    rw [hsets]
    exact Option.Rel.some ⟨rfl, Forest.forall₂_mem hstands.trees (fun t ht s h => orderedSet_of hstands ht h.1 h.2)⟩

end Seen

end BPlus
end Sql
