import SqlEngine.Opened
/-!
# Evaluate — `Eval` on two stacks

The postfix form of a condition, in front of any other tokens, pushes one record set and leaves the operands alone
(`evalLoop_formula`): the records that satisfy the condition, without repetition, ascending as soon as a logical operator
made them.  With the conversion of `ShuntingYard` this is the whole way from the typed tokens to the records
(`eval_wellFormed`).
-/
namespace Sql

open Wire Effects Maps

namespace Query

open Storage

/-! ## What a condition means -/

/-- A record satisfies the condition, `and` and `or` read as their names say. -/
def Formula.holds (fieldNames row : List Bytes) : Formula → Bool
  | compare field operation value => satisfies operation value (row.getD (fieldNames.idxOf field) [])
  | and left right => left.holds fieldNames row && right.holds fieldNames row
  | or left right => left.holds fieldNames row || right.holds fieldNames row

/-- The comparisons are between known fields and values, by known operators. -/
def Formula.Over (fieldNames : List Bytes) : Formula → Prop
  | compare field operation _ => field ∈ fieldNames ∧ operation ∈ relationalTexts
  | and left right | or left right => left.Over fieldNames ∧ right.Over fieldNames

theorem Derives.over {level : Level} {queue : List Token} {φ : Formula} (h : Derives level queue φ)
    {fieldNames : List Bytes} (hfields : ∀ field ∈ φ.fields, field ∈ fieldNames) : φ.Over fieldNames := by
  induction h with
  | compare field value h => exact ⟨hfields field List.mem_cons_self, h⟩
  | paren _ ih => exact ih hfields
  | factor _ ih => exact ih hfields
  | term _ ih => exact ih hfields
  | and _ _ ihl ihr =>
    exact ⟨ihl (fun f hf => hfields f (List.mem_append_left _ hf)), ihr (fun f hf => hfields f (List.mem_append_right _ hf))⟩
  | or _ _ ihl ihr =>
    exact ⟨ihl (fun f hf => hfields f (List.mem_append_left _ hf)), ihr (fun f hf => hfields f (List.mem_append_right _ hf))⟩

end Query

namespace Storage

open Query

/-! ## Sorted vectors -/

theorem mem_intersectSorted : ∀ {as bs : List Nat}, as.Pairwise (· < ·) → bs.Pairwise (· < ·) → ∀ {x : Nat},
    x ∈ Table.intersectSorted as bs ↔ x ∈ as ∧ x ∈ bs
  | [], _, _, _, _ => by simp [Table.intersectSorted]
  | _ :: _, [], _, _, _ => by simp [Table.intersectSorted]
  | a :: as, b :: bs, ha, hb, x => by
    obtain ⟨hhead, has⟩ := List.pairwise_cons.1 ha
    obtain ⟨hhead', hbs⟩ := List.pairwise_cons.1 hb
    rw [Table.intersectSorted]
    by_cases hab : a < b
    · rw [if_pos hab, mem_intersectSorted has hb, List.mem_cons (b := a)]
      constructor
      · exact fun h => ⟨Or.inr h.1, h.2⟩
      · rintro ⟨rfl | hx, hx'⟩
        · rcases List.mem_cons.1 hx' with rfl | hx'
          · omega
          · have := hhead' x hx'
            omega
        · exact ⟨hx, hx'⟩
    rw [if_neg hab]
    by_cases hba : b < a
    · rw [if_pos hba, mem_intersectSorted ha hbs, List.mem_cons (b := b)]
      constructor
      · exact fun h => ⟨h.1, Or.inr h.2⟩
      · rintro ⟨hx, rfl | hx'⟩
        · rcases List.mem_cons.1 hx with rfl | hx
          · omega
          · have := hhead x hx
            omega
        · exact ⟨hx, hx'⟩
    · obtain rfl : a = b := by omega
      rw [if_neg hba, List.mem_cons, mem_intersectSorted has hbs, List.mem_cons, List.mem_cons]
      constructor
      · rintro (rfl | h)
        · exact ⟨Or.inl rfl, Or.inl rfl⟩
        · exact ⟨Or.inr h.1, Or.inr h.2⟩
      · rintro ⟨rfl | hx, hx'⟩
        · exact Or.inl rfl
        · rcases hx' with rfl | hx'
          · exact Or.inl rfl
          · exact Or.inr ⟨hx, hx'⟩
termination_by as bs => as.length + bs.length

theorem intersectSorted_sublist : ∀ as bs : List Nat, (Table.intersectSorted as bs).Sublist as
  | [], _ => by simp [Table.intersectSorted]
  | _ :: _, [] => by simp [Table.intersectSorted]
  | a :: as, b :: bs => by
    rw [Table.intersectSorted]
    by_cases hab : a < b
    · rw [if_pos hab]
      exact (intersectSorted_sublist as (b :: bs)).cons a
    rw [if_neg hab]
    by_cases hba : b < a
    · rw [if_pos hba]
      exact intersectSorted_sublist (a :: as) bs
    · rw [if_neg hba]
      exact (intersectSorted_sublist as bs).cons_cons a
termination_by as bs => as.length + bs.length

theorem mem_uniqueSorted {x : Nat} : ∀ {as : List Nat}, x ∈ Table.uniqueSorted as ↔ x ∈ as
  | [] => Iff.rfl
  | [_] => Iff.rfl
  | a :: b :: bs => by
    rw [Table.uniqueSorted]
    by_cases hab : a = b
    · rw [if_pos hab, mem_uniqueSorted, hab, List.mem_cons (b := b) (l := b :: bs)]
      exact ⟨Or.inr, fun h => h.elim (fun hx => hx ▸ List.mem_cons_self) id⟩
    · rw [if_neg hab, List.mem_cons, mem_uniqueSorted, List.mem_cons (b := a)]

theorem uniqueSorted_sorted : ∀ {as : List Nat}, as.Pairwise (· ≤ ·) → (Table.uniqueSorted as).Pairwise (· < ·)
  | [], _ => List.Pairwise.nil
  | [_], _ => List.pairwise_singleton _ _
  | a :: b :: bs, h => by
    obtain ⟨hhead, hrest⟩ := List.pairwise_cons.1 h
    rw [Table.uniqueSorted]
    by_cases hab : a = b
    · rw [if_pos hab]
      exact uniqueSorted_sorted hrest
    · rw [if_neg hab]
      refine List.pairwise_cons.2 ⟨fun x hx => ?_, uniqueSorted_sorted hrest⟩
      have hle : b ≤ x := by
        rcases List.mem_cons.1 (mem_uniqueSorted.1 hx) with rfl | hx
        · exact le_refl _
        · exact (List.pairwise_cons.1 hrest).1 x hx
      have := hhead b List.mem_cons_self
      omega

/-- A sorted vector without repetition. -/
theorem insertionSort_strict {as : List Nat} (h : as.Nodup) : (as.insertionSort (· ≤ ·)).Pairwise (· < ·) :=
  (List.pairwise_and_iff.2 ⟨List.pairwise_insertionSort (· ≤ ·) as, (List.perm_insertionSort _ as).nodup_iff.2 h⟩).imp
    (fun h => lt_of_le_of_ne h.1 h.2)

theorem mem_myIntersection {a b : List Nat} (ha : a.Nodup) (hb : b.Nodup) {x : Nat} :
    x ∈ Table.myIntersection a b ↔ x ∈ a ∧ x ∈ b := by
  rw [Table.myIntersection, mem_intersectSorted (insertionSort_strict ha) (insertionSort_strict hb),
    List.mem_insertionSort, List.mem_insertionSort]

theorem myIntersection_sorted {a : List Nat} (ha : a.Nodup) (b : List Nat) :
    (Table.myIntersection a b).Pairwise (· < ·) :=
  (insertionSort_strict ha).sublist (intersectSorted_sublist _ _)

theorem mem_myUnion {a b : List Nat} {x : Nat} : x ∈ Table.myUnion a b ↔ x ∈ a ∨ x ∈ b := by
  rw [Table.myUnion, mem_uniqueSorted, List.mem_insertionSort, List.mem_append]

theorem myUnion_sorted (a b : List Nat) : (Table.myUnion a b).Pairwise (· < ·) :=
  uniqueSorted_sorted (List.pairwise_insertionSort _ _)

/-- **The records that satisfy a condition**, without repetition, and ascending behind a logical operator. -/
structure Selects (fieldNames : List Bytes) (rows : List (List Bytes)) (φ : Formula) (records : List Nat) : Prop where
  nodup : records.Nodup
  mem : ∀ record, record ∈ records ↔ ∃ row, rows[record]? = some row ∧ φ.holds fieldNames row = true
  ascending : (∀ field operation value, φ ≠ .compare field operation value) → records.Pairwise (· < ·)

theorem mem_matching {rows : List (List Bytes)} {field : Nat} {p : Bytes → Bool} {record : Nat} :
    record ∈ matching rows field p ↔ ∃ row, rows[record]? = some row ∧ p (row.getD field []) = true := by
  rw [matching, List.mem_map]
  constructor
  · rintro ⟨e, he, rfl⟩
    obtain ⟨hmem, hp⟩ := List.mem_filter.1 he
    obtain ⟨hlt, hkey⟩ := mem_sortedIndex.1 hmem
    refine ⟨rows[e.record], List.getElem?_eq_getElem hlt, ?_⟩
    rw [hkey] at hp
    simpa [valueAt, hlt, List.getD_eq_getElem?_getD] using hp
  · rintro ⟨row, hrow, hp⟩
    have hlt := lt_of_getElem?_some hrow
    refine ⟨⟨valueAt rows record field, record⟩, List.mem_filter.2 ⟨mem_sortedIndex.2 ⟨hlt, rfl⟩, ?_⟩, rfl⟩
    simpa [valueAt, hrow, List.getD_eq_getElem?_getD] using hp

theorem matching_nodup (rows : List (List Bytes)) (field : Nat) (p : Bytes → Bool) : (matching rows field p).Nodup :=
  (((sortedIndex_records_perm rows field).nodup_iff.2 List.nodup_range).sublist (List.filter_sublist.map _))

theorem getElem?_idxOf {names : List Bytes} {name : Bytes} (h : name ∈ names) : names[names.idxOf name]? = some name := by
  have hlt := List.idxOf_lt_length_of_mem h
  rw [List.getElem?_eq_getElem hlt, List.getElem_idxOf hlt]

/-- **The postfix form of a condition in front of any tokens** pushes the records that satisfy it. -/
theorem evalLoop_formula {files : Files} {φ : Formula} : ∀ {table : Table}, table.Valid files → φ.Over table.fieldNames →
    ∀ (rest : List Token) (s : List Bytes) (indices : List (List Nat)), ∃ records cache,
      Selects table.fieldNames table.storedRows φ records ∧ ({ table with cache := cache } : Table).Valid files ∧
      Table.evalLoop (φ.toPostfix ++ rest) s indices table files =
        Table.evalLoop rest s (records :: indices) { table with cache := cache } files := by
  induction φ with
  | compare field operation value =>
    rintro table h ⟨hfield, hop⟩ rest s indices
    obtain ⟨cache, hselect, hvalid⟩ := selectHelp_known h (getElem?_idxOf hfield) hop value
    refine ⟨_, cache, ⟨matching_nodup _ _ _, fun record => mem_matching, fun hne => absurd rfl (hne _ _ _)⟩, hvalid, ?_⟩
    rw [Formula.toPostfix, List.cons_append, List.cons_append, List.cons_append, List.nil_append, Table.evalLoop,
      Table.evalLoop, Table.evalLoop, bind_run_pure hselect]
  | and left right ihl ihr =>
    rintro table h ⟨hl, hr⟩ rest s indices
    obtain ⟨second, cache, hsecond, hvalid, hrun⟩ := ihl h hl (right.toPostfix ++ .logical (ascii "and") :: rest) s indices
    obtain ⟨first, cache', hfirst, hvalid', hrun'⟩ := ihr hvalid hr (.logical (ascii "and") :: rest) s (second :: indices)
    refine ⟨Table.myIntersection first second, cache', ⟨?_, fun record => ?_, fun _ => ?_⟩, hvalid', ?_⟩
    · exact (myIntersection_sorted hfirst.nodup second).imp (fun hlt => hlt.ne)
    · rw [mem_myIntersection hfirst.nodup hsecond.nodup, hfirst.mem, hsecond.mem]
      constructor
      · rintro ⟨⟨row, hrow, h1⟩, ⟨row', hrow', h2⟩⟩
        obtain rfl : row = row' := Option.some.inj (hrow.symm.trans hrow')
        exact ⟨row, hrow, by rw [Formula.holds, h2]; exact h1⟩
      · rintro ⟨row, hrow, hboth⟩
        rw [Formula.holds, Bool.and_eq_true] at hboth
        exact ⟨⟨row, hrow, hboth.2⟩, ⟨row, hrow, hboth.1⟩⟩
    · exact myIntersection_sorted hfirst.nodup second
    · rw [Formula.toPostfix, List.append_assoc, List.append_assoc, List.singleton_append, hrun, hrun', Table.evalLoop]
      rfl
  | or left right ihl ihr =>
    rintro table h ⟨hl, hr⟩ rest s indices
    obtain ⟨second, cache, hsecond, hvalid, hrun⟩ := ihl h hl (right.toPostfix ++ .logical (ascii "or") :: rest) s indices
    obtain ⟨first, cache', hfirst, hvalid', hrun'⟩ := ihr hvalid hr (.logical (ascii "or") :: rest) s (second :: indices)
    refine ⟨Table.myUnion first second, cache', ⟨?_, fun record => ?_, fun _ => ?_⟩, hvalid', ?_⟩
    · exact (myUnion_sorted first second).imp (fun hlt => hlt.ne)
    · rw [mem_myUnion, hfirst.mem, hsecond.mem]
      constructor
      · rintro (⟨row, hrow, h1⟩ | ⟨row, hrow, h2⟩)
        · exact ⟨row, hrow, by rw [Formula.holds, Bool.or_eq_true]; exact Or.inr h1⟩
        · exact ⟨row, hrow, by rw [Formula.holds, Bool.or_eq_true]; exact Or.inl h2⟩
      · rintro ⟨row, hrow, heither⟩
        rw [Formula.holds, Bool.or_eq_true] at heither
        exact heither.elim (fun h2 => Or.inr ⟨row, hrow, h2⟩) (fun h1 => Or.inl ⟨row, hrow, h1⟩)
    · exact myUnion_sorted first second
    · rw [Formula.toPostfix, List.append_assoc, List.append_assoc, List.singleton_append, hrun, hrun', Table.evalLoop]
      rfl

/-- **WHERE evaluation is correct**: typed tokens derived from the grammar convert without an error, and evaluating them
on a valid table returns the records that satisfy the condition. -/
theorem eval_wellFormed {table : Table} {files : Files} (h : table.Valid files) {queue : List Token} {φ : Formula}
    (hqueue : Derives .expression queue φ) (hfields : ∀ field ∈ φ.fields, field ∈ table.fieldNames) :
    ∃ postfixQueue records table', toPostfix queue = some postfixQueue ∧
      table.eval postfixQueue files = ⟨[], .ok (records, table')⟩ ∧ records.Nodup ∧
      (∀ record, record ∈ records ↔
        ∃ row, table.storedRows[record]? = some row ∧ φ.holds table.fieldNames row = true) ∧
      ((∃ s, Token.logical s ∈ queue) → records.Pairwise (· < ·)) := by
  obtain ⟨records, cache, hselects, -, hrun⟩ := evalLoop_formula h (hqueue.over hfields) [] [] []
  refine ⟨φ.toPostfix, records, { table with cache := cache }, toPostfix_derives hqueue, ?_, hselects.nodup, hselects.mem,
    ?_⟩
  · rw [List.append_nil] at hrun
    rw [Table.eval, hrun, Table.evalLoop]
    rfl
  · rintro ⟨s, hs⟩
    exact hselects.ascending (fun field operation value hφ => hqueue.logical hφ s hs)

/-- `a = x or ( a = y )` on a table with two records. -/
theorem eval_wellFormed_two : ∃ postfixQueue records table', toPostfix [.tokenStr (ascii "a"), .relational (ascii "="),
      .tokenStr (ascii "x"), .logical (ascii "or"), .leftParen, .tokenStr (ascii "a"), .relational (ascii "="),
      .tokenStr (ascii "y"), .rightParen] = some postfixQueue ∧
    (Table.filled (ascii "t") [ascii "a"] [[ascii "x"], [ascii "y"]]).eval postfixQueue (fun _ => none) =
      ⟨[], .ok (records, table')⟩ ∧ records.Pairwise (· < ·) := by
  have hx : Derives .factor [.tokenStr (ascii "a"), .relational (ascii "="), .tokenStr (ascii "x")]
      (.compare (ascii "a") (ascii "=") (ascii "x")) := .compare _ _ (by decide)
  have hy : Derives .factor [.tokenStr (ascii "a"), .relational (ascii "="), .tokenStr (ascii "y")]
      (.compare (ascii "a") (ascii "=") (ascii "y")) := .compare _ _ (by decide)
  obtain ⟨postfixQueue, records, table', h1, h2, -, -, h3⟩ := eval_wellFormed
    (filled_valid (ascii "t") (by decide : [ascii "a"].Nodup)
      (by decide : ∀ row ∈ [[ascii "x"], [ascii "y"]], row.length = [ascii "a"].length) (fun _ => none))
    (.or (.term (.factor hx)) (.factor (.paren (.term (.factor hy))))) (by decide)
  exact ⟨postfixQueue, records, table', h1, h2, h3 ⟨ascii "or", by decide⟩⟩

end Storage
end Sql
