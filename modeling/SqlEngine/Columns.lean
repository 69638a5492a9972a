import SqlEngine.Select
/-!
# Columns — the two indexes of a field answer alike

A v1 table answers a condition from a multimap that was filled row by row, a v2 table from the sorted index of its file.
Spread out to entries, the multimap is that index (`Indexes.entries_eq`), and every branch of `selectHelp` is a filter of
it (`selectHelp_v1`), as `query_index` is (`queryIndex_ok`).
-/
namespace Sql
namespace Storage

open Wire Effects Maps Query

/-! ## A multimap as an index -/

/-- The entries an item of a multimap stands for. -/
def itemEntries (item : Bytes × List Nat) : List Entry := item.2.map (fun record => ⟨item.1, record⟩)

def entriesOf (m : MMap Bytes Nat) : List Entry := m.items.flatMap itemEntries

theorem push_perm (value : Bytes) (record : Nat) : ∀ items : List (Bytes × List Nat),
    ((alterItems value (fun records => records.getD [] ++ [record]) items).flatMap itemEntries).Perm
      (⟨value, record⟩ :: items.flatMap itemEntries)
  | [] => by simp [alterItems, itemEntries]
  | item :: items => by
    rw [alterItems]
    by_cases h1 : value < item.1
    · rw [if_pos h1]
      exact List.Perm.refl _
    rw [if_neg h1]
    by_cases h2 : item.1 < value
    · rw [if_pos h2, List.flatMap_cons, List.flatMap_cons]
      exact ((push_perm value record items).append_left _).trans List.perm_middle
    · obtain rfl : item.1 = value := le_antisymm (not_lt.1 h1) (not_lt.1 h2)
      rw [if_neg h2, List.flatMap_cons, List.flatMap_cons]
      have hlast : itemEntries (item.1, item.2 ++ [record]) = itemEntries item ++ [⟨item.1, record⟩] := by
        simp [itemEntries]
      rw [Option.getD_some, hlast, List.append_assoc]
      exact List.perm_middle

/-- **The multimap is an index of the field**: one entry per record, and the records of a value ascending. -/
structure Indexes (m : MMap Bytes Nat) (rows : List (List Bytes)) (field : Nat) : Prop where
  perm : (entriesOf m).Perm (column rows field)
  ascending : ∀ value records, m.lookup value = some records → records.Pairwise (· < ·)

theorem Indexes.empty (field : Nat) : Indexes .empty [] field where
  perm := List.Perm.refl _
  ascending _ _ h := by cases h

theorem Indexes.record_lt {m : MMap Bytes Nat} {rows : List (List Bytes)} {field : Nat} (h : Indexes m rows field)
    {value : Bytes} {records : List Nat} (hl : m.lookup value = some records) : ∀ record ∈ records,
      record < rows.length := by
  intro record hr
  have hmem : (⟨value, record⟩ : Entry) ∈ entriesOf m :=
    List.mem_flatMap.2 ⟨(value, records), OrderedMap.mem_items.2 hl, List.mem_map.2 ⟨record, hr, rfl⟩⟩
  have := h.perm.mem_iff.1 hmem
  rw [column, List.mem_map] at this
  obtain ⟨r, hlt, heq⟩ := this
  obtain rfl : r = record := congrArg Entry.record heq
  exact List.mem_range.1 hlt

/-- **One record more** keeps the multimap an index. -/
theorem Indexes.insert {m : MMap Bytes Nat} {rows : List (List Bytes)} {field : Nat} (h : Indexes m rows field)
    (row : List Bytes) : Indexes (m.insert (row.getD field []) rows.length) (rows ++ [row]) field where
  perm := by
    rw [MMap.insert_eq_push, column_append]
    refine ((push_perm _ _ m.items).trans (h.perm.cons _)).trans ?_
    rw [← List.singleton_append]
    exact List.perm_append_comm
  ascending value records hl := by
    rw [MMap.insert_eq_push, MMap.push, OrderedMap.lookup_alter] at hl
    by_cases hv : value = row.getD field []
    · rw [if_pos hv] at hl
      obtain rfl := Option.some.inj hl
      cases hold : m.lookup (row.getD field []) with
      | none => exact List.pairwise_singleton _ _
      | some records =>
        refine List.pairwise_append.2 ⟨h.ascending _ _ hold, List.pairwise_singleton _ _, fun a ha b hb => ?_⟩
        obtain rfl := List.mem_singleton.1 hb
        exact h.record_lt hold a ha
    · rw [if_neg hv] at hl
      exact h.ascending value records hl

theorem entry_le_of_key_lt {a b : Entry} (h : a.key < b.key) : a ≤ b := le_of_lt (Entry.lt_iff.2 (Or.inl h))

/-- The entries of the multimap are the sorted index. -/
theorem Indexes.entries_eq {m : MMap Bytes Nat} {rows : List (List Bytes)} {field : Nat} (h : Indexes m rows field) :
    entriesOf m = sortedIndex rows field := by
  refine eq_sortedIndex h.perm (List.pairwise_flatMap.2 ⟨fun item hitem => ?_, ?_⟩)
  · rw [itemEntries, List.pairwise_map]
    refine (h.ascending item.1 item.2 (OrderedMap.mem_items.1 hitem)).imp (fun hlt => ?_)
    exact le_of_lt (Entry.lt_iff.2 (Or.inr ⟨rfl, hlt⟩))
  · refine m.ascending.imp (fun hlt a ha b hb => ?_)
    obtain ⟨r, -, rfl⟩ := List.mem_map.1 ha
    obtain ⟨s, -, rfl⟩ := List.mem_map.1 hb
    exact entry_le_of_key_lt hlt

/-! ## What a condition selects -/

/-- The records whose value satisfies a comparison, by value and record number. -/
def matching (rows : List (List Bytes)) (field : Nat) (p : Bytes → Bool) : List Nat :=
  ((sortedIndex rows field).filter (fun e => p e.key)).map Entry.record

theorem filter_itemEntries (p : Bytes → Bool) (item : Bytes × List Nat) :
    ((itemEntries item).filter (fun e => p e.key)).map Entry.record = if p item.1 then item.2 else [] := by
  cases h : p item.1 <;> simp [itemEntries, List.filter_map, Function.comp_def, h]

/-- The records of the items whose key satisfies it. -/
theorem Indexes.matching_eq {m : MMap Bytes Nat} {rows : List (List Bytes)} {field : Nat} (h : Indexes m rows field)
    (p : Bytes → Bool) : matching rows field p = (m.items.filter (fun item => p item.1)).flatMap Prod.snd := by
  rw [matching, ← h.entries_eq, entriesOf]
  induction m.items with
  | nil => rfl
  | cons item items ih =>
    rw [List.flatMap_cons, List.filter_append, List.map_append, ih, filter_itemEntries, List.filter_cons]
    by_cases hp : p item.1
    · rw [if_pos hp, if_pos hp, List.flatMap_cons]
    · rw [if_neg hp, if_neg hp, List.nil_append]

theorem recordIndicesBetween_nil : ∀ items : List (Bytes × List Nat), recordIndicesBetween items [] = items.flatMap Prod.snd
  | [] => rfl
  | item :: items => by
    rw [recordIndicesBetween, if_neg (List.cons_ne_nil _ _), recordIndicesBetween_nil items, List.flatMap_cons]

/-- Up to an iterator further on, the loop takes what is in front of it. -/
theorem recordIndicesBetween_append : ∀ items last : List (Bytes × List Nat),
    recordIndicesBetween (items ++ last) last = items.flatMap Prod.snd
  | [], [] => rfl
  | [], item :: last => by rw [List.nil_append, recordIndicesBetween, if_pos rfl, List.flatMap_nil]
  | item :: items, last => by
    have hne : item :: (items ++ last) ≠ last := fun h => by
      have := congrArg List.length h
      simp at this
      omega
    rw [List.cons_append, recordIndicesBetween, if_neg hne, recordIndicesBetween_append items last, List.flatMap_cons]

/-! ## The two paths -/

/-- The comparison as a filter. -/
def satisfies (operation value key : Bytes) : Bool := decide (compareValues operation key value = some true)

theorem satisfies_eq (value : Bytes) : satisfies (ascii "=") value = fun key => decide (key = value) := by
  funext key
  simp [satisfies, compareValues]

theorem satisfies_ne (value : Bytes) : satisfies (ascii "!=") value = fun key => decide (key ≠ value) := by
  funext key
  simp [satisfies, compareValues, show ascii "!=" ≠ ascii "=" by decide]

theorem satisfies_lt (value : Bytes) : satisfies (ascii "<") value = fun key => decide (key < value) := by
  funext key
  simp [satisfies, compareValues, show ascii "<" ≠ ascii "=" by decide, show ascii "<" ≠ ascii "!=" by decide]

theorem satisfies_le (value : Bytes) : satisfies (ascii "<=") value = fun key => decide (key ≤ value) := by
  funext key
  simp [satisfies, compareValues, show ascii "<=" ≠ ascii "=" by decide, show ascii "<=" ≠ ascii "!=" by decide,
    show ascii "<=" ≠ ascii "<" by decide]

theorem satisfies_gt (value : Bytes) : satisfies (ascii ">") value = fun key => decide (value < key) := by
  funext key
  simp [satisfies, compareValues, show ascii ">" ≠ ascii "=" by decide, show ascii ">" ≠ ascii "!=" by decide,
    show ascii ">" ≠ ascii "<" by decide, show ascii ">" ≠ ascii "<=" by decide]

theorem satisfies_ge (value : Bytes) : satisfies (ascii ">=") value = fun key => decide (value ≤ key) := by
  funext key
  simp [satisfies, compareValues, show ascii ">=" ≠ ascii "=" by decide, show ascii ">=" ≠ ascii "!=" by decide,
    show ascii ">=" ≠ ascii "<" by decide, show ascii ">=" ≠ ascii "<=" by decide, show ascii ">=" ≠ ascii ">" by decide]

theorem compareValues_known {operation : Bytes} (h : operation ∈ relationalTexts) (key value : Bytes) :
    compareValues operation key value = some (satisfies operation value key) := by
  have hsome : (compareValues operation key value).isSome := by
    simp only [relationalTexts, List.mem_cons, List.not_mem_nil, or_false] at h
    unfold compareValues
    split_ifs <;> simp_all
  obtain ⟨b, hb⟩ := Option.isSome_iff_exists.1 hsome
  rw [satisfies, hb]
  cases b <;> rfl

/-- The loop of `query_index` filters the index. -/
theorem matchEntries_ok {operation : Bytes} (h : operation ∈ relationalTexts) (value : Bytes) : ∀ entries : List Entry,
    matchEntries operation value entries =
      .ok ((entries.filter (fun e => satisfies operation value e.key)).map Entry.record)
  | [] => rfl
  | entry :: entries => by
    rw [matchEntries, compareValues_known h]
    simp only [matchEntries_ok h value entries, bind, Except.bind, pure, Except.pure]
    by_cases hs : satisfies operation value entry.key = true
    · rw [if_pos hs, List.filter_cons, if_pos hs, List.map_cons]
    · rw [if_neg hs, List.filter_cons, if_neg hs]

theorem matching_eq_between {m : MMap Bytes Nat} {rows : List (List Bytes)} {field : Nat} (h : Indexes m rows field)
    (p : Bytes → Bool) (hp : ∀ a b, a < b → p b = true → p a = true) :
    recordIndicesBetween m.begin (m.items.dropWhile (fun item => p item.1)) = matching rows field p := by
  have hsplit : m.begin = m.items.takeWhile (fun item => p item.1) ++ m.items.dropWhile (fun item => p item.1) :=
    List.takeWhile_append_dropWhile.symm
  rw [hsplit, recordIndicesBetween_append, m.ascending.takeWhile_eq p hp, h.matching_eq]

theorem matching_eq_from {m : MMap Bytes Nat} {rows : List (List Bytes)} {field : Nat} (h : Indexes m rows field)
    (p : Bytes → Bool) (hp : ∀ a b, a < b → p b = true → p a = true) :
    recordIndicesBetween (m.items.dropWhile (fun item => p item.1)) [] = matching rows field (fun key => !p key) := by
  rw [recordIndicesBetween_nil, m.ascending.dropWhile_eq p hp, h.matching_eq]

section Bounds
variable {m : MMap Bytes Nat} {rows : List (List Bytes)} {field : Nat} (h : Indexes m rows field) (value : Bytes)
include h

theorem matching_lt : recordIndicesBetween m.begin (m.lowerBound value) =
    matching rows field (fun key => decide (key < value)) := by
  rw [← matching_eq_between h _ (fun a b hab hb => decide_eq_true (lt_trans hab (of_decide_eq_true hb))), MMap.lowerBound]
  congr!

theorem matching_le : recordIndicesBetween m.begin (m.upperBound value) =
    matching rows field (fun key => decide (key ≤ value)) := by
  rw [← matching_eq_between h _ (fun a b hab hb => decide_eq_true (le_trans hab.le (of_decide_eq_true hb))),
    MMap.upperBound]

theorem matching_ge : recordIndicesBetween (m.lowerBound value) [] =
    matching rows field (fun key => decide (value ≤ key)) := by
  have hfrom := matching_eq_from h (fun key => decide (key < value))
    (fun a b hab hb => decide_eq_true (lt_trans hab (of_decide_eq_true hb)))
  refine Eq.trans ?_ (hfrom.trans ?_)
  · rw [MMap.lowerBound]
    congr!
  congr 1
  funext key
  rw [← decide_not]
  exact decide_eq_decide.2 not_lt

theorem matching_gt : recordIndicesBetween (m.upperBound value) [] =
    matching rows field (fun key => decide (value < key)) := by
  rw [MMap.upperBound, matching_eq_from h (fun key => decide (key ≤ value))
    (fun a b hab hb => decide_eq_true (le_trans hab.le (of_decide_eq_true hb)))]
  congr 1
  funext key
  rw [← decide_not]
  exact decide_eq_decide.2 not_le

theorem matching_ne : recordIndicesExcept value m.begin = matching rows field (fun key => decide (key ≠ value)) := by
  rw [h.matching_eq, recordIndicesExcept, MMap.begin]
  induction m.items with
  | nil => rfl
  | cons item items ih =>
    rw [List.flatMap_cons, ih, List.filter_cons]
    by_cases hv : item.1 = value
    · rw [if_pos hv, if_neg (by simpa using hv), List.nil_append]
    · rw [if_neg hv, if_pos (by simpa using hv), List.flatMap_cons]

end Bounds

theorem matching_eq_get {m : MMap Bytes Nat} {rows : List (List Bytes)} {field : Nat} (h : Indexes m rows field)
    (value : Bytes) : m.get value = matching rows field (fun key => decide (key = value)) := by
  rw [h.matching_eq]
  cases hl : m.lookup value with
  | none =>
    have hnone : m.items.filter (fun item => decide (item.1 = value)) = [] := by
      rw [List.filter_eq_nil_iff]
      intro item hitem hv
      obtain rfl := of_decide_eq_true hv
      rw [OrderedMap.mem_items.1 hitem] at hl
      cases hl
    rw [hnone, MMap.get, hl]
    rfl
  | some records =>
    have hone : m.items.filter (fun item => decide (item.1 = value)) = [(value, records)] := by
      refine List.perm_singleton.1 ((List.perm_ext_iff_of_nodup (m.ascending.nodup.filter _) (List.nodup_singleton _)).2 ?_)
      intro item
      rw [List.mem_filter, List.mem_singleton, decide_eq_true_eq]
      constructor
      · rintro ⟨hitem, rfl⟩
        rw [OrderedMap.mem_items.1 hitem] at hl
        rw [← Option.some.inj hl]
      · rintro rfl
        exact ⟨OrderedMap.mem_items.2 hl, rfl⟩
    rw [hone, MMap.get, hl]
    simp

/-- **The v1 path selects the matching records**, for each of the six operators. -/
theorem selectHelp_v1 {table : Table} {fieldName operation : Bytes} {rows : List (List Bytes)} {field : Nat}
    (hv1 : table.usesV2Storage = false) (hknown : table.fieldNameMap.contains fieldName = true)
    (h : Indexes (table.column fieldName) rows field) (hop : operation ∈ relationalTexts) (value : Bytes) (files : Files) :
    table.selectHelp fieldName operation value files =
      ⟨[], .ok (matching rows field (satisfies operation value), table.touchColumn fieldName)⟩ := by
  unfold Table.selectHelp
  rw [throwIf_neg (by simp [hknown]), attempt_ok_bind, if_neg (by simp [hv1])]
  simp only [relationalTexts, List.mem_cons, List.not_mem_nil, or_false] at hop
  rcases hop with rfl | rfl | rfl | rfl | rfl | rfl
  · rw [if_neg (fun hc => absurd hc.1 (by decide)), if_neg (by decide), if_pos rfl, satisfies_lt, ← matching_lt h]
    rfl
  · rw [if_neg (fun hc => absurd hc.1 (by decide)), if_neg (by decide), if_neg (by decide), if_neg (by decide), if_pos rfl,
      satisfies_gt, ← matching_gt h]
    rfl
  · rw [if_neg (fun hc => absurd hc.1 (by decide)), if_pos rfl, satisfies_le, ← matching_le h]
    rfl
  · rw [if_neg (fun hc => absurd hc.1 (by decide)), if_neg (by decide), if_neg (by decide), if_pos rfl, satisfies_ge,
      ← matching_ge h]
    rfl
  · rw [satisfies_eq, ← matching_eq_get h]
    by_cases hc : (table.column fieldName).contains value = true
    · rw [if_pos ⟨rfl, hc⟩]
      rfl
    · -- an absent value falls through all branches
      have hnone : (table.column fieldName).get value = [] := by
        rw [OrderedMap.contains, Option.not_isSome_iff_eq_none] at hc
        rw [MMap.get, hc]
        rfl
      rw [if_neg (fun hc' => hc hc'.2), if_neg (by decide), if_neg (by decide), if_neg (by decide), if_neg (by decide),
        if_neg (by decide), hnone]
      rfl
  · rw [if_neg (fun hc => absurd hc.1 (by decide)), if_neg (by decide), if_neg (by decide), if_neg (by decide),
      if_neg (by decide), if_pos rfl, satisfies_ne, ← matching_ne h]
    rfl

/-! ## The file -/

theorem queryIndex_run {path : String} {disk : Disk} {es : List DiskEffect} {loaded : LoadedTable} {index : List Entry}
    {field : Nat} (hopen : openTable path disk = ⟨es, .ok loaded⟩) (hindex : loaded.indexes[field]? = some index)
    (operation value : Bytes) :
    queryIndex path field operation value disk = ⟨es, matchEntries operation value index⟩ := by
  unfold queryIndex
  rw [bind_run_ok hopen]
  simp only [hindex]
  rw [show (attempt (matchEntries operation value index) : Call (List Nat)) (after disk es) =
    ⟨[], matchEntries operation value index⟩ from rfl, List.append_nil]

/-- **`query_index` selects the matching records** of the table it opens. -/
theorem queryIndex_ok {path : String} {disk : Disk} {es : List DiskEffect} {loaded : LoadedTable} {operation : Bytes}
    {field : Nat} (hopen : openTable path disk = ⟨es, .ok loaded⟩)
    (hindex : loaded.indexes[field]? = some (sortedIndex loaded.rows field)) (hop : operation ∈ relationalTexts)
    (value : Bytes) : queryIndex path field operation value disk =
      ⟨es, .ok (matching loaded.rows field (satisfies operation value))⟩ := by
  rw [queryIndex_run hopen hindex, matchEntries_ok hop]
  rfl

/-- An image that parses has the sorted index of each field. -/
theorem parseImage_index {image : Bytes} {walPresent : Bool} {P : ParsedImage} (h : parseImage image walPresent = .ok P)
    {field : Nat} (hf : field < P.table.fields.length) :
    P.table.indexes[field]? = some (sortedIndex P.table.rows field) := by
  obtain ⟨-, L, -, hP⟩ := parseImage_ok h
  generalize P.pages = pages at hP
  subst hP
  have hf' : field < L.fields.length := hf
  simp [Layout.parsed, hf']

end Storage
end Sql
