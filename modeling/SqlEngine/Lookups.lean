import SqlEngine.Dictionary
import SqlEngine.Parse
import SqlEngine.Valid
/-!
# Lookups — the comparisons of a v1 table on the trees of its columns

`selectHelp` compares by loops between iterators of the multimap of a field.  The loops end, never follow a null iterator,
and collect the records that the model of the tables has.
-/
namespace Sql
namespace Storage

open Wire Effects Maps Query BPlus

/-! ## The loops -/

/-- `get_record_indices`; `none` is a step that cannot be taken, or no step left. -/
def getRecordIndices (f : Forest (MPair Bytes Nat)) (fuel : Nat) (first last : BPlusTree.Iterator) : Option (List Nat) :=
  if first.it = none then some [] else (f.scanLoop fuel first last).map (fun pairs => pairs.flatMap MPair.valueList)

/-- The comparisons of `selectHelp` with the multimap of a field. -/
def treeRecords (f : Forest (MPair Bytes Nat)) (fuel : Nat) (t : BPlusTree (MPair Bytes Nat)) (operation value : Bytes) :
    Option (List Nat) :=
  if operation = ascii "=" ∧ BPlus.MMap.contains t value then (BPlus.MMap.read t value f.memory).1
  else if operation = ascii "<=" then do
    let last ← Forest.upperBound MPair.key f fuel t (BPlus.MMap.probe value)
    getRecordIndices f fuel (Forest.begin t) last
  else if operation = ascii "<" then do
    let last ← Forest.lowerBound MPair.key f fuel t (BPlus.MMap.probe value)
    getRecordIndices f fuel (Forest.begin t) last
  else if operation = ascii ">=" then do
    let first ← Forest.lowerBound MPair.key f fuel t (BPlus.MMap.probe value)
    getRecordIndices f fuel first BPlusTree.Iterator.end
  else if operation = ascii ">" then do
    let first ← Forest.upperBound MPair.key f fuel t (BPlus.MMap.probe value)
    getRecordIndices f fuel first BPlusTree.Iterator.end
  else if operation = ascii "!=" then
    (f.scanLoop fuel (Forest.begin t) BPlusTree.Iterator.end).map
      (fun pairs => pairs.flatMap (fun p => if p.key = value then [] else p.valueList))
  else some []

section
variable {f : Forest (MPair Bytes Nat)} {t : BPlusTree (MPair Bytes Nat)} {m : MMap Bytes Nat} {fuel : Nat}
  (h : Mapped MPair.key MPair.valueList f t m)

/-- Only the end is null. -/
theorem leads_null {it : BPlusTree.Iterator} {items : List (Bytes × List Nat)}
    (hleads : Leads MPair.key MPair.valueList f t it items) : it.it = none ↔ items = [] := by
  obtain ⟨rest, hat, rfl⟩ := hleads
  rw [List.map_eq_nil_iff]
  cases rest with
  | nil =>
    obtain rfl := hat.nil
    exact ⟨fun _ => rfl, fun _ => rfl⟩
  | cons x rest =>
    obtain ⟨-, hderef, -⟩ := hat.cons
    refine ⟨fun hnull => ?_, fun hnil => absurd hnil (List.cons_ne_nil x rest)⟩
    rw [Forest.deref, hnull] at hderef
    cases hderef

include h

/-- **A loop between two iterators collects what stands between them.** -/
theorem getRecordIndices_leads (hfuel : fuel > m.items.length) {first last : BPlusTree.Iterator}
    {between items : List (Bytes × List Nat)} (hfirst : Leads MPair.key MPair.valueList f t first (between ++ items))
    (hlast : Leads MPair.key MPair.valueList f t last items) :
    getRecordIndices f fuel first last = some (recordIndicesBetween (between ++ items) items) := by
  rw [getRecordIndices, recordIndicesBetween_append]
  by_cases hnull : first.it = none
  · obtain ⟨rfl, -⟩ := List.append_eq_nil_iff.1 ((leads_null hfirst).1 hnull)
    rw [if_pos hnull]
    rfl
  · have hscan := h.scan fuel hfuel hfirst hlast
    obtain ⟨pairs, hpairs, rfl⟩ := Option.map_eq_some_iff.1 hscan
    rw [if_neg hnull, hpairs, Option.map_some, List.flatMap_map]

theorem getRecordIndices_upto (hfuel : fuel > m.items.length) {last : BPlusTree.Iterator} {items : List (Bytes × List Nat)}
    (hsuffix : items <:+ m.items) (hlast : Leads MPair.key MPair.valueList f t last items) :
    getRecordIndices f fuel (Forest.begin t) last = some (recordIndicesBetween m.begin items) := by
  obtain ⟨between, hsplit⟩ := hsuffix
  have hbegin := h.begin
  rw [← hsplit] at hbegin
  rw [getRecordIndices_leads h hfuel hbegin hlast, hsplit]
  rfl

theorem getRecordIndices_from (hfuel : fuel > m.items.length) {first : BPlusTree.Iterator} {items : List (Bytes × List Nat)}
    (hfirst : Leads MPair.key MPair.valueList f t first items) :
    getRecordIndices f fuel first BPlusTree.Iterator.end = some (recordIndicesBetween items []) := by
  rw [← List.append_nil items] at hfirst ⊢
  exact getRecordIndices_leads h hfuel hfirst h.ends

theorem mmap_read {value : Bytes} (hpresent : m.contains value = true) :
    (BPlus.MMap.read t value f.memory).1 = some (m.get value) := by
  have hcontains : t.contains MPair.key (BPlus.MMap.probe value) = true :=
    (h.contains (BPlus.MMap.probe value)).trans hpresent
  have hitem := h.getItem (BPlus.MMap.probe value)
  obtain ⟨values, hvalues⟩ := Option.isSome_iff_exists.1 hpresent
  rw [BPlus.MMap.read, BPlusTree.get, hcontains, if_pos rfl, MMap.get, hvalues]
  exact hitem.trans hvalues

/-- **The comparisons on a tree are those of the model**, whatever the operator. -/
theorem treeRecords_selectHelp {table : Table} {fieldName : Bytes} (hcolumn : table.column fieldName = m)
    (hv1 : table.usesV2Storage = false) (hknown : table.fieldNameMap.contains fieldName = true)
    (hfuel : fuel > m.items.length) (operation value : Bytes) (files : Files) :
    ∃ records, treeRecords f fuel t operation value = some records ∧
      table.selectHelp fieldName operation value files =
        ⟨[], .ok (records, if operation ∈ relationalTexts then table.touchColumn fieldName else table)⟩ := by
  have hcontains : BPlus.MMap.contains t value = m.contains value := h.contains (BPlus.MMap.probe value)
  obtain ⟨lower, hlower, hlowerLeads⟩ := h.lowerBound fuel hfuel (BPlus.MMap.probe value)
  obtain ⟨upper, hupper, hupperLeads⟩ := h.upperBound fuel hfuel (BPlus.MMap.probe value)
  subst hcolumn
  have hread : ¬ table.usesV2Storage = true := by rw [hv1]; exact Bool.false_ne_true
  unfold Table.selectHelp treeRecords
  rw [throwIf_neg (by simp [hknown]), attempt_ok_bind, if_neg hread, hcontains, hlower, hupper]
  by_cases heq : operation = ascii "=" ∧ (table.column fieldName).contains value = true
  · rw [if_pos heq, if_pos heq, if_pos (show operation ∈ relationalTexts by rw [heq.1]; decide)]
    exact ⟨_, mmap_read h heq.2, rfl⟩
  rw [if_neg heq, if_neg heq]
  by_cases hle : operation = ascii "<="
  · rw [if_pos hle, if_pos hle, if_pos (show operation ∈ relationalTexts by rw [hle]; decide)]
    exact ⟨_, getRecordIndices_upto h hfuel (List.dropWhile_suffix _) hupperLeads, rfl⟩
  rw [if_neg hle, if_neg hle]
  by_cases hlt : operation = ascii "<"
  · rw [if_pos hlt, if_pos hlt, if_pos (show operation ∈ relationalTexts by rw [hlt]; decide)]
    exact ⟨_, getRecordIndices_upto h hfuel (List.dropWhile_suffix _) hlowerLeads, rfl⟩
  rw [if_neg hlt, if_neg hlt]
  by_cases hge : operation = ascii ">="
  · rw [if_pos hge, if_pos hge, if_pos (show operation ∈ relationalTexts by rw [hge]; decide)]
    exact ⟨_, getRecordIndices_from h hfuel hlowerLeads, rfl⟩
  rw [if_neg hge, if_neg hge]
  by_cases hgt : operation = ascii ">"
  · rw [if_pos hgt, if_pos hgt, if_pos (show operation ∈ relationalTexts by rw [hgt]; decide)]
    exact ⟨_, getRecordIndices_from h hfuel hupperLeads, rfl⟩
  rw [if_neg hgt, if_neg hgt]
  by_cases hne : operation = ascii "!="
  · rw [if_pos hne, if_pos hne, if_pos (show operation ∈ relationalTexts by rw [hne]; decide)]
    refine ⟨recordIndicesExcept value (table.column fieldName).items, ?_, rfl⟩
    have hscan := h.scan fuel hfuel (by rw [List.append_nil]; exact h.begin) h.ends
    obtain ⟨pairs, hpairs, hitems⟩ := Option.map_eq_some_iff.1 hscan
    rw [hpairs, Option.map_some, recordIndicesExcept, ← hitems, List.flatMap_map]
  · -- an operator that is none of the six, or `=` with a value that no row has
    have hmem : operation ∈ relationalTexts ↔ operation = ascii "=" := by simp [relationalTexts, hle, hlt, hge, hgt, hne]
    rw [if_neg hne, if_neg hne, if_congr hmem rfl rfl]
    exact ⟨[], rfl, rfl⟩

end

/-- **After every run of the multimaps** the comparisons on a tree are those of a v1 table that has its multimap for a
column. -/
theorem lookups_refine (ops : List (MapOp Bytes Nat)) :
    Simulation.Paired (fun f columns => List.Forall₂ (fun t m => ∀ {table : Table} {fieldName : Bytes},
        table.column fieldName = m → table.usesV2Storage = false → table.fieldNameMap.contains fieldName = true →
        ∀ fuel > m.items.length, ∀ (operation value : Bytes) (files : Files),
          ∃ records, treeRecords f fuel t operation value = some records ∧
            table.selectHelp fieldName operation value files =
              ⟨[], .ok (records, if operation ∈ relationalTexts then table.touchColumn fieldName else table)⟩) f.trees
        columns)
      (BPlus.MMap.run .new ops) (Simulation.runSteps Multimaps.step [] ops) := by
  rw [mmap_run]
  refine (mapped_run mmap_lockstep ops).mono (fun f columns hall => hall.imp
    (fun t m h table fieldName hcolumn hv1 hknown fuel
    hfuel operation value files => ?_))
  exact treeRecords_selectHelp h hcolumn hv1 hknown hfuel operation value files

/-- The insertions into the multimap of the second field, which has one value in both rows. -/
def oneColumnOps : List (MapOp Bytes Nat) := [.create, .insert 0 [120] 0, .insert 0 [120] 1]

theorem lookups_refine_oneRows : ∃ (answers : List (Option (List Nat))) (f : Forest (MPair Bytes Nat))
    (t : BPlusTree (MPair Bytes Nat)), BPlus.MMap.run .new oneColumnOps = some (answers, f) ∧ f.trees = [t] ∧
      ∀ (operation value : Bytes) (files : Files), ∃ records table', treeRecords f 2 t operation value = some records ∧
        (Table.filled (ascii "t") oneFields oneRows).selectHelp [98] operation value files =
          ⟨[], .ok (records, table')⟩ := by
  have hsteps : Simulation.runSteps Multimaps.step [] oneColumnOps =
      some ([none, none, none], [Maps.MMap.insert (Maps.MMap.insert .empty [120] 0) [120] 1]) := rfl
  have hcolumn : (Table.filled (ascii "t") oneFields oneRows).column [98] =
      Maps.MMap.insert (Maps.MMap.insert .empty [120] 0) [120] 1 := rfl
  have hpaired := lookups_refine oneColumnOps
  rw [hsteps] at hpaired
  cases hrun : BPlus.MMap.run .new oneColumnOps with
  | none =>
    rw [hrun] at hpaired
    cases hpaired
  | some run =>
    rw [hrun] at hpaired
    obtain ⟨answers, f⟩ := run
    cases hpaired with
    | some hpaired =>
      obtain ⟨-, htrees⟩ := hpaired
      generalize hf : f.trees = trees at htrees
      rcases htrees with _ | ⟨hlookup, ⟨⟩⟩
      refine ⟨answers, f, _, rfl, hf, fun operation value files => ?_⟩
      obtain ⟨records, hrecords, hselect⟩ := hlookup hcolumn rfl rfl 2 (by decide) operation value files
      exact ⟨records, _, hrecords, hselect⟩

end Storage
end Sql
