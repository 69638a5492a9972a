import SqlEngine.Evaluate
/-!
# Projection — headers, values and printed rows

Any tokens at all may be evaluated; what `Eval` returns is then decided record by record (`evalLoop_returned`).  The
headers of a selection are the requested names in the order of the table, with their repetitions, and its values are
collected column by column without them: the two line up exactly when no name is repeated or no record is selected
(`select_labelled_iff`).
-/
namespace Sql
namespace Storage

open Wire Effects Maps Query

/-! ## Evaluations that return -/

theorem satisfies_unknown {operation : Bytes} (h : operation ∉ relationalTexts) (value key : Bytes) :
    satisfies operation value key = false := by
  simp only [relationalTexts, List.mem_cons, List.not_mem_nil, or_false, not_or] at h
  obtain ⟨h1, h2, h3, h4, h5, h6⟩ := h
  rw [satisfies, compareValues, if_neg h5, if_neg h6, if_neg h1, if_neg h3, if_neg h2, if_neg h4]
  rfl

theorem matching_unknown {operation : Bytes} (h : operation ∉ relationalTexts) (rows : List (List Bytes)) (field : Nat)
    (value : Bytes) : matching rows field (satisfies operation value) = [] := by
  rw [matching, List.filter_eq_nil_iff.2 (fun e _ => by rw [satisfies_unknown h]; exact Bool.false_ne_true), List.map_nil]

/-- An unknown operator selects nothing, if it is not refused. -/
theorem matchEntries_returned {operation value : Bytes} (h : operation ∉ relationalTexts) {entries : List Entry}
    {records : List Nat} (hr : matchEntries operation value entries = .ok records) : records = [] := by
  cases entries with
  | nil => exact (Except.ok.inj hr).symm
  | cons entry entries =>
    have hnone : compareValues operation entry.key value = none := by
      simp only [relationalTexts, List.mem_cons, List.not_mem_nil, or_false, not_or] at h
      obtain ⟨h1, h2, h3, h4, h5, h6⟩ := h
      rw [compareValues, if_neg h5, if_neg h6, if_neg h1, if_neg h3, if_neg h2, if_neg h4]
    rw [matchEntries, hnone] at hr
    cases hr

theorem onDisk_run {α : Type} {path : String} {call : Call α} {files : Files} {result : Except StorageError α}
    (h : call (diskAt files path) = ⟨[], result⟩) : onDisk path call files = ⟨[], result⟩ := by
  rw [onDisk, h]
  rfl

/-- **A comparison that returns** has selected the matching records of a known field and changed no file. -/
theorem selectHelp_returned {table table' : Table} {files : Files} (h : table.Valid files) {name operation value : Bytes}
    {es : List FileEffect} {records : List Nat}
    (hr : table.selectHelp name operation value files = ⟨es, .ok (records, table')⟩) : es = [] ∧
      ∃ cache, table' = { table with cache := cache } ∧ table'.Valid files ∧
        records = matching table.storedRows (table.fieldNames.idxOf name) (satisfies operation value) := by
  have hname : name ∈ table.fieldNames := by
    unfold Table.selectHelp at hr
    obtain ⟨_, hknown, -⟩ := attempt_bind_ok.1 hr
    exact (h.contains name).1 (by simpa using throwIf_ok.1 hknown)
  have hfield := getElem?_idxOf hname
  by_cases hop : operation ∈ relationalTexts
  · obtain ⟨cache, hrun, hvalid⟩ := selectHelp_known h hfield hop value
    rw [hrun] at hr
    cases hr
    exact ⟨rfl, cache, rfl, hvalid, rfl⟩
  · have hnone := matching_unknown hop table.storedRows (table.fieldNames.idxOf name) value
    unfold Table.selectHelp at hr
    obtain ⟨_, -, hr⟩ := attempt_bind_ok.1 hr
    by_cases hv2 : table.usesV2Storage = true
    · rw [if_pos hv2] at hr
      obtain ⟨loaded, hopen, hrows, -, hindex⟩ := h.openTable hv2
      have hlookup : table.fieldNameMap.lookup name = some (table.fieldNames.idxOf name) := by
        rw [h.names_at]
        exact (positions_lookup h.nodup name _).2 hfield
      have hquery := queryIndex_run hopen (hindex _ (List.idxOf_lt_length_of_mem hname)) operation value
      obtain ⟨es₁, records', es₂, hdisk, hr, rfl⟩ := run_bind_ok.1 hr
      rw [hlookup, Option.getD_some, onDisk_run hquery] at hdisk
      obtain ⟨rfl, hmatch⟩ : es₁ = [] ∧ matchEntries operation value (sortedIndex table.storedRows
          (table.fieldNames.idxOf name)) = .ok records' :=
        ⟨(congrArg Outcome.effects hdisk).symm, congrArg Outcome.result hdisk⟩
      obtain rfl := matchEntries_returned hop hmatch
      obtain ⟨_, -, hr⟩ := attempt_bind_ok.1 hr
      obtain ⟨hpair, rfl⟩ := return_ok.1 hr
      obtain ⟨rfl, rfl⟩ := Prod.mk.inj hpair
      exact ⟨rfl, table.cache, rfl, h, hnone.symm⟩
    · rw [if_neg hv2] at hr
      simp only [relationalTexts, List.mem_cons, List.not_mem_nil, or_false, not_or] at hop
      obtain ⟨h1, h2, h3, h4, h5, h6⟩ := hop
      simp only [h1, h2, h3, h4, h5, h6, false_and, if_false] at hr
      obtain ⟨hpair, rfl⟩ := return_ok.1 hr
      obtain ⟨rfl, rfl⟩ := Prod.mk.inj hpair
      exact ⟨rfl, table.cache, rfl, h, hnone.symm⟩

/-! ## Record by record -/

/-- `Eval` for one record: the same two stacks, with truth values for the record sets. -/
def judgeLoop (fieldNames row : List Bytes) : List Token → List Bytes → List Bool → Option Bool
  | [], [], [result] => some result
  | [], _, _ => none
  | .tokenStr str :: queue, s, verdicts => judgeLoop fieldNames row queue (str :: s) verdicts
  | .relational operation :: queue, value :: fieldName :: s, verdicts =>
    judgeLoop fieldNames row queue s
      (satisfies operation value (row.getD (fieldNames.idxOf fieldName) []) :: verdicts)
  | .relational _ :: _, _, _ => none
  | .logical operation :: queue, s, first :: second :: verdicts =>
    judgeLoop fieldNames row queue s
      ((if operation = ascii "or" then first || second else operation = ascii "and" && (first && second)) :: verdicts)
  | .logical _ :: _, _, _ => none
  | .leftParen :: queue, s, verdicts => judgeLoop fieldNames row queue s verdicts
  | .rightParen :: queue, s, verdicts => judgeLoop fieldNames row queue s verdicts

/-- The record sets of an evaluation: records of the table, without repetition. -/
def Sets (rows : List (List Bytes)) (indices : List (List Nat)) : Prop :=
  ∀ records ∈ indices, records.Nodup ∧ ∀ record ∈ records, record < rows.length

theorem matching_sets (rows : List (List Bytes)) (field : Nat) (p : Bytes → Bool) {indices : List (List Nat)}
    (h : Sets rows indices) : Sets rows (matching rows field p :: indices) := fun records hr => by
  rcases List.mem_cons.1 hr with rfl | hr
  · exact ⟨matching_nodup rows field p, fun record hrec => matching_lt_length hrec⟩
  · exact h records hr

/-- The record set a logical operator makes. -/
def combine (operation : Bytes) (first second : List Nat) : List Nat :=
  if operation = ascii "or" then Table.myUnion first second
  else if operation = ascii "and" then Table.myIntersection first second else []

theorem combine_spec {rows : List (List Bytes)} {first second : List Nat} {indices : List (List Nat)}
    (h : Sets rows (first :: second :: indices)) (operation : Bytes) :
      Sets rows (combine operation first second :: indices) ∧
      ∀ record, record ∈ combine operation first second ↔ (if operation = ascii "or" then record ∈ first ∨ record ∈ second
        else operation = ascii "and" ∧ record ∈ first ∧ record ∈ second) := by
  obtain ⟨hnd, hlt⟩ := h first List.mem_cons_self
  obtain ⟨hnd', hlt'⟩ := h second (List.mem_cons_of_mem _ List.mem_cons_self)
  have hrest : Sets rows indices := fun records hr => h records (List.mem_cons_of_mem _ (List.mem_cons_of_mem _ hr))
  unfold combine
  by_cases hor : operation = ascii "or"
  · simp only [if_pos hor]
    refine ⟨fun records hr => ?_, fun record => mem_myUnion⟩
    rcases List.mem_cons.1 hr with rfl | hr
    · exact ⟨(myUnion_sorted first second).imp (fun hlt => hlt.ne), fun record hrec =>
        (mem_myUnion.1 hrec).elim (hlt record) (hlt' record)⟩
    · exact hrest records hr
  simp only [if_neg hor]
  by_cases hand : operation = ascii "and"
  · simp only [if_pos hand]
    refine ⟨fun records hr => ?_, fun record => by rw [mem_myIntersection hnd hnd']; simp [hand]⟩
    rcases List.mem_cons.1 hr with rfl | hr
    · exact ⟨(myIntersection_sorted hnd second).imp (fun hlt => hlt.ne), fun record hrec =>
        hlt record ((mem_myIntersection hnd hnd').1 hrec).1⟩
    · exact hrest records hr
  · simp only [if_neg hand]
    refine ⟨fun records hr => ?_, fun record => by simp [hand]⟩
    rcases List.mem_cons.1 hr with rfl | hr
    · exact ⟨List.nodup_nil, fun record hrec => by cases hrec⟩
    · exact hrest records hr

/-- **An evaluation that returns** has decided every record by itself. -/
theorem evalLoop_returned {files : Files} : ∀ {queue : List Token} {s : List Bytes} {indices : List (List Nat)}
    {table table' : Table} {es : List FileEffect} {records : List Nat}, table.Valid files → Sets table.storedRows indices →
    Table.evalLoop queue s indices table files = ⟨es, .ok (records, table')⟩ → es = [] ∧
      (∃ cache, table' = { table with cache := cache }) ∧ table'.Valid files ∧ (∀ r ∈ records, r < table.storedRows.length) ∧
      ∀ record row, table.storedRows[record]? = some row → judgeLoop table.fieldNames row queue s
        (indices.map (fun records => decide (record ∈ records))) = some (decide (record ∈ records)) := by
  intro queue
  induction queue with
  | nil =>
    intro s indices table table' es records h hsets hr
    cases s with
    | cons str s =>
      rw [Table.evalLoop] at hr
      · cases (attempt_ok.1 hr).1
      · simp
    | nil =>
      rcases indices with _ | ⟨result, _ | ⟨second, indices⟩⟩
      · rw [Table.evalLoop] at hr
        · cases (attempt_ok.1 hr).1
        · simp
      · rw [Table.evalLoop] at hr
        obtain ⟨hpair, rfl⟩ := return_ok.1 hr
        obtain ⟨rfl, rfl⟩ := Prod.mk.inj hpair
        exact ⟨rfl, ⟨table.cache, rfl⟩, h, (hsets result List.mem_cons_self).2, fun record row _ => rfl⟩
      · rw [Table.evalLoop] at hr
        · cases (attempt_ok.1 hr).1
        · simp
  | cons token queue ih =>
    intro s indices table table' es records h hsets hr
    cases token with
    | tokenStr str =>
      rw [Table.evalLoop] at hr
      exact ih h hsets hr
    | leftParen =>
      rw [Table.evalLoop] at hr
      exact ih h hsets hr
    | rightParen =>
      rw [Table.evalLoop] at hr
      exact ih h hsets hr
    | relational operation =>
      rcases s with _ | ⟨value, _ | ⟨name, s⟩⟩
      · rw [Table.evalLoop] at hr
        · cases (attempt_ok.1 hr).1
        · simp
      · rw [Table.evalLoop] at hr
        · cases (attempt_ok.1 hr).1
        · simp
      · rw [Table.evalLoop] at hr
        obtain ⟨es₁, ⟨selected, table₁⟩, es₂, hselect, hrest, rfl⟩ := run_bind_ok.1 hr
        obtain ⟨rfl, cache, rfl, hvalid, rfl⟩ := selectHelp_returned h hselect
        obtain ⟨rfl, ⟨cache', hcache'⟩, hvalid', hlt, hjudge⟩ := ih hvalid (matching_sets _ _ _ hsets) hrest
        refine ⟨rfl, ⟨cache', hcache'⟩, hvalid', hlt, fun record row hrow => ?_⟩
        rw [judgeLoop, ← hjudge record row hrow, List.map_cons]
        congr 2
        rw [Bool.eq_iff_iff, decide_eq_true_eq, mem_matching]
        constructor
        · exact fun hsat => ⟨row, hrow, hsat⟩
        · rintro ⟨row', hrow', hsat⟩
          obtain rfl : row = row' := Option.some.inj (hrow.symm.trans hrow')
          exact hsat
    | logical operation =>
      rcases indices with _ | ⟨first, _ | ⟨second, indices⟩⟩
      · rw [Table.evalLoop] at hr
        · cases (attempt_ok.1 hr).1
        · simp
      · rw [Table.evalLoop] at hr
        · cases (attempt_ok.1 hr).1
        · simp
      · rw [Table.evalLoop] at hr
        obtain ⟨hsets', hmem⟩ := combine_spec hsets operation
        obtain ⟨rfl, hcache, hvalid, hlt, hjudge⟩ := ih h hsets' hr
        refine ⟨rfl, hcache, hvalid, hlt, fun record row hrow => ?_⟩
        rw [List.map_cons, List.map_cons, judgeLoop, ← hjudge record row hrow, List.map_cons]
        congr 2
        rw [Bool.eq_iff_iff, decide_eq_true_eq, hmem]
        by_cases hor : operation = ascii "or"
        · simp [hor]
        · simp [hor]

/-- A record meets a postfix condition; the empty condition is no condition. -/
def meets (fieldNames row : List Bytes) (postfixQueue : List Token) : Bool :=
  decide (postfixQueue = [] ∨ judgeLoop fieldNames row postfixQueue [] [] = some true)

/-- For the postfix form of a formula that is what the formula says. -/
theorem judgeLoop_formula (fieldNames row : List Bytes) (φ : Formula) : ∀ (rest : List Token) (s : List Bytes)
    (verdicts : List Bool), judgeLoop fieldNames row (φ.toPostfix ++ rest) s verdicts =
      judgeLoop fieldNames row rest s (φ.holds fieldNames row :: verdicts) := by
  induction φ with
  | compare field operation value => exact fun rest s verdicts => rfl
  | and left right ihl ihr =>
    intro rest s verdicts
    rw [Formula.toPostfix, List.append_assoc, List.append_assoc, ihl, ihr, List.singleton_append, judgeLoop,
      if_neg (by decide), Formula.holds, decide_eq_true rfl, Bool.true_and, Bool.and_comm]
  | or left right ihl ihr =>
    intro rest s verdicts
    rw [Formula.toPostfix, List.append_assoc, List.append_assoc, ihl, ihr, List.singleton_append, judgeLoop, if_pos rfl,
      Formula.holds, Bool.or_comm]

/-! ## Columns of a selection -/

/-- The value of a record in a column. -/
def cell (fieldNames row : List Bytes) (name : Bytes) : Bytes := row.getD (fieldNames.idxOf name) []

/-- The values of one record, in the order of the table. -/
theorem collectRow_eq {fieldNames : List Bytes} (hnd : fieldNames.Nodup) (p : Bytes → Bool) : ∀ {row : List Bytes},
    row.length = fieldNames.length →
    ((row.zip fieldNames).filter (fun value => p value.2)).map Prod.fst =
      (fieldNames.filter p).map (cell fieldNames row) := by
  induction fieldNames with
  | nil =>
    intro row hlen
    simp
  | cons name names ih =>
    intro row hlen
    obtain ⟨hname, hnames⟩ := List.nodup_cons.1 hnd
    cases row with
    | nil => cases hlen
    | cons value row =>
      have htail : (names.filter p).map (cell (name :: names) (value :: row)) = (names.filter p).map (cell names row) := by
        refine List.map_congr_left (fun other hother => ?_)
        have hne : name ≠ other := fun heq => hname (heq ▸ (List.mem_filter.1 hother).1)
        rw [cell, List.idxOf_cons_ne _ hne]
        rfl
      have hhead : cell (name :: names) (value :: row) name = value := by
        rw [cell, List.idxOf_cons_self]
        rfl
      rw [List.zip_cons_cons, List.filter_cons, List.filter_cons]
      have ih' := ih hnames (by simpa using hlen : row.length = names.length)
      by_cases hp : p name = true
      · rw [if_pos hp, if_pos hp, List.map_cons, List.map_cons, ih', hhead, htail]
      · rw [if_neg hp, if_neg hp, ih', htail]

/-- The values of the selected records, one after another. -/
theorem collect_eq {table : Table} {files : Files} (h : table.Valid files) (names : List Bytes) : ∀ {indices : List Nat},
    (∀ r ∈ indices, r < table.storedRows.length) → table.collect names indices =
      .ok (indices.flatMap (fun r => (table.fieldNames.filter (fun name => decide (name ∈ names))).map
        (cell table.fieldNames (table.storedRows.getD r []))))
  | [], _ => rfl
  | index :: indices, hlt => by
    have hindex := hlt index List.mem_cons_self
    have hrow : table.storedRows[index]? = some (table.storedRows.getD index []) := by
      rw [List.getD_eq_getElem?_getD, List.getElem?_eq_getElem hindex]
      rfl
    rw [Table.collect, hrow, List.flatMap_cons]
    simp only [collect_eq h names (fun r hr => hlt r (List.mem_cons_of_mem index hr)), bind, Except.bind, pure, Except.pure]
    rw [collectRow_eq h.nodup (fun name => decide (name ∈ names)) (h.arity _ (List.mem_of_getElem? hrow))]

/-! ## Headers -/

theorem lookup_idxOf {table : Table} {files : Files} (h : table.Valid files) {name : Bytes}
    (hname : name ∈ table.fieldNames) :
    table.fieldNameMap.lookup name = some (table.fieldNames.idxOf name) := by
  rw [h.names_at]
  exact (positions_lookup h.nodup name _).2 (getElem?_idxOf hname)

/-- The headers are the requested names, ordered by their positions. -/
theorem permutateFields_spec {table : Table} {files : Files} (h : table.Valid files) {chosen : List Bytes}
    (hknown : ∀ name ∈ chosen, name ∈ table.fieldNames) : (table.permutateFields chosen).Perm chosen ∧
      ((table.permutateFields chosen).map table.fieldNames.idxOf).Pairwise (· ≤ ·) := by
  have hinvalid : chosen.zipIdx.filter (fun field => !table.fieldNameMap.contains field.1) = [] := by
    rw [List.filter_eq_nil_iff]
    rintro ⟨name, i⟩ hmem
    have hname := hknown name (List.fst_mem_of_mem_zipIdx hmem)
    simp [(h.contains name).2 hname]
  have hpairs : chosen.zip (chosen.map (fun field => (table.fieldNameMap.lookup field).getD 0)) =
      chosen.map (fun name => (name, table.fieldNames.idxOf name)) := by
    have hzip : (chosen.map id).zip (chosen.map (fun field => (table.fieldNameMap.lookup field).getD 0)) = _ := List.zip_map'
    rw [List.map_id] at hzip
    rw [hzip]
    refine List.map_congr_left (fun name hname => ?_)
    rw [lookup_idxOf h (hknown name hname)]
    rfl
  unfold Table.permutateFields
  simp only [hinvalid, List.map_nil, List.foldl_nil, hpairs]
  have hperm := List.perm_insertionSort (fun a b : Bytes × Nat => a.2 ≤ b.2)
    (chosen.map (fun name => (name, table.fieldNames.idxOf name)))
  constructor
  · refine (hperm.map Prod.fst).trans ?_
    rw [List.map_map]
    exact List.Perm.of_eq (List.map_id _)
  · have hsnd : ∀ pair ∈ (chosen.map (fun name => (name, table.fieldNames.idxOf name))).insertionSort
        (fun a b : Bytes × Nat => a.2 ≤ b.2), table.fieldNames.idxOf pair.1 = pair.2 := fun pair hpair => by
      obtain ⟨name, -, rfl⟩ := List.mem_map.1 (hperm.mem_iff.1 hpair)
      rfl
    have hmap : _ = List.map Prod.snd _ := List.map_congr_left (f := table.fieldNames.idxOf ∘ Prod.fst) hsnd
    rw [List.map_map, hmap, List.pairwise_map]
    have : Std.Total (fun a b : Bytes × Nat => a.2 ≤ b.2) := ⟨fun a b => le_total a.2 b.2⟩
    have : IsTrans (Bytes × Nat) (fun a b => a.2 ≤ b.2) := ⟨fun a b c => le_trans⟩
    exact List.pairwise_insertionSort _ _

theorem map_idxOf {names : List Bytes} (h : names.Nodup) : names.map names.idxOf = List.range names.length := by
  refine List.ext_getElem (by simp) (fun i h1 h2 => ?_)
  rw [List.getElem_map, List.getElem_range, h.idxOf_getElem]

/-- Known names are determined by their positions. -/
theorem eq_of_map_idxOf {names as bs : List Bytes} (ha : ∀ a ∈ as, a ∈ names) (hb : ∀ b ∈ bs, b ∈ names)
    (h : as.map names.idxOf = bs.map names.idxOf) : as = bs := by
  have hback : ∀ {cs : List Bytes}, (∀ c ∈ cs, c ∈ names) → (cs.map names.idxOf).map (fun i => names.getD i []) = cs := by
    intro cs hcs
    rw [List.map_map]
    refine (List.map_congr_left (fun c hc => ?_)).trans (List.map_id cs)
    rw [Function.comp_apply, List.getD_eq_getElem?_getD, getElem?_idxOf (hcs c hc)]
    rfl
  rw [← hback ha, ← hback hb, h]

/-- **Without repetition the headers are the named columns**, in the order of the table. -/
theorem permutateFields_nodup {table : Table} {files : Files} (h : table.Valid files) {chosen : List Bytes}
    (hknown : ∀ name ∈ chosen, name ∈ table.fieldNames) (hnd : chosen.Nodup) :
    table.permutateFields chosen = table.fieldNames.filter (fun name => decide (name ∈ chosen)) := by
  obtain ⟨hperm, hsorted⟩ := permutateFields_spec h hknown
  have hperm' : (table.fieldNames.filter (fun name => decide (name ∈ chosen))).Perm chosen := by
    refine (List.perm_ext_iff_of_nodup (h.nodup.filter _) hnd).2 (fun name => ?_)
    rw [List.mem_filter, decide_eq_true_eq]
    exact ⟨fun hm => hm.2, fun hm => ⟨hknown name hm, hm⟩⟩
  refine eq_of_map_idxOf (fun a ha => hknown a (hperm.mem_iff.1 ha)) (fun b hb => (List.mem_filter.1 hb).1) ?_
  refine BTree.eq_of_perm_of_sorted ((hperm.trans hperm'.symm).map _) hsorted ?_
  have hrange : (table.fieldNames.map table.fieldNames.idxOf).Pairwise (· ≤ ·) := by
    rw [map_idxOf h.nodup]
    exact List.pairwise_le_range
  exact hrange.sublist (List.filter_sublist.map _)

/-! ## Selections that return -/

theorem forM_ok {α : Type} {f : α → Except StorageError Unit} : ∀ {l : List α} {u : Unit}, l.forM f = .ok u →
    ∀ a ∈ l, f a = .ok ()
  | a :: l, u, h, b, hb => by
    obtain ⟨_, ha, hl⟩ := except_bind_ok.1 (show f a >>= (fun _ => l.forM f) = .ok u from h)
    rcases List.mem_cons.1 hb with rfl | hb
    · exact ha
    · exact forM_ok hl b hb

/-- The columns a projection asks for. -/
def chosenFields (fieldNames selected : List Bytes) : List Bytes :=
  if selected = [] ∨ selected.head? = some (ascii "*") then fieldNames else selected

theorem chosenFields_known {table : Table} {files : Files} (h : table.Valid files) {selected : List Bytes}
    (hvalid : table.validateProjection selected = .ok ()) :
    ∀ name ∈ chosenFields table.fieldNames selected, name ∈ table.fieldNames := by
  intro name hname
  unfold chosenFields at hname
  by_cases hall : selected = [] ∨ selected.head? = some (ascii "*")
  · rwa [if_pos hall] at hname
  · rw [if_neg hall] at hname
    unfold Table.validateProjection at hvalid
    rw [if_neg (fun hc => hall (hc.imp id (fun hs => by rw [hs]; rfl)))] at hvalid
    have := throwIf_ok.1 (forM_ok hvalid name hname)
    exact (h.contains name).1 (by simpa using this)

/-- **What a selection returns**: the headers by position, the records that meet the condition, and their values in the
named columns. -/
theorem select_returned {table result table' : Table} {files : Files} (h : table.Valid files) {selected : List Bytes}
    {postfixQueue : List Token} {es : List FileEffect}
    (hr : table.select selected postfixQueue files = ⟨es, .ok (result, table')⟩) : es = [] ∧
      table.validateProjection selected = .ok () ∧
      result.fieldNames = table.permutateFields (chosenFields table.fieldNames selected) ∧
      (∀ r ∈ result.recordIndices, r < table.storedRows.length) ∧
      (∀ record row, table.storedRows[record]? = some row →
        (record ∈ result.recordIndices ↔ meets table.fieldNames row postfixQueue = true)) ∧
      result.printQueue = result.recordIndices.flatMap (fun r =>
        (table.fieldNames.filter (fun name => decide (name ∈ result.fieldNames))).map
          (cell table.fieldNames (table.storedRows.getD r []))) := by
  unfold Table.select at hr
  obtain ⟨_, hvalidate, hr1⟩ := attempt_bind_ok.1 hr
  rw [chosenFields]
  generalize (if selected = [] ∨ selected.head? = some (ascii "*") then table.fieldNames else selected) = chosen at hr1 ⊢
  have hselected : ({ table with selectedFields := chosen } : Table).Valid files :=
    ⟨h.nodup, h.names_at, h.arity, h.count, h.on_file, h.in_cache⟩
  by_cases hempty : postfixQueue = []
  · -- no condition: all records
    subst hempty
    rw [if_neg (by simp)] at hr1
    obtain ⟨es₁, _, es₂, hall, hr2, rfl⟩ := run_bind_ok.1 hr1
    obtain ⟨rfl, rfl⟩ := return_ok.1 hall
    obtain ⟨values, hvalues, hr3⟩ := attempt_bind_ok.1 hr2
    obtain ⟨hpair, rfl⟩ := return_ok.1 hr3
    obtain ⟨rfl, rfl⟩ := Prod.mk.inj hpair
    have hlt : ∀ r ∈ List.range table.numRecords, r < table.storedRows.length := fun r hrange => by
      rw [← h.count]
      exact List.mem_range.1 hrange
    have hcollect := collect_eq hselected (table.permutateFields chosen) hlt
    refine ⟨rfl, hvalidate, rfl, hlt, fun record row hrow => ?_, Except.ok.inj (hvalues.symm.trans hcollect)⟩
    rw [List.mem_range, h.count]
    exact iff_of_true (lt_of_getElem?_some hrow) (by simp [meets])
  · rw [if_pos hempty] at hr1
    obtain ⟨es₁, ⟨indices, table₁⟩, es₂, heval, hr2, rfl⟩ := run_bind_ok.1 hr1
    obtain ⟨values, hvalues, hr3⟩ := attempt_bind_ok.1 hr2
    obtain ⟨hpair, rfl⟩ := return_ok.1 hr3
    obtain ⟨rfl, rfl⟩ := Prod.mk.inj hpair
    obtain ⟨rfl, ⟨cache, rfl⟩, hvalid, hlt, hjudge⟩ :=
      evalLoop_returned hselected (fun records hrec => by cases hrec) heval
    have hcollect := collect_eq hvalid (table.permutateFields chosen) hlt
    refine ⟨rfl, hvalidate, rfl, hlt, fun record row hrow => ?_, Except.ok.inj (hvalues.symm.trans hcollect)⟩
    have hone := hjudge record row hrow
    simp only [List.map_nil] at hone
    rw [meets, decide_eq_true_eq, hone, or_iff_right hempty, Option.some.injEq, decide_eq_true_eq]

/-! ## Rectangles -/

theorem getElem?_flatMap_const {α β : Type} {f : α → List β} {m : Nat} : ∀ {l : List α} {i j : Nat} {a : α},
    (∀ a ∈ l, (f a).length = m) → j < m → l[i]? = some a → (l.flatMap f)[i * m + j]? = (f a)[j]?
  | b :: l, 0, j, a, h, hj, ha => by
    obtain rfl : b = a := Option.some.inj ha
    rw [List.flatMap_cons, Nat.zero_mul, Nat.zero_add,
      List.getElem?_append_left (by rw [h b List.mem_cons_self]; exact hj)]
  | b :: l, i + 1, j, a, h, hj, ha => by
    have hb := h b List.mem_cons_self
    rw [List.flatMap_cons, List.getElem?_append_right (by rw [hb, Nat.add_mul]; omega), hb,
      show (i + 1) * m + j - m = i * m + j by rw [Nat.add_mul]; omega]
    exact getElem?_flatMap_const (fun c hc => h c (List.mem_cons_of_mem b hc)) hj (by simpa using ha)

/-- What is printed behind the first value of a line. -/
theorem printLoop_line {m i : Nat} (rest : List Bytes) : ∀ {values : List Bytes} {j : Nat}, 0 < j →
    j + values.length ≤ m → Table.printLoop m (i * m + j) (values ++ rest) =
      values.flatMap Table.padded ++ Table.printLoop m (i * m + (j + values.length)) rest
  | [], j, _, _ => rfl
  | value :: values, j, hj, hle => by
    rw [List.length_cons] at hle
    have hmod : (i * m + j) % m ≠ 0 := by
      rw [Nat.mul_comm, Nat.mul_add_mod, Nat.mod_eq_of_lt (by omega)]
      omega
    rw [List.cons_append, Table.printLoop, if_neg hmod, List.nil_append, show i * m + j + 1 = i * m + (j + 1) by omega,
      printLoop_line rest (by omega) (by omega), List.flatMap_cons, List.append_assoc, List.length_cons,
      show j + 1 + values.length = j + (values.length + 1) by omega]

/-- **One line for each row of values.** -/
theorem printLoop_rows {α : Type} {f : α → List Bytes} {m : Nat} (hm : 0 < m) : ∀ {l : List α} (i : Nat),
    (∀ a ∈ l, (f a).length = m) → Table.printLoop m (i * m) (l.flatMap f) =
      (l.zipIdx i).flatMap (fun a => 10 :: Table.padded (ascii (toString a.2)) ++ (f a.1).flatMap Table.padded)
  | [], _, _ => rfl
  | a :: l, i, h => by
    have ha := h a List.mem_cons_self
    cases hf : f a with
    | nil =>
      rw [hf] at ha
      simp at ha
      omega
    | cons value values =>
      rw [hf, List.length_cons] at ha
      rw [List.flatMap_cons, hf, List.cons_append, Table.printLoop, if_pos (Nat.mul_mod_left i m),
        Nat.mul_div_cancel _ hm, printLoop_line _ (by omega) (by omega), show i * m + (1 + values.length) = (i + 1) * m by
          rw [Nat.add_mul]; omega,
        printLoop_rows hm (i + 1) (fun b hb => h b (List.mem_cons_of_mem a hb)), List.zipIdx_cons, List.flatMap_cons, hf,
        List.flatMap_cons]
      simp only [List.append_assoc, List.cons_append]

/-- **The result is a rectangle under its headers**: one value for each record and header, the stored one, and printed on
the line of its record. -/
structure Labelled (fieldNames : List Bytes) (rows : List (List Bytes)) (result : Table) : Prop where
  count : result.printQueue.length = result.fieldNames.length * result.recordIndices.length
  value_at : ∀ (i j : Nat) (record : Nat) (row : List Bytes) (name : Bytes), result.recordIndices[i]? = some record →
    rows[record]? = some row → result.fieldNames[j]? = some name →
    result.printQueue[i * result.fieldNames.length + j]? = some (cell fieldNames row name)
  printed : result.fieldNames ≠ [] → result.print =
    Table.padded (ascii "record") ++ result.fieldNames.flatMap Table.padded ++ result.recordIndices.zipIdx.flatMap
      (fun record => 10 :: Table.padded (ascii (toString record.2)) ++
        result.fieldNames.flatMap (fun name => Table.padded (cell fieldNames (rows.getD record.1 []) name)))

/-- Columns without repetition make a rectangle. -/
theorem labelled_of_columns {fieldNames : List Bytes} {rows : List (List Bytes)} {result : Table}
    (hqueue : result.printQueue = result.recordIndices.flatMap (fun r =>
      result.fieldNames.map (cell fieldNames (rows.getD r [])))) : Labelled fieldNames rows result where
  count := by
    rw [hqueue, length_flatMap_block (fun r _ => List.length_map _), Nat.mul_comm]
  value_at i j record row name hi hrow hj := by
    have hjlt := lt_of_getElem?_some hj
    have hgetD : rows.getD record [] = row := by rw [List.getD_eq_getElem?_getD, hrow]; rfl
    rw [hqueue, getElem?_flatMap_const (fun r _ => List.length_map _) hjlt hi, List.getElem?_map, hj, hgetD]
    rfl
  printed hne := by
    have hm : 0 < result.fieldNames.length := List.length_pos_iff.2 hne
    rw [Table.print, hqueue, ← Nat.zero_mul result.fieldNames.length,
      printLoop_rows hm 0 (fun r _ => List.length_map _)]
    simp only [List.flatMap_map, Nat.zero_mul]

/-- Columns collected for a name that is repeated are fewer than the headers. -/
theorem nodup_of_length {fieldNames names : List Bytes} (hnd : fieldNames.Nodup) (hknown : ∀ name ∈ names, name ∈ fieldNames)
    (hlen : (fieldNames.filter (fun name => decide (name ∈ names))).length = names.length) : names.Nodup := by
  have hperm : (fieldNames.filter (fun name => decide (name ∈ names))).Perm names.dedup := by
    refine (List.perm_ext_iff_of_nodup (hnd.filter _) names.nodup_dedup).2 (fun name => ?_)
    rw [List.mem_filter, decide_eq_true_eq, List.mem_dedup]
    exact ⟨fun hm => hm.2, fun hm => ⟨hknown name hm, hm⟩⟩
  have heq := (List.dedup_sublist names).eq_of_length (by rw [← hperm.length_eq, hlen])
  rw [← heq]
  exact names.nodup_dedup

/-- **A selection is labelled correctly exactly when** no requested name is repeated, all columns are selected, or no
record meets the condition. -/
theorem select_labelled_iff {table result table' : Table} {files : Files} (h : table.Valid files) {selected : List Bytes}
    {postfixQueue : List Token} {es : List FileEffect}
    (hr : table.select selected postfixQueue files = ⟨es, .ok (result, table')⟩) :
    Labelled table.fieldNames table.storedRows result ↔ selected.Nodup ∨ selected.head? = some (ascii "*") ∨
      ∀ row ∈ table.storedRows, meets table.fieldNames row postfixQueue = false := by
  obtain ⟨-, hvalidate, hnames, hlt, hmeets, hqueue⟩ := select_returned h hr
  have hknown := chosenFields_known h hvalidate
  obtain ⟨hperm, -⟩ := permutateFields_spec h hknown
  rw [← hnames] at hperm
  have hchosen : selected.Nodup ∨ selected.head? = some (ascii "*") → (chosenFields table.fieldNames selected).Nodup := by
    intro hor
    unfold chosenFields
    by_cases hall : selected = [] ∨ selected.head? = some (ascii "*")
    · rw [if_pos hall]
      exact h.nodup
    · rw [if_neg hall]
      exact hor.resolve_right (fun hs => hall (Or.inr hs))
  constructor
  · intro hlab
    by_contra hnot
    rw [not_or, not_or] at hnot
    obtain ⟨hnd, hstar, hsome⟩ := hnot
    have hsel : chosenFields table.fieldNames selected = selected := by
      unfold chosenFields
      rw [if_neg]
      rintro (rfl | hs)
      · exact hnd List.nodup_nil
      · exact hstar hs
    rw [hsel] at hperm
    obtain ⟨row, hrow, hmeet⟩ : ∃ row ∈ table.storedRows, meets table.fieldNames row postfixQueue ≠ false := by
      by_contra hall
      exact hsome (fun row hrow => by_contra (fun hmeet => hall ⟨row, hrow, hmeet⟩))
    obtain ⟨record, hrecord⟩ := List.getElem?_of_mem hrow
    have hmem := (hmeets record row hrecord).2 (by simpa using hmeet)
    have hpos : 0 < result.recordIndices.length := List.length_pos_of_mem hmem
    have hcount := hlab.count
    rw [hqueue, length_flatMap_block (fun r _ => List.length_map _), Nat.mul_comm] at hcount
    have hlen := Nat.eq_of_mul_eq_mul_right hpos hcount
    have hknown' : ∀ name ∈ result.fieldNames, name ∈ table.fieldNames := fun name hname =>
      hknown name (by rw [hsel]; exact hperm.mem_iff.1 hname)
    exact hnd (hperm.nodup_iff.1 (nodup_of_length h.nodup hknown' hlen))
  · intro hor
    rcases or_assoc.2 hor with hcolumns | hnone
    · -- the headers are the collected columns
      have hfilter : table.fieldNames.filter (fun name => decide (name ∈ result.fieldNames)) = result.fieldNames := by
        refine Eq.trans ?_ ((permutateFields_nodup h hknown (hchosen hcolumns)).symm.trans hnames.symm)
        exact List.filter_congr (fun name _ => decide_eq_decide.2 hperm.mem_iff)
      rw [hfilter] at hqueue
      exact labelled_of_columns hqueue
    · have hempty : result.recordIndices = [] := List.eq_nil_iff_forall_not_mem.2 (fun record hrecord => by
        have hrow := List.getElem?_eq_getElem (hlt record hrecord)
        have hmeet := (hmeets record _ hrow).1 hrecord
        rw [hnone _ (List.getElem_mem _)] at hmeet
        cases hmeet)
      exact labelled_of_columns (by rw [hqueue, hempty]; rfl)

/-- `select a, a` on a table with one record: two headers, one value. -/
theorem select_repeated_unlabelled : ∃ result table', (Table.filled (ascii "t") [ascii "a"] [[ascii "x"]]).select
    [ascii "a", ascii "a"] [] (fun _ => none) = ⟨[], .ok (result, table')⟩ ∧
    ¬ Labelled [ascii "a"] [[ascii "x"]] result := by
  refine ⟨_, _, rfl, fun h => ?_⟩
  exact absurd h.count (by decide)

/-- `select b, a` where `b` is one of two fields, on the rows that hold `x` there. -/
theorem select_labelled_iff_oneRows : ∃ result table', (Table.filled (ascii "t") oneFields oneRows).select [[98], [97]]
      [.tokenStr [98], .tokenStr [120], .relational (ascii "=")] (fun _ => none) = ⟨[], .ok (result, table')⟩ ∧
    result.recordIndices = [0, 1] ∧ Labelled oneFields oneRows result := by
  have hvalid : (Table.filled (ascii "t") oneFields oneRows).Valid (fun _ => none) :=
    filled_valid (ascii "t") (by decide) (by decide) _
  obtain ⟨result, table', hrun, hrecords⟩ : ∃ result table', (Table.filled (ascii "t") oneFields oneRows).select [[98], [97]]
      [.tokenStr [98], .tokenStr [120], .relational (ascii "=")] (fun _ => none) = ⟨[], .ok (result, table')⟩ ∧
      result.recordIndices = [0, 1] := ⟨_, _, rfl, by decide⟩
  exact ⟨result, table', hrun, hrecords, (select_labelled_iff hvalid hrun).2 (Or.inl (by decide))⟩

end Storage
end Sql
