import SqlEngine.Crash
/-!
# Accepted — inserting into any image that parses

The validator accepts more images than the code writes: a chain may hold short and empty pages.  On an accepted image an
insert refuses the row, the generation or one of the two heads it patches (`InsertRefusal`), or the image is one an insert
can extend (`insertRowPages_accepted`), and then everything that is known about images the code wrote applies.
-/
namespace Sql
namespace Storage

open Wire BTree Blocks Effects

/-! ## The directory in its first page -/

/-- A part of the roots reads as all of them, or breaks off. -/
theorem many_u32_front (context : String) : ∀ {roots : List Nat} {payload rest : Bytes}, (∀ r ∈ roots, r < 2 ^ 32) →
    payload ++ rest = roots.flatMap (le 4) →
    (rest = [] ∧ many (u32 context) roots.length payload = .ok (roots, [])) ∨
      many (u32 context) roots.length payload = .error (partialRecord context)
  | [], payload, rest, _, h => by
    obtain ⟨rfl, rfl⟩ := List.append_eq_nil_iff.1 h
    exact Or.inl ⟨rfl, rfl⟩
  | root :: roots, payload, rest, hr, h => by
    by_cases hlen : payload.length < 4
    · right
      have hshort : u32 context payload = .error (partialRecord context) := by
        simp [u32, num, take, hlen, Bind.bind, StateT.bind, Except.bind]
      simp [many, Bind.bind, StateT.bind, Except.bind, hshort]
    · obtain ⟨front, payload, rfl, hfront⟩ : ∃ front payload', payload = front ++ payload' ∧ front.length = 4 :=
        ⟨payload.take 4, payload.drop 4, (List.take_append_drop 4 payload).symm, by rw [List.length_take]; omega⟩
      rw [List.flatMap_cons, List.append_assoc] at h
      obtain ⟨rfl, hpayload⟩ := List.append_inj h (hfront.trans (length_le 4 root).symm)
      have hread := (reads_u32 context).intro root payload (hr root List.mem_cons_self)
      have hrest := many_u32_front context (fun r hm => hr r (List.mem_cons_of_mem root hm)) hpayload
      rw [List.length_cons, many, run_bind hread]
      rcases hrest with ⟨rfl, hmany⟩ | hmany
      · exact Or.inl ⟨rfl, by rw [run_bind hmany]; rfl⟩
      · right
        simp [Bind.bind, StateT.bind, Except.bind, hmany]

/-- The first page of a directory holds all of it, or reading it breaks off. -/
theorem directoryRoots_front {roots : List Nat} {payload rest : Bytes} (hn : roots.length < 2 ^ 32)
    (hr : ∀ r ∈ roots, r < 2 ^ 32) (h : payload ++ rest = directoryBytes roots) :
    rest = [] ∨ readAll (directoryRoots roots.length) payload = .error (partialRecord "index directory") ∧
      payload.length < 4 + 4 * roots.length := by
  have hlength : (directoryBytes roots).length = 4 + 4 * roots.length := length_directoryBytes roots
  by_cases hrest : rest = []
  · exact Or.inl hrest
  have hlt : payload.length < 4 + 4 * roots.length := by
    have := List.length_pos_iff.2 hrest
    rw [← hlength, ← h, List.length_append]
    omega
  refine Or.inr ⟨?_, hlt⟩
  by_cases hlen : payload.length < 4
  · simp [readAll, directoryRoots, u32, num, take, hlen, Bind.bind, StateT.bind, Except.bind]
  · obtain ⟨front, payload, rfl, hfront⟩ : ∃ front payload', payload = front ++ payload' ∧ front.length = 4 :=
      ⟨payload.take 4, payload.drop 4, (List.take_append_drop 4 payload).symm, by rw [List.length_take]; omega⟩
    rw [directoryBytes, List.append_assoc] at h
    obtain ⟨rfl, hpayload⟩ := List.append_inj h (hfront.trans (length_le 4 _).symm)
    have hmany := (many_u32_front "index directory" hr hpayload).resolve_left (fun hall => hrest hall.1)
    have hread := (reads_u32 "index directory").intro roots.length payload hn
    rw [readAll, directoryRoots, run_bind hread, run_bind (run_refuseIf (by simp) _), hmany]
    rfl

/-! ## What an insert refuses -/

/-- **What an insert may throw on an image that parses**: the row or the generation is at fault, or a head is too short to
be patched. -/
inductive InsertRefusal (parsed : ParsedImage) (row : List Bytes) : StorageError → Prop where
  | arity (h : row.length ≠ parsed.table.fields.length) : InsertRefusal parsed row (.invalidArgument
      ("Expected " ++ toString parsed.table.fields.length ++ " values, received " ++ toString row.length))
  | value (h : ∃ v ∈ row, v.length > maxValueLength) :
      InsertRefusal parsed row (.lengthError "Values must not exceed 100 bytes")
  | generation (h : parsed.table.inspection.generation = 2 ^ 64 - 1) :
      InsertRefusal parsed row (.overflowError "Database generation is exhausted")
  | rowHead (h : ∃ page ∈ parsed.pages, page.type = .rows ∧ page.payload.length < 8) :
      InsertRefusal parsed row (.logicError "u64 write exceeds payload")
  | directoryHead (h : ∃ page ∈ parsed.pages, page.type = .indexDirectory ∧
      page.payload.length < 4 + 4 * parsed.table.fields.length) :
      InsertRefusal parsed row (.corruption (partialRecord "index directory"))

theorem validateValues_error {e : StorageError} : ∀ {values : List Bytes}, validateValues values = .error e →
    e = .lengthError "Values must not exceed 100 bytes" ∧ ∃ v ∈ values, v.length > maxValueLength
  | [], h => by cases h
  | value :: values, h => by
    rw [validateValues] at h
    rcases except_bind_error.1 h with h | ⟨_, -, h⟩
    · obtain ⟨hlong, rfl⟩ := throwIf_error.1 h
      exact ⟨rfl, value, List.mem_cons_self, hlong⟩
    · obtain ⟨rfl, v, hv, hlong⟩ := validateValues_error h
      exact ⟨rfl, v, List.mem_cons_of_mem value hv, hlong⟩

/-- The checks in front of the pages throw, or the row and the generation fit. -/
theorem insertRowPages_checks {L : Layout} {pages : List Page} (h : L.On pages) (row : List Bytes) :
    (∃ e, insertRowPages (L.parsed pages false) row = .error e ∧ InsertRefusal (L.parsed pages false) row e) ∨
      (RowOk L.fields.length row ∧ L.generation + 1 < 2 ^ 64) := by
  let P := L.parsed pages false
  have hsize := h.generation_lt
  by_cases harity : row.length = L.fields.length
  case neg =>
    refine Or.inl ⟨_, ?_, .arity harity⟩
    unfold insertRowPages
    exact except_bind_error.2 (Or.inl (throwIf_error.2 ⟨harity, rfl⟩))
  have harity' : ¬ row.length ≠ P.table.fields.length := not_not.2 harity
  cases hvalues : validateValues row with
  | error e =>
    obtain ⟨rfl, hlong⟩ := validateValues_error hvalues
    refine Or.inl ⟨_, ?_, .value hlong⟩
    unfold insertRowPages
    rw [throwIf_neg harity', hvalues]
    rfl
  | ok u =>
    by_cases hgen : L.generation = 2 ^ 64 - 1
    · refine Or.inl ⟨_, ?_, .generation hgen⟩
      unfold insertRowPages
      rw [throwIf_neg harity', hvalues]
      simp only [bind, Except.bind]
      rw [show P.table.inspection.generation = 2 ^ 64 - 1 from hgen]
      rfl
    · exact Or.inr ⟨⟨harity, validateValues_ok.1 hvalues⟩, by omega⟩

/-- A chain that holds bytes has a first page. -/
theorem ChainAt.first {pages : List Page} {type : PageType} {chain : List (Nat × Bytes)} (h : ChainAt pages type chain)
    (hbytes : 0 < (chainBytes chain).length) : ∃ id payload rest, chain = (id, payload) :: rest ∧
      pages[id]? = some ⟨type, id, chainHead rest, payload⟩ := by
  cases chain with
  | nil => exact absurd hbytes (Nat.lt_irrefl 0)
  | cons first rest => exact ⟨first.1, first.2, rest, rfl, h.1⟩

/-- **An insert into an accepted image** is refused, or the image can be extended and the row fits. -/
theorem insertRowPages_accepted {L : Layout} {pages : List Page} (h : L.On pages) (row : List Bytes) :
    (∃ e, insertRowPages (L.parsed pages false) row = .error e ∧ InsertRefusal (L.parsed pages false) row e) ∨
      (L.Insertable ∧ RowOk L.fields.length row ∧ L.generation + 1 < 2 ^ 64) := by
  rcases insertRowPages_checks h row with hrefused | ⟨hrow, hgen⟩
  · exact Or.inl hrefused
  have hrun := insertRowPages_run h hrow hgen
  obtain ⟨head, first, rest, hchain, hheadpage⟩ := h.rows_at.first (by
    rw [h.rows_bytes, rowStream, List.length_append, length_le]
    omega)
  by_cases h8 : first.length < 8
  · -- the count of the rows is not in the first page
    refine Or.inl ⟨_, ?_, .rowHead ⟨_, List.mem_of_getElem? hheadpage, rfl, h8⟩⟩
    rw [hrun]
    refine except_bind_error.2 (Or.inl ?_)
    unfold insertRowChain
    rw [hchain, show chainHead ((head, first) :: rest) = head from rfl]
    have hshort : 0 + 8 > first.length := by omega
    simp only [hheadpage, ne_eq, not_true_eq_false, throwIf, if_false, writeU64, hshort, if_true, bind, Except.bind]
  obtain ⟨directory, payload, others, hdir, hdirpage⟩ := h.directory_at.first (by
    rw [h.directory_bytes, length_directoryBytes]
    omega)
  have hbytes : payload ++ chainBytes others = directoryBytes L.roots := by
    have := h.directory_bytes
    rwa [hdir, chainBytes, List.flatMap_cons] at this
  have hrootcount : L.roots.length = L.fields.length := by rw [Layout.roots, List.length_map, h.trees_length]
  have hle : L.roots.length < 2 ^ 32 := by
    have := h.fields_ok.le
    have : maxFields = 64 := rfl
    omega
  have hrowhead : ∃ id payload rest, L.rowChain = (id, payload) :: rest ∧ 8 ≤ payload.length :=
    ⟨head, first, rest, hchain, Nat.not_lt.1 h8⟩
  rcases directoryRoots_front hle h.roots_lt hbytes with hothers | ⟨hread, hshort⟩
  · refine Or.inr ⟨⟨hrowhead, directory, others, ?_⟩, hrow, hgen⟩
    rw [hdir, ← hbytes, hothers, List.append_nil]
  · -- the roots are not all in the first page
    have hap := h.apart
    have hmem : ∀ {i}, i ∈ L.rowChain.map Prod.fst ∨ i ∈ L.directory.map Prod.fst → i < pages.length ∧ i < noPage :=
      fun {i} hi => hap.lt i (by
        simp only [Layout.ids, List.mem_cons, List.mem_append]
        exact Or.inr (Or.inl (hi.elim (fun hr => Or.inl (Or.inr hr)) Or.inr)))
    obtain ⟨_, w, hchainrun, -, -, -, -, -, -, -, hframe⟩ := insertRowChain_spec (w := ⟨pages, ∅⟩) h.pages_ok.sized hrow
      h.rows_at h.rows_bytes hap.rows_nodup (fun i hi => (hmem (Or.inl hi)).2) hrowhead
    have hdmem : directory ∈ L.directory.map Prod.fst := by rw [hdir]; exact List.mem_cons_self
    have hdirpage' : w.pages[directory]? = some ⟨.indexDirectory, directory, chainHead others, payload⟩ := by
      rw [hframe directory (hmem (Or.inr hdmem)).1 (fun hm => (hap.rows directory hm).1 hdmem), hdirpage]
    rw [hrootcount] at hread hshort
    have hfail : insertDirectory (chainHead L.directory) L.fields.length L.rows.length row w =
        .error (.corruption (partialRecord "index directory")) := by
      unfold insertDirectory
      rw [hdir, show chainHead ((directory, payload) :: others) = directory from rfl]
      simp only [hdirpage', ne_eq, not_true_eq_false, throwIf, if_false, hread, liftCorruption, bind, Except.bind]
    refine Or.inl ⟨.corruption (partialRecord "index directory"), ?_,
      .directoryHead ⟨_, List.mem_of_getElem? hdirpage, rfl, hshort⟩⟩
    rw [hrun, hchainrun]
    simp only [bind, Except.bind, hfail]

/-- **An image that took an insert** is one that an insert can extend, whoever wrote it. -/
theorem buildIncrementalInsert_extends {image : Bytes} {row : List Bytes} {next : IncrementalImage}
    (h : buildIncrementalInsert image row = .ok next) : ∃ P, parseImage image false = .ok P ∧
      Written image P.table.fields P.table.rows P.table.inspection.generation := by
  obtain ⟨P, -, w, hP, hw, -⟩ := buildIncrementalInsert_ok h
  obtain ⟨himage, L, hL, hPL⟩ := parseImage_ok hP
  rcases insertRowPages_accepted hL row with ⟨e, he, -⟩ | ⟨hins, -, -⟩
  · rw [← hPL, hw] at he
    cases he
  · exact ⟨P, hP, P.pages, L, himage, hL, hins, by rw [hPL]; rfl, by rw [hPL]; rfl, by rw [hPL]; rfl⟩

/-! ## Accepted images on disk -/

/-- The log is empty and the database parses as this table. -/
def Rests (disk : Disk) (fields : List Bytes) (rows : List (List Bytes)) : Prop :=
  walPresent disk = false ∧ ∃ image P, disk.database = some image ∧ parseImage image false = .ok P ∧
    P.table.fields = fields ∧ P.table.rows = rows

theorem Clean.rests {disk : Disk} {fields : List Bytes} {rows : List (List Bytes)} {generation : Nat}
    (h : Clean disk fields rows generation) : Rests disk fields rows := by
  obtain ⟨hwal, image, hdb, hw⟩ := h
  obtain ⟨P, hP, hholds⟩ := hw.parse false
  exact ⟨hwal, image, P, hdb, hP, hholds.fields_eq, hholds.rows_eq⟩

/-- **An insert into a table at rest** throws and leaves the files alone, or adds the row at the end. -/
theorem insertRow_rests (path : String) {row : List Bytes} {disk : Disk} {fields : List Bytes} {rows : List (List Bytes)}
    (h : Rests disk fields rows) : (∃ e, insertRow path row disk = ⟨[], .error e⟩) ∨
      ∃ es, insertRow path row disk = ⟨es, .ok ()⟩ ∧ Rests (after disk es) fields (rows ++ [row]) := by
  obtain ⟨hwal, image, P, hdb, hP, rfl, rfl⟩ := h
  obtain ⟨hok, herror⟩ := @insertRow_run path row disk [] image (recover_clean hwal) hdb
  cases hnext : buildIncrementalInsert image row with
  | error e => exact Or.inl ⟨e, herror e hnext⟩
  | ok next =>
    obtain ⟨P', hP', hw⟩ := buildIncrementalInsert_extends hnext
    obtain rfl : P = P' := Except.ok.inj (hP.symm.trans hP')
    obtain ⟨es, hcommit, hclean, -⟩ := commit_cuts hwal hdb hw hnext
    refine Or.inr ⟨es, ?_, hclean.rests⟩
    rw [hok next hnext, after_nil, hcommit]
    rfl

/-- **A table at rest opens** without an effect. -/
theorem openTable_rests (path : String) {disk : Disk} {fields : List Bytes} {rows : List (List Bytes)}
    (h : Rests disk fields rows) :
    ∃ table, openTable path disk = ⟨[], .ok table⟩ ∧ table.fields = fields ∧ table.rows = rows := by
  obtain ⟨hwal, image, P, hdb, hP, hfields, hrows⟩ := h
  exact ⟨P.table, openTable_clean hwal hdb hP, hfields, hrows⟩

end Storage
end Sql
