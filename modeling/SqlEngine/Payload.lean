import SqlEngine.Image
/-!
# Payload — the one encoding of every payload

For each reader of `Image` the bytes it reads, in both directions: the reader returns what was written, and what it
accepts was written that way.  A payload therefore determines its contents and the contents determine the payload.
-/
namespace Sql
namespace Storage

open Wire

theorem readAll_ok {ε α : Type} {p : Reader ε α} {bs : Bytes} {a : α} :
    readAll p bs = .ok a ↔ ∃ rest, p bs = .ok (a, rest) := by
  unfold readAll
  rw [except_bind_ok]
  constructor
  · rintro ⟨⟨b, rest⟩, h, h'⟩
    obtain rfl : b = a := by simpa [pure, Except.pure] using h'
    exact ⟨rest, h⟩
  · rintro ⟨rest, h⟩
    exact ⟨(a, rest), h, rfl⟩

/-! ## Numbers and strings -/

theorem reads_u16 (context : String) : Reads (u16 context) (le 2) (· < 2 ^ 16) := reads_num _ 2
theorem reads_u32 (context : String) : Reads (u32 context) (le 4) (· < 2 ^ 32) := reads_num _ 4
theorem reads_u64 (context : String) : Reads (u64 context) (le 8) (· < 2 ^ 64) := reads_num _ 8

theorem reads_string (context : String) : Reads (string context) (putBlob 2) (·.length ≤ maxValueLength) :=
  reads_blob _ _ (by decide)

theorem length_putBlob (s : Bytes) : (putBlob 2 s).length = 2 + s.length := by simp [putBlob]

/-! ## Index entries -/

def putEntry (e : Entry) : Bytes := putBlob 2 e.key ++ le 8 e.record

structure EntryOk (e : Entry) : Prop where
  key_le : e.key.length ≤ maxValueLength
  record_lt : e.record < 2 ^ 64

theorem length_putEntry (e : Entry) : (putEntry e).length = 2 + e.key.length + 8 := by
  simp [putEntry, length_putBlob]

theorem EntryOk.size {e : Entry} (h : EntryOk e) : 10 ≤ (putEntry e).length ∧ (putEntry e).length ≤ 110 := by
  have := h.key_le
  have : maxValueLength = 100 := rfl
  rw [length_putEntry]
  omega

theorem reads_entry (context : String) : Reads (entry context) putEntry EntryOk where
  intro e rest h := by
    unfold entry putEntry
    rw [List.append_assoc, run_bind ((reads_string context).intro _ _ h.key_le),
      run_bind ((reads_u64 context).intro _ _ h.record_lt), run_pure]
  elim {bs e rest} h := by
    unfold entry at h
    obtain ⟨key, mid, h1, h⟩ := bind_ok.1 h
    obtain ⟨record, mid', h2, h⟩ := bind_ok.1 h
    obtain ⟨rfl, rfl⟩ := pure_ok.1 h
    obtain ⟨hk, rfl⟩ := (reads_string context).elim h1
    obtain ⟨hr, rfl⟩ := (reads_u64 context).elim h2
    exact ⟨⟨hk, hr⟩, by simp [putEntry]⟩

def putSeparator (r : Entry × Nat) : Bytes := putEntry r.1 ++ le 4 r.2

def SeparatorOk (r : Entry × Nat) : Prop := EntryOk r.1 ∧ r.2 < 2 ^ 32

theorem length_putSeparator (r : Entry × Nat) : (putSeparator r).length = 2 + r.1.key.length + 12 := by
  simp [putSeparator, length_putEntry]

theorem putSeparator_size {r : Entry × Nat} (h : EntryOk r.1) :
    14 ≤ (putSeparator r).length ∧ (putSeparator r).length ≤ 114 := by
  have := h.size
  rw [putSeparator, List.length_append, length_le]
  omega

theorem reads_separator : Reads separator putSeparator SeparatorOk :=
  (reads_entry "internal index page").pair (reads_u32 "internal index page")

/-! ## Leaves -/

def leafPayload (previous : Nat) (entries : List Entry) : Bytes :=
  le 2 entries.length ++ le 4 previous ++ le 2 0 ++ entries.flatMap putEntry

structure LeafOk (previous : Nat) (entries : List Entry) : Prop where
  length_lt : entries.length < 2 ^ 16
  previous_lt : previous < 2 ^ 32
  entries_ok : ∀ e ∈ entries, EntryOk e

theorem length_leafPayload (previous : Nat) (entries : List Entry) :
    (leafPayload previous entries).length = 8 + (entries.flatMap putEntry).length := by
  simp [leafPayload]; omega

theorem readLeaf_leafPayload {b : Bool} {previous : Nat} {entries : List Entry} (h : LeafOk previous entries)
    (hb : b = true → entries ≠ []) : readAll (readLeaf b) (leafPayload previous entries) = .ok (previous, entries) := by
  refine readAll_ok.2 ⟨[], ?_⟩
  unfold readLeaf leafPayload
  have hm := ((reads_entry "index leaf").many entries.length).intro entries [] ⟨rfl, h.entries_ok⟩
  rw [List.append_nil] at hm
  simp only [List.append_assoc]
  rw [run_bind ((reads_u16 _).intro _ _ h.length_lt), run_bind ((reads_u32 _).intro _ _ h.previous_lt),
    run_bind ((reads_u16 _).intro 0 _ (by decide)), run_bind (run_refuseIf (by simp) _),
    run_bind (run_refuseIf (by simpa using hb) _), run_bind hm, run_bind (run_atEnd_nil _), run_pure]

theorem readLeaf_ok {b : Bool} {bs : Bytes} {previous : Nat} {entries : List Entry}
    (h : readAll (readLeaf b) bs = .ok (previous, entries)) :
    LeafOk previous entries ∧ (b = true → entries ≠ []) ∧ bs = leafPayload previous entries := by
  obtain ⟨rest, h⟩ := readAll_ok.1 h
  unfold readLeaf at h
  obtain ⟨count, m1, h1, h⟩ := bind_ok.1 h
  obtain ⟨prev, m2, h2, h⟩ := bind_ok.1 h
  obtain ⟨res, m3, h3, h⟩ := bind_ok.1 h
  obtain ⟨_, m4, h4, h⟩ := bind_ok.1 h
  obtain ⟨_, m5, h5, h⟩ := bind_ok.1 h
  obtain ⟨es, m6, h6, h⟩ := bind_ok.1 h
  obtain ⟨_, m7, h7, h⟩ := bind_ok.1 h
  obtain ⟨heq, -⟩ := pure_ok.1 h
  obtain ⟨rfl, rfl⟩ := Prod.mk.injEq .. ▸ heq
  obtain ⟨hc, rfl⟩ := (reads_u16 _).elim h1
  obtain ⟨hp, rfl⟩ := (reads_u32 _).elim h2
  obtain ⟨-, rfl⟩ := (reads_u16 _).elim h3
  obtain ⟨hr, rfl⟩ := refuseIf_ok.1 h4
  obtain ⟨he, rfl⟩ := refuseIf_ok.1 h5
  obtain ⟨⟨rfl, hes⟩, rfl⟩ := ((reads_entry "index leaf").many count).elim h6
  obtain ⟨rfl, -⟩ := atEnd_ok.1 h7
  obtain rfl : res = 0 := by simpa using hr
  exact ⟨⟨hc, hp, hes⟩, by simpa using he, by simp [leafPayload]⟩

theorem leafPayload_inj {p p' : Nat} {es es' : List Entry} (h : LeafOk p es) (h' : LeafOk p' es')
    (heq : leafPayload p es = leafPayload p' es') : p = p' ∧ es = es' := by
  have h1 := readLeaf_leafPayload (b := false) h (by simp)
  have h2 := readLeaf_leafPayload (b := false) h' (by simp)
  rw [heq, h2] at h1
  simp only [Except.ok.injEq, Prod.mk.injEq] at h1
  exact ⟨h1.1.symm, h1.2.symm⟩

/-! ## Internal pages -/

def internalPayload (level first : Nat) (rest : List (Entry × Nat)) : Bytes :=
  le 2 level ++ le 2 rest.length ++ le 4 first ++ rest.flatMap putSeparator

structure InternalOk (level first : Nat) (rest : List (Entry × Nat)) : Prop where
  level_lt : level < 2 ^ 16
  length_lt : rest.length < 2 ^ 16
  first_lt : first < 2 ^ 32
  rest_ok : ∀ r ∈ rest, SeparatorOk r

theorem length_internalPayload (level first : Nat) (rest : List (Entry × Nat)) :
    (internalPayload level first rest).length = 8 + (rest.flatMap putSeparator).length := by
  simp [internalPayload]; omega

theorem readInternal_internalPayload {b : Bool} {level first : Nat} {rest : List (Entry × Nat)}
    (h : InternalOk level first rest) (hb : b = true → level ≠ 0 ∧ rest ≠ []) :
    readAll (readInternal b) (internalPayload level first rest) = .ok (level, first, rest) := by
  refine readAll_ok.2 ⟨[], ?_⟩
  unfold readInternal internalPayload
  have hm := (reads_separator.many rest.length).intro rest [] ⟨rfl, h.rest_ok⟩
  rw [List.append_nil] at hm
  have hb' : ¬ (b = true ∧ (level = 0 ∨ rest.length = 0)) := by
    rintro ⟨hb1, h0 | h0⟩
    · exact (hb hb1).1 h0
    · exact (hb hb1).2 (List.length_eq_zero_iff.1 h0)
  simp only [List.append_assoc]
  rw [run_bind ((reads_u16 _).intro _ _ h.level_lt), run_bind ((reads_u16 _).intro _ _ h.length_lt),
    run_bind (run_refuseIf hb' _), run_bind ((reads_u32 _).intro _ _ h.first_lt), run_bind hm,
    run_bind (run_atEnd_nil _), run_pure]

theorem readInternal_ok {b : Bool} {bs : Bytes} {level first : Nat} {rest : List (Entry × Nat)}
    (h : readAll (readInternal b) bs = .ok (level, first, rest)) :
    InternalOk level first rest ∧ (b = true → level ≠ 0 ∧ rest ≠ []) ∧ bs = internalPayload level first rest := by
  obtain ⟨tail, h⟩ := readAll_ok.1 h
  unfold readInternal at h
  obtain ⟨lv, m1, h1, h⟩ := bind_ok.1 h
  obtain ⟨count, m2, h2, h⟩ := bind_ok.1 h
  obtain ⟨_, m3, h3, h⟩ := bind_ok.1 h
  obtain ⟨fst, m4, h4, h⟩ := bind_ok.1 h
  obtain ⟨rs, m5, h5, h⟩ := bind_ok.1 h
  obtain ⟨_, m6, h6, h⟩ := bind_ok.1 h
  obtain ⟨heq, -⟩ := pure_ok.1 h
  simp only [Prod.mk.injEq] at heq
  obtain ⟨rfl, rfl, rfl⟩ := heq
  obtain ⟨hl, rfl⟩ := (reads_u16 _).elim h1
  obtain ⟨hc, rfl⟩ := (reads_u16 _).elim h2
  obtain ⟨hb, rfl⟩ := refuseIf_ok.1 h3
  obtain ⟨hf, rfl⟩ := (reads_u32 _).elim h4
  obtain ⟨⟨rfl, hrs⟩, rfl⟩ := (reads_separator.many count).elim h5
  obtain ⟨rfl, -⟩ := atEnd_ok.1 h6
  refine ⟨⟨hl, hc, hf, hrs⟩, fun hbt => ⟨fun h0 => hb ⟨hbt, Or.inl h0⟩, fun h0 => hb ⟨hbt, Or.inr ?_⟩⟩, ?_⟩
  · rw [h0]; rfl
  · simp [internalPayload]

/-! ## The superblock -/

def superPayload (s : Superblock) : Bytes :=
  le 8 s.generation ++ le 4 pageSize ++ le 4 s.pageCount ++ le 4 s.schemaHead ++ le 4 s.rowsHead ++
    le 4 s.indexDirectoryHead ++ le 4 s.freeHead ++ le 4 s.fieldCount ++ le 8 s.rowCount

structure Superblock.Fits (s : Superblock) : Prop where
  generation_lt : s.generation < 2 ^ 64
  pageCount_lt : s.pageCount < 2 ^ 32
  schemaHead_lt : s.schemaHead < 2 ^ 32
  rowsHead_lt : s.rowsHead < 2 ^ 32
  indexDirectoryHead_lt : s.indexDirectoryHead < 2 ^ 32
  freeHead_lt : s.freeHead < 2 ^ 32
  fieldCount_lt : s.fieldCount < 2 ^ 32
  rowCount_lt : s.rowCount < 2 ^ 64

theorem length_superPayload (s : Superblock) : (superPayload s).length = 44 := by simp [superPayload]

theorem readSuperblock_superPayload {s : Superblock} (h : s.Fits) :
    readAll readSuperblock (superPayload s) = .ok s := by
  refine readAll_ok.2 ⟨[], ?_⟩
  unfold readSuperblock superPayload
  have hlast := (reads_u64 "superblock").intro s.rowCount [] h.rowCount_lt
  rw [List.append_nil] at hlast
  simp only [List.append_assoc]
  rw [run_bind ((reads_u64 _).intro _ _ h.generation_lt), run_bind ((reads_u32 _).intro _ _ (by decide)),
    run_bind (run_refuseIf (by simp) _), run_bind ((reads_u32 _).intro _ _ h.pageCount_lt),
    run_bind ((reads_u32 _).intro _ _ h.schemaHead_lt), run_bind ((reads_u32 _).intro _ _ h.rowsHead_lt),
    run_bind ((reads_u32 _).intro _ _ h.indexDirectoryHead_lt), run_bind ((reads_u32 _).intro _ _ h.freeHead_lt),
    run_bind ((reads_u32 _).intro _ _ h.fieldCount_lt), run_bind hlast, run_bind (run_atEnd_nil _), run_pure]

theorem readSuperblock_ok {bs : Bytes} {s : Superblock} (h : readAll readSuperblock bs = .ok s) :
    s.Fits ∧ bs = superPayload s := by
  obtain ⟨tail, h⟩ := readAll_ok.1 h
  unfold readSuperblock at h
  obtain ⟨a1, m1, h1, h⟩ := bind_ok.1 h
  obtain ⟨a2, m2, h2, h⟩ := bind_ok.1 h
  obtain ⟨_, m3, h3, h⟩ := bind_ok.1 h
  obtain ⟨a4, m4, h4, h⟩ := bind_ok.1 h
  obtain ⟨a5, m5, h5, h⟩ := bind_ok.1 h
  obtain ⟨a6, m6, h6, h⟩ := bind_ok.1 h
  obtain ⟨a7, m7, h7, h⟩ := bind_ok.1 h
  obtain ⟨a8, m8, h8, h⟩ := bind_ok.1 h
  obtain ⟨a9, m9, h9, h⟩ := bind_ok.1 h
  obtain ⟨a10, m10, h10, h⟩ := bind_ok.1 h
  obtain ⟨_, m11, h11, h⟩ := bind_ok.1 h
  obtain ⟨rfl, -⟩ := pure_ok.1 h
  obtain ⟨b1, rfl⟩ := (reads_u64 _).elim h1
  obtain ⟨b2, rfl⟩ := (reads_u32 _).elim h2
  obtain ⟨hs, rfl⟩ := refuseIf_ok.1 h3
  obtain ⟨b4, rfl⟩ := (reads_u32 _).elim h4
  obtain ⟨b5, rfl⟩ := (reads_u32 _).elim h5
  obtain ⟨b6, rfl⟩ := (reads_u32 _).elim h6
  obtain ⟨b7, rfl⟩ := (reads_u32 _).elim h7
  obtain ⟨b8, rfl⟩ := (reads_u32 _).elim h8
  obtain ⟨b9, rfl⟩ := (reads_u32 _).elim h9
  obtain ⟨b10, rfl⟩ := (reads_u64 _).elim h10
  obtain ⟨rfl, -⟩ := atEnd_ok.1 h11
  obtain rfl : a2 = pageSize := by simpa using hs
  exact ⟨⟨b1, b4, b5, b6, b7, b8, b9, b10⟩, by simp [superPayload]⟩

/-! ## Schema, rows and directory streams -/

def schemaBytes (fields : List Bytes) : Bytes := le 4 fields.length ++ fields.flatMap (putBlob 2)

def rowBytes (row : List Bytes) : Bytes := le 4 row.length ++ row.flatMap (putBlob 2)

def rowStream (rows : List (List Bytes)) : Bytes := le 8 rows.length ++ rows.flatMap rowBytes

def directoryBytes (roots : List Nat) : Bytes := le 4 roots.length ++ roots.flatMap (le 4)

/-- A row of a table with `n` fields. -/
structure RowOk (n : Nat) (row : List Bytes) : Prop where
  arity : row.length = n
  value_le : ∀ v ∈ row, v.length ≤ maxValueLength

theorem readSchema_schemaBytes {fields : List Bytes} (hn : fields.length < 2 ^ 32)
    (hf : ∀ f ∈ fields, f.length ≤ maxValueLength) :
    readAll (readSchema fields.length) (schemaBytes fields) = .ok fields := by
  refine readAll_ok.2 ⟨[], ?_⟩
  have hm := ((reads_string "schema").many fields.length).intro fields [] ⟨rfl, hf⟩
  rw [List.append_nil] at hm
  unfold readSchema schemaBytes
  rw [run_bind ((reads_u32 _).intro _ _ hn), run_bind (run_refuseIf (by simp) _), run_bind hm,
    run_bind (run_atEnd_nil _), run_pure]

theorem readSchema_ok {n : Nat} {bs : Bytes} {fields : List Bytes} (h : readAll (readSchema n) bs = .ok fields) :
    fields.length = n ∧ (∀ f ∈ fields, f.length ≤ maxValueLength) ∧ bs = schemaBytes fields := by
  obtain ⟨tail, h⟩ := readAll_ok.1 h
  unfold readSchema at h
  obtain ⟨a, m1, h1, h⟩ := bind_ok.1 h
  obtain ⟨_, m2, h2, h⟩ := bind_ok.1 h
  obtain ⟨fs, m3, h3, h⟩ := bind_ok.1 h
  obtain ⟨_, m4, h4, h⟩ := bind_ok.1 h
  obtain ⟨rfl, -⟩ := pure_ok.1 h
  obtain ⟨-, rfl⟩ := (reads_u32 _).elim h1
  obtain ⟨hc, rfl⟩ := refuseIf_ok.1 h2
  obtain ⟨⟨hl, hall⟩, rfl⟩ := ((reads_string _).many n).elim h3
  obtain ⟨rfl, -⟩ := atEnd_ok.1 h4
  obtain rfl : a = n := by simpa using hc
  exact ⟨hl, hall, by simp [schemaBytes, hl]⟩

theorem reads_row {n : Nat} (hn : n < 2 ^ 32) : Reads (readRow n) rowBytes (RowOk n) where
  intro row rest h := by
    have hm := ((reads_string "row stream").many n).intro row rest ⟨h.arity, h.value_le⟩
    unfold readRow rowBytes
    rw [List.append_assoc, run_bind ((reads_u32 _).intro _ _ (h.arity ▸ hn)),
      run_bind (run_refuseIf (by simp [h.arity]) _), hm]
  elim {bs row rest} h := by
    unfold readRow at h
    obtain ⟨a, m1, h1, h⟩ := bind_ok.1 h
    obtain ⟨_, m2, h2, h⟩ := bind_ok.1 h
    obtain ⟨⟨hl, hall⟩, hm⟩ := ((reads_string _).many n).elim h
    obtain ⟨-, rfl⟩ := (reads_u32 _).elim h1
    obtain ⟨hc, rfl⟩ := refuseIf_ok.1 h2
    obtain rfl : a = n := by simpa using hc
    exact ⟨⟨hl, hall⟩, by rw [hm, rowBytes, hl, List.append_assoc]⟩

theorem readRows_flatMap {n : Nat} (hn : n < 2 ^ 32) {rows : List (List Bytes)} (h : ∀ r ∈ rows, RowOk n r) :
    readAll (readRows n rows.length) (rows.flatMap rowBytes) = .ok rows := by
  refine readAll_ok.2 ⟨[], ?_⟩
  have hm := ((reads_row hn).many rows.length).intro rows [] ⟨rfl, h⟩
  rw [List.append_nil] at hm
  unfold readRows
  rw [run_bind hm, run_bind (run_atEnd_nil _), run_pure]

theorem readRows_ok {n count : Nat} (hn : n < 2 ^ 32) {bs : Bytes} {rows : List (List Bytes)}
    (h : readAll (readRows n count) bs = .ok rows) :
    rows.length = count ∧ (∀ r ∈ rows, RowOk n r) ∧ bs = rows.flatMap rowBytes := by
  obtain ⟨tail, h⟩ := readAll_ok.1 h
  unfold readRows at h
  obtain ⟨rs, m1, h1, h⟩ := bind_ok.1 h
  obtain ⟨_, m2, h2, h⟩ := bind_ok.1 h
  obtain ⟨rfl, -⟩ := pure_ok.1 h
  obtain ⟨⟨hl, hall⟩, rfl⟩ := ((reads_row hn).many count).elim h1
  obtain ⟨rfl, -⟩ := atEnd_ok.1 h2
  exact ⟨hl, hall, by simp⟩

theorem readDirectory_directoryBytes {roots : List Nat} (hn : roots.length < 2 ^ 32) (hr : ∀ r ∈ roots, r < 2 ^ 32) :
    readAll (readDirectory roots.length) (directoryBytes roots) = .ok roots := by
  refine readAll_ok.2 ⟨[], ?_⟩
  have hm := ((reads_u32 "index directory").many roots.length).intro roots [] ⟨rfl, hr⟩
  rw [List.append_nil] at hm
  unfold readDirectory directoryBytes
  rw [run_bind ((reads_u32 _).intro _ _ hn), run_bind (run_refuseIf (by simp) _), run_bind hm,
    run_bind (run_atEnd_nil _), run_pure]

theorem readDirectory_ok {n : Nat} {bs : Bytes} {roots : List Nat} (h : readAll (readDirectory n) bs = .ok roots) :
    roots.length = n ∧ (∀ r ∈ roots, r < 2 ^ 32) ∧ bs = directoryBytes roots := by
  obtain ⟨tail, h⟩ := readAll_ok.1 h
  unfold readDirectory at h
  obtain ⟨a, m1, h1, h⟩ := bind_ok.1 h
  obtain ⟨_, m2, h2, h⟩ := bind_ok.1 h
  obtain ⟨rs, m3, h3, h⟩ := bind_ok.1 h
  obtain ⟨_, m4, h4, h⟩ := bind_ok.1 h
  obtain ⟨rfl, -⟩ := pure_ok.1 h
  obtain ⟨-, rfl⟩ := (reads_u32 _).elim h1
  obtain ⟨hc, rfl⟩ := refuseIf_ok.1 h2
  obtain ⟨⟨hl, hall⟩, rfl⟩ := ((reads_u32 _).many n).elim h3
  obtain ⟨rfl, -⟩ := atEnd_ok.1 h4
  obtain rfl : a = n := by simpa using hc
  exact ⟨hl, hall, by simp [directoryBytes, hl]⟩

end Storage
end Sql
