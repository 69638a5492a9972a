import SqlEngine.Recovery
/-!
# Overstated — the images `parse_image` throws on without reporting corruption

`rows.reserve` runs before the rows are read, on a row count that only has to agree with itself.  A count no vector can
hold makes it throw `std::length_error`; the check in front of it compares with the largest `size_t` and never fires.
Memory is taken as unbounded up to the largest vector: where it runs out the reserve throws `std::bad_alloc` at smaller
counts, such as 2⁴³.  `parseImage_rejects`: these are the only images that are not rejected as corruption, and recovery
cannot replace them.
-/
namespace Sql
namespace Storage

open Wire BTree Effects

/-- What `parse_image` has read when it reserves the rows. -/
structure Front where
  super : Superblock
  fields : List Bytes
  schema : List (Nat × Bytes)
  rowChain : List (Nat × Bytes)

/-- **Sound pages up to the row count**: superblock, schema, and a row stream that starts with the row count of the
superblock. -/
structure Front.On (F : Front) (pages : List Page) : Prop where
  pages_ok : PagesOk pages
  length_lt : pages.length < 2 ^ 32
  super_at : pages[0]? = some ⟨.superblock, 0, noPage, superPayload F.super⟩
  super_fits : F.super.Fits
  page_count : F.super.pageCount = pages.length
  free_head : F.super.freeHead = noPage
  field_count : F.super.fieldCount = F.fields.length
  fields_ok : FieldsOk F.fields
  schema_head : F.super.schemaHead = chainHead F.schema
  schema_at : ChainAt pages .schema F.schema
  schema_bytes : chainBytes F.schema = schemaBytes F.fields
  rows_head : F.super.rowsHead = chainHead F.rowChain
  rows_at : ChainAt pages .rows F.rowChain
  rows_bytes : ∃ rest, chainBytes F.rowChain = le 8 F.super.rowCount ++ rest
  nodup : (0 :: (F.schema.map Prod.fst ++ F.rowChain.map Prod.fst)).Nodup

/-- **An image that overstates its rows**: its row count is above the maximum size of the vector. -/
def Overstated (image : Bytes) : Prop :=
  ∃ (F : Front) (pages : List Page), F.On pages ∧ image = imageOf pages ∧ rowsMaxSize < F.super.rowCount

theorem parsePages_front {F : Front} {pages : List Page} (h : F.On pages) (hmax : rowsMaxSize < F.super.rowCount)
    (walPresent : Bool) : parsePages pages walPresent = .error (.lengthError "vector::reserve") := by
  have hnd := h.nodup
  rw [List.nodup_cons, List.nodup_append] at hnd
  obtain ⟨h0, hnds, hndr, hsr⟩ := hnd
  have hfits := h.super_fits
  have hf := h.fields_ok
  have hsuper : parseSuperblock pages = .ok F.super := by
    have hp := h.super_at
    have hcount := h.page_count
    cases pages with
    | nil => cases hp
    | cons page pages =>
      obtain rfl : page = ⟨.superblock, 0, noPage, superPayload F.super⟩ := by simpa using hp
      have hc : ¬ (F.super.fieldCount = 0 ∨ F.super.fieldCount > maxFields) := by
        have := hf.pos
        have := hf.le
        rw [h.field_count]
        omega
      rw [parseSuperblock, throwIf_neg (by simp)]
      simp only [except_ok_bind, readSuperblock_superPayload hfits, throwIf_neg (not_not.2 hcount),
        throwIf_neg (not_not.2 h.free_head), throwIf_neg hc]
      rfl
  have hschema : parseSchema pages F.super {0} = .ok (F.fields, {0} ∪ (F.schema.map Prod.fst).toFinset) := by
    have hread := readChain_chainAt h.length_lt F.schema ∅ {0} h.schema_at hnds (fun i hi => ⟨fun hm => h0 (by
      rw [Finset.mem_singleton] at hm; subst hm; simp [hi]), by simp⟩)
    have hn : F.fields.length < 2 ^ 32 := Nat.lt_of_le_of_lt hf.le (by decide)
    unfold parseSchema
    rw [h.schema_head, hread, h.field_count]
    simp only [except_ok_bind, h.schema_bytes, readSchema_schemaBytes hn hf.name_le]
    rw [throwIf_neg (by simp [hf.nodup, hf.name_ne])]
    rfl
  obtain ⟨rest, hrest⟩ := h.rows_bytes
  have hread := readChain_chainAt h.length_lt F.rowChain ∅ ({0} ∪ (F.schema.map Prod.fst).toFinset) h.rows_at hndr
    (fun i hi => by
      refine ⟨fun hm => ?_, by simp⟩
      simp only [Finset.mem_union, Finset.mem_singleton, List.mem_toFinset] at hm
      rcases hm with rfl | hm
      · exact h0 (by simp [hi])
      · exact hsr i hm i hi rfl)
  have hcount := (reads_u64 "row stream").intro F.super.rowCount rest hfits.rowCount_lt
  unfold parsePages
  rw [hsuper]
  simp only [liftCorruption, except_ok_bind]
  rw [hschema]
  simp only [except_ok_bind]
  unfold parseRows
  rw [h.rows_head, hread]
  simp only [liftCorruption, except_ok_bind, hrest, hcount]
  rw [throwIf_neg (by simp), except_ok_bind]
  simp [throwIf, hmax, bind, Except.bind]

/-- What the reserve throws on is overstated. -/
theorem front_of_error {pages : List Page} (hpages : PagesOk pages) (hlen : pages.length < 2 ^ 32) {walPresent : Bool}
    {e : StorageError} (h : parsePages pages walPresent = .error e) : (∃ c, e = .corruption c) ∨
      ∃ F : Front, F.On pages ∧ rowsMaxSize < F.super.rowCount := by
  rcases parsePages_error h with hc | ⟨-, super, fields, owned, rowBytes, owned', rest, h1, h2, h3, h4, hmax⟩
  · exact Or.inl hc
  right
  obtain ⟨hsuper, hfits, hcount, hfree, hpos, hle⟩ := parseSuperblock_ok hpages h1
  obtain ⟨sch, hs1, hs2, hs3, hs4, hs5, hs6, hs7, hs8, hs9, rfl⟩ := parseSchema_ok hpages h2
  obtain ⟨rch, hr1, hr2, rfl, hr4, hr5, -⟩ := readChain_ok hpages _ _ _ h3
  obtain ⟨-, hbytes⟩ := (reads_u64 _).elim h4
  have hnd : (0 :: (sch.map Prod.fst ++ rch.map Prod.fst)).Nodup := by
    refine List.nodup_cons.2 ⟨fun hm => ?_, nodup_append_of_owned {0} hs8 hr4 (fun i hi => (hr5 i hi).1)⟩
    rcases List.mem_append.1 hm with hm | hm
    · exact (hs9 0 hm).1 (by simp)
    · exact (hr5 0 hm).1 (by simp)
  exact ⟨⟨super, fields, sch, rch⟩, {
    pages_ok := hpages
    length_lt := hlen
    super_at := hsuper
    super_fits := hfits
    page_count := hcount
    free_head := hfree
    field_count := hs4.symm
    fields_ok := ⟨hs4 ▸ hpos, hs4 ▸ hle, hs5, hs7, hs6⟩
    schema_head := hs1.symm
    schema_at := hs2
    schema_bytes := hs3
    rows_head := hr1.symm
    rows_at := hr2
    rows_bytes := ⟨rest, hbytes⟩
    nodup := hnd }, hmax⟩

/-- **Rejected as corruption only**, and replaced by a pending log that is valid. -/
structure Replaceable (image : Bytes) : Prop where
  corruption : ∀ walPresent e, parseImage image walPresent = .error e → ∃ c, e = .corruption c
  replaced : ∀ wal walImage e, parseImage image true = .error e → parseWal wal = .ok walImage →
    let disk : Disk := ⟨some image, some wal⟩
    (recover disk).result = .ok () ∧ after disk (recover disk).effects = ⟨some walImage.image, some []⟩

theorem overstated_error {image : Bytes} (h : Overstated image) (walPresent : Bool) :
    parseImage image walPresent = .error (.lengthError "vector::reserve") := by
  obtain ⟨F, pages, hF, rfl, hmax⟩ := h
  have hlen := length_imageOf hF.pages_ok
  have hpos := lt_of_getElem?_some hF.super_at
  have hdiv : (imageOf pages).length / pageSize = pages.length := by
    rw [hlen, Nat.mul_div_cancel _ (by decide)]
  have hne : imageOf pages ≠ [] := fun h => by
    rw [h, List.length_nil] at hlen
    have := Nat.mul_pos hpos (by decide : 0 < pageSize)
    omega
  have hmod : (imageOf pages).length % pageSize = 0 := by rw [hlen, Nat.mul_mod_left]
  have hlt := hF.length_lt
  unfold parseImage
  rw [throwIf_neg (by simp [hne, hmod]), hdiv, throwIf_neg (by omega), decodePages_imageOf hF.pages_ok]
  exact parsePages_front hF hmax walPresent

theorem overstated_not_replaceable {image : Bytes} (h : Overstated image) : ¬ Replaceable image := fun hr => by
  obtain ⟨c, hc⟩ := hr.corruption false _ (overstated_error h false)
  cases hc

theorem wal_ne_nil {wal : Bytes} {walImage : WalImage} (h : parseWal wal = .ok walImage) : wal ≠ [] := fun hnil => by
  have := congrArg List.length (hnil ▸ (parseWal_ok h).1)
  rw [length_walRecord] at this
  simp at this

/-- Recovery throws what the reserve throws. -/
theorem recover_overstated {image wal : Bytes} {walImage : WalImage} (h : Overstated image)
    (hwal : parseWal wal = .ok walImage) :
    recover ⟨some image, some wal⟩ = ⟨[], .error (.lengthError "vector::reserve")⟩ := by
  have hstale : checkStale walImage (some image) = .error (.lengthError "vector::reserve") := by
    simp only [checkStale, overstated_error h true]
  rw [recover_present rfl (wal_ne_nil hwal)]
  unfold recoverFrom
  rw [hwal, attempt_ok_bind, observe_bind, hstale]
  exact bind_run_error rfl

/-- **Every other image is rejected as corruption only**, as long as there is memory for every row count a vector can hold.
On an image that overstates its rows the reserve throws, and a valid log behind it is never applied. -/
theorem parseImage_rejects (image : Bytes) : Replaceable image ↔ ¬ Overstated image := by
  refine ⟨fun h hover => overstated_not_replaceable hover h, fun h => ?_⟩
  have hcorruption : ∀ walPresent e, parseImage image walPresent = .error e → ∃ c, e = .corruption c := by
    intro walPresent e he
    rcases parseImage_pages image walPresent with ⟨c, hc⟩ | ⟨pages, himage, hpages, hlen, hparse⟩
    · exact ⟨c, Except.error.inj (he.symm.trans hc)⟩
    · rcases front_of_error hpages hlen (hparse.symm.trans he) with hc | ⟨F, hF, hmax⟩
      · exact hc
      · exact absurd ⟨F, pages, hF, himage, hmax⟩ h
  refine ⟨hcorruption, fun wal walImage e he hwal => ?_⟩
  have hstale : checkStale walImage (some image) = .ok () :=
    checkStale_ok (fun P hP => by rw [he] at hP; cases hP) (hcorruption true)
  obtain ⟨buffer, himage, hdirty, hrun⟩ := recoverFrom_run ⟨some image, some wal⟩ hwal hstale
  intro disk
  rw [recover_present rfl (wal_ne_nil hwal), hrun]
  exact ⟨rfl, after_recovery himage hdirty _⟩

/-- One field, and 2^63 rows. -/
def overstatedPages : List Page :=
  [⟨.superblock, 0, noPage, superPayload ⟨1, 3, 1, 2, noPage, noPage, 1, 2 ^ 63⟩⟩, ⟨.schema, 1, noPage, schemaBytes [[97]]⟩,
    ⟨.rows, 2, noPage, le 8 (2 ^ 63)⟩]

theorem overstatedPages_overstated : Overstated (imageOf overstatedPages) := by
  refine ⟨⟨⟨1, 3, 1, 2, noPage, noPage, 1, 2 ^ 63⟩, [[97]], [(1, schemaBytes [[97]])], [(2, le 8 (2 ^ 63))]⟩,
    overstatedPages,
    ?_, rfl, by decide⟩
  exact {
    pages_ok := fun i page h => by
      match i with
      | 0 | 1 | 2 =>
        obtain rfl := Option.some.inj h
        exact ⟨rfl, by decide, by decide, by decide⟩
      | i + 3 => simp [overstatedPages] at h
    length_lt := by decide
    super_at := rfl
    super_fits := ⟨by decide, by decide, by decide, by decide, by decide, by decide, by decide, by decide⟩
    page_count := rfl
    free_head := rfl
    field_count := rfl
    fields_ok := ⟨by decide, by decide, by decide, by decide, by decide⟩
    schema_head := rfl
    schema_at := ⟨rfl, trivial⟩
    schema_bytes := rfl
    rows_head := rfl
    rows_at := ⟨rfl, trivial⟩
    rows_bytes := ⟨[], rfl⟩
    nodup := by decide }

/-- The reserve throws, and recovery with the log of another image throws the same. -/
theorem parseImage_rejects_overstated : ¬ Replaceable (imageOf overstatedPages) ∧
    parseImage (imageOf overstatedPages) false = .error (.lengthError "vector::reserve") ∧
    parseWal (walRecord (imageOf onePages) 1) = .ok ⟨imageOf onePages, 1⟩ ∧
    recover ⟨some (imageOf overstatedPages), some (walRecord (imageOf onePages) 1)⟩ =
      ⟨[], .error (.lengthError "vector::reserve")⟩ := by
  have hover := overstatedPages_overstated
  have hone := parseImage_imageOf oneLayout_on true
  have hlen := (parseImage_bounds hone).2.1
  have hwal : parseWal (walRecord (imageOf onePages) 1) = .ok ⟨imageOf onePages, 1⟩ :=
    parseWal_walRecord hone rfl (by omega) (by decide)
  exact ⟨overstated_not_replaceable hover, overstated_error hover false, hwal, recover_overstated hover hwal⟩

end Storage
end Sql
