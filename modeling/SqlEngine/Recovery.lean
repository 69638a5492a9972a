import SqlEngine.Commit
/-!
# Recovery — `recover` and `inspect` on arbitrary files

Nothing is assumed about the database file and its log.  `recover_cases` says what `recover` can do to them: nothing
without a log, nothing when it throws, and otherwise exactly the image of a complete record.  `recover_safe` and
`inspect_agrees` are read off it; running again after a cut needs that no mix of pages with the first page of an image
parses as another generation (`parse_of_block`).
-/
namespace Sql
namespace Storage

open Wire BTree Blocks Effects

/-! ## The first page of a torn database -/

theorem superPayload_inj {s s' : Superblock} (h : s.Fits) (h' : s'.Fits) (heq : superPayload s = superPayload s') :
    s = s' := by
  have h1 := readSuperblock_superPayload h
  rw [heq, readSuperblock_superPayload h'] at h1
  exact (Except.ok.inj h1).symm

theorem pageImage_inj {a b : Page} (ha : a.Fits) (hb : b.Fits) (hid : a.id = b.id) (heq : pageImage a = pageImage b) :
    a = b := by
  have h1 := decodePage_pageImage ha
  rw [heq, hid, decodePage_pageImage hb] at h1
  exact (Except.ok.inj h1).symm

/-- Images with the same first page have the same superblock. -/
theorem super_eq_of_block {pages pages' : List Page} {s s' : Superblock} (hp : PagesOk pages) (hp' : PagesOk pages')
    (h : pages[0]? = some ⟨.superblock, 0, noPage, superPayload s⟩) (hs : s.Fits)
    (h' : pages'[0]? = some ⟨.superblock, 0, noPage, superPayload s'⟩) (hs' : s'.Fits)
    (hb : block pageSize (imageOf pages) 0 = block pageSize (imageOf pages') 0) : s = s' := by
  rw [← pageSlice_eq, ← pageSlice_eq, pageSlice_imageOf hp h, pageSlice_imageOf hp' h'] at hb
  have := pageImage_inj (hp _ _ h).2 (hp' _ _ h').2 rfl hb
  simp only [Page.mk.injEq, true_and] at this
  exact superPayload_inj hs hs' this

/-- What `parsePages` throws besides corruption: the row count that superblock and row stream agree on is too large to
be reserved. -/
theorem parsePages_error {pages : List Page} {walPresent : Bool} {e : StorageError}
    (h : parsePages pages walPresent = .error e) : (∃ c, e = .corruption c) ∨
      e = .lengthError "vector::reserve" ∧ ∃ super fields owned rowBytes owned' rest,
        parseSuperblock pages = .ok super ∧ parseSchema pages super {0} = .ok (fields, owned) ∧
        readChain pages .rows super.rowsHead ∅ owned = .ok (rowBytes, owned') ∧
        u64 "row stream" rowBytes = .ok (super.rowCount, rest) ∧ rowsMaxSize < super.rowCount := by
  unfold parsePages at h
  rcases except_bind_error.1 h with h1 | ⟨super, hsuper, h1⟩
  · exact Or.inl (liftCorruption_error h1)
  rcases except_bind_error.1 h1 with h2 | ⟨⟨fields, owned⟩, hschema, h2⟩
  · exact Or.inl (liftCorruption_error h2)
  rcases except_bind_error.1 h2 with h3 | ⟨_, -, h3⟩
  · unfold parseRows at h3
    rcases except_bind_error.1 h3 with h4 | ⟨⟨rowBytes, owned'⟩, hchain, h4⟩
    · exact Or.inl (liftCorruption_error h4)
    rcases except_bind_error.1 h4 with h5 | ⟨⟨count, rest⟩, hcount, h5⟩
    · exact Or.inl (liftCorruption_error h5)
    rcases except_bind_error.1 h5 with h6 | ⟨_, hsame, h6⟩
    · exact Or.inl ⟨_, (throwIf_error.1 h6).2.symm⟩
    rcases except_bind_error.1 h6 with h7 | ⟨_, -, h7⟩
    · obtain rfl : count = super.rowCount := not_not.1 (throwIf_ok.1 hsame)
      obtain ⟨hmax, rfl⟩ := throwIf_error.1 h7
      exact Or.inr ⟨rfl, super, fields, owned, rowBytes, owned', rest, liftCorruption_ok.1 hsuper,
        liftCorruption_ok.1 hschema, liftCorruption_ok.1 hchain, liftCorruption_ok.1 hcount, hmax⟩
    rcases except_bind_error.1 h7 with h8 | ⟨rows, -, h8⟩
    · exact Or.inl (liftCorruption_error h8)
    · cases h8
  rcases except_bind_error.1 h3 with h4 | ⟨_, -, h4⟩
  · exact Or.inl (liftCorruption_error h4)
  rcases except_bind_error.1 h4 with h5 | ⟨_, -, h5⟩
  · exact Or.inl (liftCorruption_error h5)
  rcases except_bind_error.1 h5 with h6 | ⟨_, -, h6⟩
  · exact Or.inl ⟨_, (throwIf_error.1 h6).2.symm⟩
  · cases h6

/-- What `parseImage` throws besides corruption is about the row count in the superblock. -/
theorem parseImage_error {image : Bytes} {walPresent : Bool} {e : StorageError}
    (h : parseImage image walPresent = .error e) : (∃ c, e = .corruption c) ∨ ∃ pages super, image = imageOf pages ∧
      PagesOk pages ∧ pages[0]? = some ⟨.superblock, 0, noPage, superPayload super⟩ ∧ super.Fits ∧
      rowsMaxSize < super.rowCount := by
  rcases parseImage_pages image walPresent with ⟨c, hc⟩ | ⟨pages, himage, hpages, -, hparse⟩
  · exact Or.inl ⟨c, Except.error.inj (h.symm.trans hc)⟩
  · rcases parsePages_error (hparse.symm.trans h) with hc | ⟨-, super, -, -, -, -, -, hsuper, -, -, -, hmax⟩
    · exact Or.inl hc
    · obtain ⟨hp0, hfits, -⟩ := parseSuperblock_ok hpages hsuper
      exact Or.inr ⟨pages, super, himage, hpages, hp0, hfits, hmax⟩

/-- **A file with the first page of an image** parses as that generation or is corrupt. -/
theorem parse_of_block {pages : List Page} {L : Layout} {file : Bytes} (hL : L.On pages)
    (hb : block pageSize file 0 = block pageSize (imageOf pages) 0) (walPresent : Bool) :
    (∀ P, parseImage file walPresent = .ok P → P.table.inspection.generation = L.generation) ∧
    ∀ e, parseImage file walPresent = .error e → ∃ c, e = .corruption c := by
  constructor
  · intro P hP
    obtain ⟨hfile, L', hL', hPL⟩ := parseImage_ok hP
    rw [hfile] at hb
    have hsuper := super_eq_of_block hL'.pages_ok hL.pages_ok hL'.super_at hL'.super_fits hL.super_at hL.super_fits hb
    have hgen : L'.generation = L.generation := congrArg Superblock.generation hsuper
    rw [hPL]
    exact hgen
  · intro e he
    rcases parseImage_error he with hc | ⟨pages', super, rfl, hok, hp0, hfits, hmax⟩
    · exact hc
    · -- the row count is the one of an image that parses
      rw [super_eq_of_block hok hL.pages_ok hp0 hfits hL.super_at hL.super_fits hb] at hmax
      exact absurd hL.rows_le (Nat.not_le.2 hmax)

/-! ## The stale check -/

theorem checkStale_ok {file image : Bytes} {generation : Nat}
    (hok : ∀ P, parseImage file true = .ok P → P.table.inspection.generation ≤ generation)
    (herror : ∀ e, parseImage file true = .error e → ∃ c, e = .corruption c) :
    checkStale ⟨image, generation⟩ (some file) = .ok () := by
  unfold checkStale
  cases hp : parseImage file true with
  | ok P =>
    simp only [hp]
    exact throwIf_neg (Nat.not_lt.2 (hok P hp))
  | error e =>
    obtain ⟨c, rfl⟩ := herror e hp
    simp only [hp]

theorem checkStale_inv {walImage : WalImage} {file : Bytes} {P : ParsedImage} {u : Unit}
    (h : checkStale walImage (some file) = .ok u) (hP : parseImage file true = .ok P) :
    P.table.inspection.generation ≤ walImage.generation := by
  unfold checkStale at h
  simp only [hP] at h
  exact Nat.not_lt.1 (throwIf_ok.1 h)

/-- The flag only ends up in the inspection. -/
theorem parseImage_flag {image : Bytes} {walPresent : Bool} {P : ParsedImage} (h : parseImage image walPresent = .ok P)
    (flag : Bool) : ∃ P', parseImage image flag = .ok P' ∧
      P'.table.inspection = { P.table.inspection with walPresent := flag } := by
  obtain ⟨himage, L, hL, hP⟩ := parseImage_ok h
  refine ⟨L.parsed P.pages flag, by rw [himage]; exact parseImage_imageOf hL flag, ?_⟩
  rw [hP]
  rfl

/-! ## What recovery does -/

theorem recover_clean {disk : Disk} (h : walPresent disk = false) : recover disk = ⟨[], .ok ()⟩ := by
  unfold recover
  rw [observe_id_bind, if_neg (by simp [h])]
  rfl

theorem recover_present {disk : Disk} {wal : Bytes} (hw : disk.wal = some wal) (h : wal ≠ []) :
    recover disk = recoverFrom wal disk := by
  unfold recover
  have hp : walPresent disk = true := by simp [walPresent, hw, h]
  rw [observe_id_bind, if_pos hp, hw]
  rfl

theorem walPresent_eq_true {disk : Disk} (h : walPresent disk = true) : ∃ wal, disk.wal = some wal ∧ wal ≠ [] := by
  cases hw : disk.wal with
  | none => simp [walPresent, hw] at h
  | some wal => exact ⟨wal, rfl, by simpa [walPresent, hw] using h⟩

theorem parseImage_buffer {image : Bytes} {walPresent : Bool} {P : ParsedImage} (h : parseImage image walPresent = .ok P) :
    ∃ buffer, PageBuffer.make image ∅ = .ok buffer ∧ buffer.image = image ∧
      buffer.dirtyPages = Finset.range (image.length / pageSize) := by
  obtain ⟨himage, L, hL, -⟩ := parseImage_ok h
  obtain ⟨buffer, hmake, hbuffer, hdirty⟩ := PageBuffer.make_ok hL.pages_ok (lt_of_getElem?_some hL.super_at) hL.length_lt
    (by simp : ∀ id ∈ (∅ : Finset Nat), id < P.pages.length)
  rw [← himage] at hmake hbuffer
  refine ⟨buffer, hmake, hbuffer, ?_⟩
  rw [hdirty, if_pos rfl, himage, length_imageOf hL.pages_ok, Nat.mul_div_cancel _ (by decide)]

/-- Recovery from a complete record that is not stale. -/
theorem recoverFrom_run (disk : Disk) {wal : Bytes} {walImage : WalImage} (hw : parseWal wal = .ok walImage)
    (hs : checkStale walImage disk.database = .ok ()) : ∃ buffer : PageBuffer, buffer.image = walImage.image ∧
      buffer.dirtyPages = Finset.range (walImage.image.length / pageSize) ∧
      recoverFrom wal disk = ⟨applyEffects buffer ++ [.truncateWal], .ok ()⟩ := by
  obtain ⟨-, P, hP, -⟩ := parseWal_ok hw
  obtain ⟨buffer, hmake, hbuffer, hdirty⟩ := parseImage_buffer hP
  obtain ⟨-, hlen, -⟩ := parseImage_bounds hP
  have hoff : offsetMax = 2 ^ 63 - 1 := rfl
  refine ⟨buffer, hbuffer, hdirty, ?_⟩
  unfold recoverFrom
  rw [hw, attempt_ok_bind, observe_bind, hs, attempt_ok_bind, hmake, attempt_ok_bind,
    bind_run_ok (applyImage_run (by rw [hbuffer]; omega) disk)]
  rfl

/-- **What `recover` can do.** -/
theorem recover_cases (disk : Disk) : (walPresent disk = false ∧ recover disk = ⟨[], .ok ()⟩) ∨
    (∃ wal e, disk.wal = some wal ∧ wal ≠ [] ∧ recover disk = ⟨[], .error e⟩ ∧
      (parseWal wal = .error e ∨ ∃ walImage, parseWal wal = .ok walImage ∧ checkStale walImage disk.database = .error e)) ∨
    ∃ (wal : Bytes) (walImage : WalImage) (buffer : PageBuffer), disk.wal = some wal ∧ wal ≠ [] ∧
      parseWal wal = .ok walImage ∧ checkStale walImage disk.database = .ok () ∧ buffer.image = walImage.image ∧
      buffer.dirtyPages = Finset.range (walImage.image.length / pageSize) ∧
      recover disk = ⟨applyEffects buffer ++ [.truncateWal], .ok ()⟩ := by
  cases hp : walPresent disk with
  | false => exact Or.inl ⟨rfl, recover_clean hp⟩
  | true =>
    right
    obtain ⟨wal, hwal, hne⟩ := walPresent_eq_true hp
    rw [recover_present hwal hne]
    cases hw : parseWal wal with
    | error e =>
      refine Or.inl ⟨wal, e, hwal, hne, ?_, Or.inl hw⟩
      unfold recoverFrom
      rw [hw]
      exact bind_run_error rfl
    | ok walImage =>
      cases hs : checkStale walImage disk.database with
      | error e =>
        refine Or.inl ⟨wal, e, hwal, hne, ?_, Or.inr ⟨walImage, hw, hs⟩⟩
        unfold recoverFrom
        rw [hw, attempt_ok_bind, observe_bind, hs]
        exact bind_run_error rfl
      | ok u =>
        obtain ⟨buffer, himage, hdirty, hrun⟩ := recoverFrom_run disk hw hs
        exact Or.inr ⟨wal, walImage, buffer, hwal, hne, hw, hs, himage, hdirty, hrun⟩

/-- What a whole recovery leaves. -/
theorem after_recovery {image : Bytes} {buffer : PageBuffer} (himage : buffer.image = image)
    (hdirty : buffer.dirtyPages = Finset.range (image.length / pageSize)) (disk : Disk) :
    after disk (applyEffects buffer ++ [.truncateWal]) = ⟨some image, some []⟩ := by
  rw [after_append, after_applyAll (by rw [hdirty, himage]), himage]
  rfl

/-- **Recovery cut off behind a page write** and run again ends where it would have ended. -/
theorem recover_again {disk : Disk} {wal : Bytes} {walImage : WalImage} {buffer : PageBuffer} (hwal : disk.wal = some wal)
    (hne : wal ≠ []) (hw : parseWal wal = .ok walImage) (himage : buffer.image = walImage.image)
    (hdirty : buffer.dirtyPages = Finset.range (walImage.image.length / pageSize)) {m : Nat}
    (hm : 0 < m) (hle : m ≤ walImage.image.length / pageSize) :
    (recover (after disk ((applyEffects buffer).take (m + 2)))).result = .ok () ∧
      after (after disk ((applyEffects buffer).take (m + 2)))
        (recover (after disk ((applyEffects buffer).take (m + 2)))).effects = ⟨some walImage.image, some []⟩ := by
  obtain ⟨-, P, hP, hgen⟩ := parseWal_ok hw
  obtain ⟨hparse, L, hL, hPL⟩ := parseImage_ok hP
  have hlen := buffer.length_image
  rw [himage] at hlen
  have horder : buffer.order = List.range (walImage.image.length / pageSize) := by
    rw [PageBuffer.order, hdirty]
    exact Finset.sort_range _
  -- the file holds the first pages of the image
  let file := overwrite pageSize walImage.image (List.range m) (resize walImage.image.length (disk.database.getD []))
  have hfile : after disk ((applyEffects buffer).take (m + 2)) = ⟨some file, some wal⟩ := by
    have htake : (applyEffects buffer).take (m + 2) = [.openDatabase, .sizeDatabase walImage.image.length] ++
        (List.range m).map (fun id => .writePage id (block pageSize walImage.image id)) := by
      rw [applyEffects, horder, himage, ← Nat.min_eq_left hle, ← List.take_range, List.map_take, Nat.min_eq_left hle]
      simp only [PageBuffer.pageData, himage]
      rfl
    rw [htake, after_append]
    have hopen : after disk ([.openDatabase, .sizeDatabase walImage.image.length] : List DiskEffect) =
        ⟨some (resize walImage.image.length (disk.database.getD [])), some wal⟩ := by rw [← hwal]; rfl
    rw [hopen, after_writePages]
  have hblock : block pageSize file 0 = block pageSize (imageOf P.pages) 0 := by
    obtain ⟨-, hb⟩ := overwrite_spec hlen (List.range m) _ ((length_resize _ _).trans hlen)
      (fun i hi => Nat.lt_of_lt_of_le (List.mem_range.1 hi) hle)
    rw [hb 0 (by omega), if_pos (List.mem_range.2 hm), hparse]
  obtain ⟨hok, herror⟩ := parse_of_block hL hblock true
  have hstale : checkStale walImage (some file) = .ok () := by
    refine checkStale_ok (fun Q hQ => ?_) herror
    rw [hok Q hQ, ← hgen, hPL]
    exact Nat.le_refl _
  rw [hfile]
  obtain ⟨buffer', himage', hdirty', hrun⟩ := recoverFrom_run ⟨some file, some wal⟩ hw hstale
  rw [recover_present rfl hne, hrun]
  exact ⟨rfl, after_recovery himage' hdirty' _⟩

/-- **Recovery is safe on arbitrary files.**  When it throws, nothing has changed; without a log nothing changes; otherwise
the log was the complete record of an image, not older than the database, and the files are that image and an empty log.
Running it again changes nothing, and run again after a cut behind a page write it ends where it would have ended. -/
theorem recover_safe (disk : Disk) :
    (∀ e, (recover disk).result = .error e → after disk (recover disk).effects = disk) ∧
    (walPresent disk = false → (recover disk).result = .ok () ∧ after disk (recover disk).effects = disk) ∧
    ((recover disk).result = .ok () → walPresent disk = true → ∃ image generation P,
      disk.wal = some (walRecord image generation) ∧ parseImage image true = .ok P ∧
        P.table.inspection.generation = generation ∧
        after disk (recover disk).effects = ⟨some image, some []⟩ ∧
        ∀ file walPresent Q, disk.database = some file → parseImage file walPresent = .ok Q →
          Q.table.inspection.generation ≤ generation) ∧
    after (after disk (recover disk).effects) (recover (after disk (recover disk).effects)).effects =
      after disk (recover disk).effects ∧
    ∀ k, (∃ id bytes, DiskEffect.writePage id bytes ∈ (recover disk).effects.take k) →
      .truncateWal ∉ (recover disk).effects.take k →
      (recover (after disk ((recover disk).effects.take k))).result = .ok () ∧
        after (after disk ((recover disk).effects.take k))
          (recover (after disk ((recover disk).effects.take k))).effects = after disk (recover disk).effects := by
  rcases recover_cases disk with ⟨hp, hrun⟩ | ⟨wal, e, hwal, hne, hrun, -⟩ |
    ⟨wal, walImage, buffer, hwal, hne, hw, hs, himage, hdirty, hrun⟩
  · rw [hrun, after_nil]
    refine ⟨fun _ _ => rfl, fun _ => ⟨rfl, rfl⟩, fun _ h => ?_, by rw [hrun]; rfl, fun k ⟨id, bytes, hm⟩ _ => ?_⟩
    · rw [hp] at h
      cases h
    · rw [List.take_nil] at hm
      cases hm
  · rw [hrun, after_nil]
    refine ⟨fun _ _ => rfl, fun h => ?_, ?_, by rw [hrun]; rfl, fun k ⟨id, bytes, hm⟩ _ => ?_⟩
    · simp [walPresent, hwal, hne] at h
    · intro h
      cases h
    · rw [List.take_nil] at hm
      cases hm
  · have hp : walPresent disk = true := by simp [walPresent, hwal, hne]
    obtain ⟨hrecord, P, hP, hgen⟩ := parseWal_ok hw
    obtain ⟨-, L, hL, -⟩ := parseImage_ok hP
    have hlen := buffer.length_image
    have hlast := after_recovery himage hdirty disk
    rw [hrun]
    simp only
    rw [hlast]
    refine ⟨?_, fun h => ?_, fun _ _ => ?_, ?_, fun k hwrite hclear => ?_⟩
    · intro e he
      cases he
    · rw [hp] at h
      cases h
    · refine ⟨walImage.image, walImage.generation, P, hwal.trans (congrArg some hrecord), hP, hgen, rfl, ?_⟩
      intro file flag Q hfile hQ
      obtain ⟨Q', hQ', hins⟩ := parseImage_flag hQ true
      rw [hfile] at hs
      have := checkStale_inv hs hQ'
      rwa [hins] at this
    · rw [recover_clean rfl]
      rfl
    · -- the cut is behind the first page write and in front of the last effect
      obtain ⟨id, bytes, hm⟩ := hwrite
      have hcount : (applyEffects buffer).length = walImage.image.length / pageSize + 2 := by
        rw [applyEffects, List.length_append, List.length_map, PageBuffer.order, Finset.length_sort, hdirty,
          Finset.card_range]
        exact Nat.add_comm _ _
      have hk3 : 3 ≤ k := by
        by_contra hlt
        have hk2 : (applyEffects buffer ++ [DiskEffect.truncateWal]).take k =
            ([.openDatabase, .sizeDatabase buffer.image.length] : List DiskEffect).take k := by
          rw [List.take_append_of_le_length (hcount ▸ Nat.le_trans (by omega : k ≤ 2) (Nat.le_add_left 2 _)), applyEffects,
            List.take_append_of_le_length (by simp; omega)]
        rw [hk2] at hm
        have := List.mem_of_mem_take hm
        simp at this
      have hkle : k ≤ walImage.image.length / pageSize + 2 := by
        by_contra hgt
        refine hclear ?_
        rw [List.take_of_length_le (by rw [List.length_append, hcount, List.length_singleton]; omega)]
        exact List.mem_append_right _ List.mem_cons_self
      rw [List.take_append_of_le_length (by rw [hcount]; exact hkle)]
      have := recover_again hwal hne hw himage hdirty (by omega : 0 < k - 2) (by omega)
      rwa [Nat.sub_add_cancel (by omega)] at this

theorem recover_safe_onePages : ∃ disk : Disk, disk.database = none ∧ disk.wal = some (walRecord (imageOf onePages) 1) ∧
    after disk (recover disk).effects = ⟨some (imageOf onePages), some []⟩ := by
  have hP := parseImage_imageOf oneLayout_on true
  obtain ⟨-, hlen, -⟩ := parseImage_bounds hP
  have hw : parseWal (walRecord (imageOf onePages) 1) = .ok ⟨imageOf onePages, 1⟩ :=
    parseWal_walRecord hP rfl (by omega) (by decide)
  have hne : walRecord (imageOf onePages) 1 ≠ [] := by rw [← List.length_pos_iff, length_walRecord]; omega
  obtain ⟨disk, hdb, hwal⟩ : ∃ disk : Disk, disk.database = none ∧ disk.wal = some (walRecord (imageOf onePages) 1) :=
    ⟨⟨none, _⟩, rfl, rfl⟩
  obtain ⟨buffer, -, -, hrun⟩ := recoverFrom_run disk hw (by rw [hdb]; rfl)
  rw [← recover_present hwal hne] at hrun
  obtain ⟨image, generation, P, hrecord, hP', hgen, hafter, -⟩ := (recover_safe disk).2.2.1 (by rw [hrun])
    (by simp [walPresent, hwal, hne])
  obtain ⟨-, hlen', hgen'⟩ := parseImage_bounds hP'
  have hinj := Option.some.inj (hwal.symm.trans hrecord)
  rw [← List.append_nil (walRecord (imageOf onePages) 1)] at hinj
  obtain ⟨rfl, -, -⟩ := walRecord_inj (by omega) (by omega) (by decide) (hgen ▸ hgen') hinj
  exact ⟨disk, hdb, hwal, hafter⟩

/-! ## Inspection -/

/-- `inspect` reads the log instead of applying it. -/
def inspect (path : String) : Call Inspection := do
  let disk ← observe id
  if walPresent disk then
    let wal ← attempt (parseWal (disk.wal.getD []))
    attempt (checkStale wal disk.database)
    let parsed ← attempt (parseImage wal.image true)
    pure { parsed.table.inspection with walPresent := true }
  else
    let bytes ← attempt (readFile path disk.database)
    let parsed ← attempt (parseImage bytes false)
    pure parsed.table.inspection

theorem openTable_error {path : String} {disk : Disk} {e : StorageError} (h : recover disk = ⟨[], .error e⟩) :
    openTable path disk = ⟨[], .error e⟩ := bind_run_error h

/-- Behind recovery a table is read from its file. -/
theorem openTable_run (path : String) {disk : Disk} {es : List DiskEffect} (h : recover disk = ⟨es, .ok ()⟩) :
    openTable path disk = ⟨es, do let bytes ← readFile path (after disk es).database
                                  let parsed ← parseImage bytes (walPresent (after disk es))
                                  pure parsed.table⟩ := by
  unfold openTable
  rw [bind_run_ok h, observe_id_bind]
  simp only [pure_eq_attempt, attempt_bind]
  rw [attempt, List.append_nil]

theorem openTable_ok {path : String} {disk : Disk} {es : List DiskEffect} {bytes : Bytes} {P : ParsedImage}
    (h : recover disk = ⟨es, .ok ()⟩) (hread : readFile path (after disk es).database = .ok bytes)
    (hP : parseImage bytes (walPresent (after disk es)) = .ok P) : openTable path disk = ⟨es, .ok P.table⟩ := by
  rw [openTable_run path h, hread]
  simp [bind, Except.bind, hP, pure, Except.pure]

/-- A clean disk is opened as its image. -/
theorem openTable_clean {path : String} {disk : Disk} {image : Bytes} {P : ParsedImage} (hwal : walPresent disk = false)
    (hdb : disk.database = some image) (hP : parseImage image false = .ok P) : openTable path disk = ⟨[], .ok P.table⟩ :=
  openTable_ok (recover_clean hwal) (by rw [after_nil, hdb]; rfl) (by rw [after_nil, hwal]; exact hP)

/-- `inspect` without a log. -/
theorem inspect_clean {path : String} {disk : Disk} (h : walPresent disk = false) : inspect path disk =
    ⟨[], do let bytes ← readFile path disk.database; let parsed ← parseImage bytes false; pure parsed.table.inspection⟩ := by
  unfold inspect
  rw [observe_id_bind, if_neg (by simp [h])]
  simp only [pure_eq_attempt, attempt_bind]
  rfl

/-- `inspect` with a log. -/
theorem inspect_present {path : String} {disk : Disk} {wal : Bytes} (hwal : disk.wal = some wal) (hne : wal ≠ []) :
    inspect path disk = ⟨[], do let walImage ← parseWal wal; checkStale walImage disk.database
                                let parsed ← parseImage walImage.image true
                                pure { parsed.table.inspection with walPresent := true }⟩ := by
  have hp : walPresent disk = true := by simp [walPresent, hwal, hne]
  unfold inspect
  rw [observe_id_bind, if_pos hp, hwal, Option.getD_some]
  simp only [pure_eq_attempt, attempt_bind]
  rfl

/-- **Inspection agrees with opening** on all files, and changes none. -/
theorem inspect_agrees (path : String) (disk : Disk) : (inspect path disk).effects = [] ∧
    ((∃ inspection, (inspect path disk).result = .ok inspection) ↔ ∃ table, (openTable path disk).result = .ok table) ∧
    ∀ inspection table, (inspect path disk).result = .ok inspection → (openTable path disk).result = .ok table →
      inspection.generation = table.inspection.generation ∧ inspection.pageCount = table.inspection.pageCount ∧
      inspection.rowCount = table.inspection.rowCount ∧ inspection.fieldCount = table.inspection.fieldCount ∧
      inspection.indexRoots = table.inspection.indexRoots := by
  cases hp : walPresent disk with
  | false =>
    rw [inspect_clean hp, openTable_run path (recover_clean hp), after_nil, hp]
    refine ⟨rfl, ?_⟩
    cases readFile path disk.database with
    | error e => simp [bind, Except.bind]
    | ok bytes => cases hP : parseImage bytes false <;> simp [bind, Except.bind, hP, pure, Except.pure]
  | true =>
    rcases recover_cases disk with ⟨hp', -⟩ | ⟨wal, e, hwal, hne, hrun, hcause⟩ |
      ⟨wal, walImage, buffer, hwal, hne, hw, hs, himage, hdirty, hrun⟩
    · rw [hp] at hp'
      cases hp'
    · -- the same check fails in both
      rw [inspect_present hwal hne, openTable_error hrun]
      refine ⟨rfl, ?_⟩
      rcases hcause with hw | ⟨walImage, hw, hs⟩
      · simp [bind, Except.bind, hw]
      · simp [bind, Except.bind, hw, hs]
    · obtain ⟨-, P, hP, -⟩ := parseWal_ok hw
      obtain ⟨Q, hQ, hins⟩ := parseImage_flag hP false
      have hafter := after_recovery himage hdirty disk
      rw [inspect_present hwal hne, openTable_ok hrun (by rw [hafter]; rfl) (by rw [hafter]; exact hQ)]
      refine ⟨rfl, ?_⟩
      simp [bind, Except.bind, hw, hs, hP, pure, Except.pure, hins]

end Storage
end Sql
