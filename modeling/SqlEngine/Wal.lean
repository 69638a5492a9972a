import SqlEngine.Parse
/-!
# Wal — the record of the write-ahead log

`wal_record` and `parse_wal`.  A complete record parses to the image it carries (`parseWal_walRecord`), and what is left
of it when writing is cut off never does: its length does not fit the length in its header (`parseWal_prefix`).
-/
namespace Sql
namespace Storage

open Wire BTree

/-! ## The record -/

/-- `SQL2WAL` and a zero byte. -/
def walMagic : Bytes := [0x53, 0x51, 0x4C, 0x32, 0x57, 0x41, 0x4C, 0]

/-- `COMMIT2` and a zero byte. -/
def walCommit : Bytes := [0x43, 0x4F, 0x4D, 0x4D, 0x49, 0x54, 0x32, 0]

def walHeaderSize : Nat := 40
def walFooterSize : Nat := 16

/-- The fields of the header behind its magic. -/
def walHeader (image : Bytes) (generation : Nat) : Bytes :=
  le 4 1 ++ le 4 walHeaderSize ++ le 8 image.length ++ le 8 generation ++ le 4 (crc32 image) ++ le 4 0

def walRecord (image : Bytes) (generation : Nat) : Bytes :=
  let record := walMagic ++ walHeader image generation ++ image
  record ++ walCommit ++ le 4 (crc32 record) ++ le 4 0

structure WalImage where
  image : Bytes
  generation : Nat

def readWalHeader : Reader Corruption (Nat × Nat × Nat) := do
  let version ← u32 "WAL header"
  let headerSize ← u32 "WAL header"
  refuseIf (version ≠ 1 ∨ headerSize ≠ walHeaderSize) ⟨"WAL version is invalid"⟩
  let imageSize ← u64 "WAL header"
  let generation ← u64 "WAL header"
  let imageChecksum ← u32 "WAL header"
  let reserved ← u32 "WAL header"
  refuseIf (reserved ≠ 0) ⟨"WAL header is invalid"⟩
  atEnd ⟨"WAL header is invalid"⟩
  pure (imageSize, generation, imageChecksum)

/-- The checks of `parse_wal` in front of the image, and the image with its generation. -/
def readWal (wal : Bytes) : Except Corruption WalImage := do
  throwIf (wal.length < walHeaderSize + walFooterSize) ⟨"WAL contains an incomplete record"⟩
  throwIf (wal.take 8 ≠ walMagic) ⟨"WAL magic is invalid"⟩
  let (imageSize, generation, imageChecksum) ← readAll readWalHeader ((wal.take walHeaderSize).drop 8)
  throwIf (imageSize > 2 ^ 64 - 1 ∨ imageSize ≠ wal.length - walHeaderSize - walFooterSize)
    ⟨"WAL image length is invalid"⟩
  let footer := wal.drop (walHeaderSize + imageSize)
  throwIf (footer.take 8 ≠ walCommit) ⟨"WAL commit footer is invalid"⟩
  throwIf (val ((footer.drop 12).take 4) ≠ 0) ⟨"WAL footer is invalid"⟩
  throwIf (crc32 (wal.take (walHeaderSize + imageSize)) ≠ val ((footer.drop 8).take 4)) ⟨"WAL record checksum mismatch"⟩
  let image := (wal.drop walHeaderSize).take imageSize
  throwIf (crc32 image ≠ imageChecksum) ⟨"WAL image checksum mismatch"⟩
  pure ⟨image, generation⟩

def parseWal (wal : Bytes) : Except StorageError WalImage := do
  let walImage ← liftCorruption (readWal wal)
  let parsed ← parseImage walImage.image true
  throwIf (parsed.table.inspection.generation ≠ walImage.generation)
    (.corruption ⟨"WAL generation does not match its database image"⟩)
  pure walImage

/-! ## Complete records and cut off ones -/

theorem length_walHeader (image : Bytes) (generation : Nat) : (walHeader image generation).length = 32 := by
  simp [walHeader]

theorem length_walRecord (image : Bytes) (generation : Nat) : (walRecord image generation).length = image.length + 56 := by
  simp only [walRecord, List.length_append, length_walHeader, length_le, walMagic, walCommit, List.length_cons,
    List.length_nil]
  omega

theorem readWalHeader_walHeader {image : Bytes} {generation : Nat} (hlen : image.length < 2 ^ 64)
    (hgen : generation < 2 ^ 64) :
    readAll readWalHeader (walHeader image generation) = .ok (image.length, generation, crc32 image) := by
  refine readAll_ok.2 ⟨[], ?_⟩
  unfold readWalHeader walHeader
  have hlast := (reads_u32 "WAL header").intro 0 [] (by decide)
  rw [List.append_nil] at hlast
  simp only [List.append_assoc]
  rw [run_bind ((reads_u32 _).intro 1 _ (by decide)), run_bind ((reads_u32 _).intro walHeaderSize _ (by decide)),
    run_bind (run_refuseIf (by simp) _), run_bind ((reads_u64 _).intro _ _ hlen), run_bind ((reads_u64 _).intro _ _ hgen),
    run_bind ((reads_u32 _).intro _ _ (crc32_lt image)), run_bind hlast, run_bind (run_refuseIf (by simp) _),
    run_bind (run_atEnd_nil _), run_pure]

/-- The parts of a record by position. -/
theorem walRecord_front (image : Bytes) (generation : Nat) :
    (walRecord image generation).take 8 = walMagic ∧
    ((walRecord image generation).take walHeaderSize).drop 8 = walHeader image generation := by
  have h : walRecord image generation = walMagic ++ (walHeader image generation ++ (image ++ (walCommit ++
      (le 4 (crc32 (walMagic ++ walHeader image generation ++ image)) ++ le 4 0)))) := by
    simp only [walRecord, List.append_assoc]
  have hm : walMagic.length = 8 := rfl
  constructor
  · rw [h, List.take_left' hm]
  · rw [h, List.drop_take, List.drop_left' hm, show walHeaderSize - 8 = 32 from rfl,
      List.take_left' (length_walHeader image generation)]

theorem readWal_walRecord {image : Bytes} {generation : Nat} (hlen : image.length < 2 ^ 64) (hgen : generation < 2 ^ 64) :
    readWal (walRecord image generation) = .ok ⟨image, generation⟩ := by
  obtain ⟨hmagic, hheader⟩ := walRecord_front image generation
  let record := walMagic ++ walHeader image generation ++ image
  have hrecord : record.length = walHeaderSize + image.length := by
    simp only [record, List.length_append, length_walHeader, walMagic, List.length_cons, List.length_nil, walHeaderSize]
  have hsplit : walRecord image generation = record ++ (walCommit ++ (le 4 (crc32 record) ++ le 4 0)) := by
    simp only [walRecord, record, List.append_assoc]
  have hlength := length_walRecord image generation
  have hc : walCommit.length = 8 := rfl
  have htake : (walRecord image generation).take (walHeaderSize + image.length) = record := by
    rw [hsplit, List.take_left' hrecord]
  have hdrop : (walRecord image generation).drop (walHeaderSize + image.length) =
      walCommit ++ (le 4 (crc32 record) ++ le 4 0) := by
    rw [hsplit, List.drop_left' hrecord]
  have himage : ((walRecord image generation).drop walHeaderSize).take image.length = image := by
    have h40 : (walMagic ++ walHeader image generation).length = walHeaderSize := by
      rw [List.length_append, length_walHeader]; rfl
    rw [hsplit, List.append_assoc (walMagic ++ walHeader image generation), List.drop_left' h40, List.take_left]
  have hfoot : ((walCommit ++ (le 4 (crc32 record) ++ le 4 0)).drop 12).take 4 = le 4 0 := by
    rw [← List.append_assoc, List.drop_left' (by rw [List.length_append, hc, length_le]),
      List.take_of_length_le (by rw [length_le])]
  have hsum : ((walCommit ++ (le 4 (crc32 record) ++ le 4 0)).drop 8).take 4 = le 4 (crc32 record) := by
    rw [List.drop_left' hc, List.take_left' (length_le 4 _)]
  have hsizes : walHeaderSize + walFooterSize = 56 := rfl
  unfold readWal
  rw [throwIf_neg (by omega), throwIf_neg (not_not.2 hmagic), hheader, readWalHeader_walHeader hlen hgen]
  simp only [bind, Except.bind]
  rw [throwIf_neg (by rw [hlength]; simp only [walHeaderSize, walFooterSize]; omega), hdrop,
    throwIf_neg (not_not.2 (List.take_left' hc)), hfoot, throwIf_neg (by rw [val_le (by decide)]; simp), htake, hsum,
    throwIf_neg (by rw [val_le (crc32_lt record)]; simp), himage, throwIf_neg (by simp)]
  rfl

/-- **A complete record parses** to the image it carries. -/
theorem parseWal_walRecord {image : Bytes} {generation : Nat} {P : ParsedImage} (h : parseImage image true = .ok P)
    (hg : P.table.inspection.generation = generation) (hlen : image.length < 2 ^ 64) (hgen : generation < 2 ^ 64) :
    parseWal (walRecord image generation) = .ok ⟨image, generation⟩ := by
  unfold parseWal
  rw [readWal_walRecord hlen hgen]
  simp only [liftCorruption, bind, Except.bind, h, throwIf_neg (not_not.2 hg), pure, Except.pure]

/-- **A record that is cut off is corrupt.** -/
theorem parseWal_prefix {image : Bytes} {generation n : Nat} (hlen : image.length < 2 ^ 64) (hgen : generation < 2 ^ 64)
    (hn : n < (walRecord image generation).length) :
    ∃ c, parseWal ((walRecord image generation).take n) = .error (.corruption c) := by
  suffices h : ∃ c, readWal ((walRecord image generation).take n) = .error c by
    obtain ⟨c, hc⟩ := h
    exact ⟨c, by unfold parseWal; rw [hc]; rfl⟩
  have hlength : ((walRecord image generation).take n).length = n := by rw [List.length_take]; omega
  have hsizes : walHeaderSize + walFooterSize = 56 := rfl
  unfold readWal
  by_cases hshort : ((walRecord image generation).take n).length < walHeaderSize + walFooterSize
  · exact ⟨_, by rw [throwIf, if_pos hshort]; rfl⟩
  · -- the header is there, and its length is not the length of what follows
    obtain ⟨hmagic, hheader⟩ := walRecord_front image generation
    have h8 : ((walRecord image generation).take n).take 8 = walMagic := by
      rw [List.take_take, Nat.min_eq_left (by omega), hmagic]
    have h40 : (((walRecord image generation).take n).take walHeaderSize).drop 8 = walHeader image generation := by
      rw [List.take_take, Nat.min_eq_left (by simp only [walHeaderSize]; omega), hheader]
    have htotal := length_walRecord image generation
    refine ⟨⟨"WAL image length is invalid"⟩, ?_⟩
    rw [throwIf_neg hshort, throwIf_neg (not_not.2 h8), h40, readWalHeader_walHeader hlen hgen]
    simp only [bind, Except.bind]
    rw [throwIf, if_pos (Or.inr (by rw [hlength]; simp only [walHeaderSize, walFooterSize]; omega))]

/-! ## Records are canonical -/

theorem readWalHeader_ok {bs : Bytes} {imageSize generation imageChecksum : Nat}
    (h : readAll readWalHeader bs = .ok (imageSize, generation, imageChecksum)) : generation < 2 ^ 64 ∧
      imageSize < 2 ^ 64 ∧
      bs = le 4 1 ++ le 4 walHeaderSize ++ le 8 imageSize ++ le 8 generation ++ le 4 imageChecksum ++ le 4 0 := by
  obtain ⟨tail, h⟩ := readAll_ok.1 h
  unfold readWalHeader at h
  obtain ⟨a1, m1, h1, h⟩ := bind_ok.1 h
  obtain ⟨a2, m2, h2, h⟩ := bind_ok.1 h
  obtain ⟨_, m3, h3, h⟩ := bind_ok.1 h
  obtain ⟨a4, m4, h4, h⟩ := bind_ok.1 h
  obtain ⟨a5, m5, h5, h⟩ := bind_ok.1 h
  obtain ⟨a6, m6, h6, h⟩ := bind_ok.1 h
  obtain ⟨a7, m7, h7, h⟩ := bind_ok.1 h
  obtain ⟨_, m8, h8, h⟩ := bind_ok.1 h
  obtain ⟨_, m9, h9, h⟩ := bind_ok.1 h
  obtain ⟨hv, -⟩ := pure_ok.1 h
  obtain ⟨rfl, rfl, rfl⟩ : a4 = imageSize ∧ a5 = generation ∧ a6 = imageChecksum := by simpa using hv
  obtain ⟨-, rfl⟩ := (reads_u32 _).elim h1
  obtain ⟨-, rfl⟩ := (reads_u32 _).elim h2
  obtain ⟨hversion, rfl⟩ := refuseIf_ok.1 h3
  obtain ⟨b4, rfl⟩ := (reads_u64 _).elim h4
  obtain ⟨b5, rfl⟩ := (reads_u64 _).elim h5
  obtain ⟨-, rfl⟩ := (reads_u32 _).elim h6
  obtain ⟨-, rfl⟩ := (reads_u32 _).elim h7
  obtain ⟨hreserved, rfl⟩ := refuseIf_ok.1 h8
  obtain ⟨rfl, -⟩ := atEnd_ok.1 h9
  simp only [not_or, ne_eq, not_not] at hversion hreserved
  obtain ⟨rfl, rfl⟩ := hversion
  subst hreserved
  exact ⟨b5, b4, by simp⟩

/-- **What the checks in front of the image accept is a complete record.** -/
theorem readWal_ok {wal : Bytes} {walImage : WalImage} (h : readWal wal = .ok walImage) :
    wal = walRecord walImage.image walImage.generation ∧ walImage.image.length < 2 ^ 64 ∧ walImage.generation < 2 ^ 64 := by
  unfold readWal at h
  obtain ⟨_, h1, h⟩ := except_bind_ok.1 h
  obtain ⟨_, h2, h⟩ := except_bind_ok.1 h
  obtain ⟨⟨n, generation, checksum⟩, h3, h⟩ := except_bind_ok.1 h
  obtain ⟨_, h4, h⟩ := except_bind_ok.1 h
  obtain ⟨_, h5, h⟩ := except_bind_ok.1 h
  obtain ⟨_, h6, h⟩ := except_bind_ok.1 h
  obtain ⟨_, h7, h⟩ := except_bind_ok.1 h
  obtain ⟨_, h8, h⟩ := except_bind_ok.1 h
  obtain rfl := Except.ok.inj h
  simp only [throwIf_ok, not_or, ne_eq, not_not, not_lt] at h1 h2 h4 h5 h6 h7 h8
  obtain ⟨hgen, hn, hheader⟩ := readWalHeader_ok h3
  have hsizes : walHeaderSize + walFooterSize = 56 := rfl
  have h40 : walHeaderSize = 40 := rfl
  have hlen : wal.length = n + 56 := by omega
  have himage : ((wal.drop walHeaderSize).take n).length = n := by rw [List.length_take, List.length_drop]; omega
  have hfront : wal.take (walHeaderSize + n) = walMagic ++ walHeader ((wal.drop walHeaderSize).take n) generation ++
      (wal.drop walHeaderSize).take n := by
    have htake : wal.take walHeaderSize = walMagic ++ (wal.take walHeaderSize).drop 8 := by
      have := List.take_append_drop 8 (wal.take walHeaderSize)
      rwa [List.take_take, Nat.min_eq_left (by omega), h2, eq_comm] at this
    rw [List.take_add, htake, hheader, walHeader, himage, h8]
  -- commit mark, checksum and reserved word
  have hback : wal.drop (walHeaderSize + n) = walCommit ++ le 4 (crc32 (wal.take (walHeaderSize + n))) ++ le 4 0 := by
    have hd : (wal.drop (walHeaderSize + n)).length = 16 := by rw [List.length_drop]; omega
    have e8 := drop_split (wal.drop (walHeaderSize + n)) 8 4
    have e12 : ((wal.drop (walHeaderSize + n)).drop 12).take 4 = (wal.drop (walHeaderSize + n)).drop 12 :=
      List.take_of_length_le (by rw [List.length_drop, hd])
    have s8 : le 4 (val (((wal.drop (walHeaderSize + n)).drop 8).take 4)) = ((wal.drop (walHeaderSize + n)).drop 8).take 4 :=
      le_val_of_length (by rw [List.length_take, List.length_drop, hd]; decide)
    have s12 : le 4 (val (((wal.drop (walHeaderSize + n)).drop 12).take 4)) =
        ((wal.drop (walHeaderSize + n)).drop 12).take 4 :=
      le_val_of_length (by rw [List.length_take, List.length_drop, hd]; decide)
    rw [h6] at s12
    conv => lhs; rw [← List.take_append_drop 8 (wal.drop (walHeaderSize + n)), h5, e8, ← e12]
    rw [h7, s8, s12, List.append_assoc]
  refine ⟨?_, by simp only [himage]; exact hn, hgen⟩
  conv => lhs; rw [← List.take_append_drop (walHeaderSize + n) wal, hback, hfront]
  simp only [walRecord, List.append_assoc]

theorem parseWal_ok {wal : Bytes} {walImage : WalImage} (h : parseWal wal = .ok walImage) :
    wal = walRecord walImage.image walImage.generation ∧ ∃ P, parseImage walImage.image true = .ok P ∧
      P.table.inspection.generation = walImage.generation := by
  unfold parseWal at h
  obtain ⟨walImage', h1, h⟩ := except_bind_ok.1 h
  obtain ⟨P, h2, h⟩ := except_bind_ok.1 h
  obtain ⟨_, h3, h⟩ := except_bind_ok.1 h
  obtain rfl := Except.ok.inj h
  exact ⟨(readWal_ok (liftCorruption_ok.1 h1)).1, P, h2, not_not.1 (throwIf_ok.1 h3)⟩

/-- An image that parses is small enough for every length field. -/
theorem parseImage_bounds {image : Bytes} {walPresent : Bool} {P : ParsedImage} (h : parseImage image walPresent = .ok P) :
    pageSize ≤ image.length ∧ image.length < 2 ^ 44 ∧ P.table.inspection.generation < 2 ^ 64 := by
  obtain ⟨himage, L, hL, hP⟩ := parseImage_ok h
  have hpos := lt_of_getElem?_some hL.super_at
  have hlt := hL.length_lt
  have hsize : pageSize = 4096 := rfl
  have hgen : P.table.inspection.generation = L.generation := by rw [hP]; rfl
  rw [himage, length_imageOf hL.pages_ok, hsize, hgen]
  exact ⟨by omega, by omega, hL.generation_lt⟩

/-- A record says how long it is, so none is the beginning of another. -/
theorem walRecord_inj {image image' tail : Bytes} {generation generation' : Nat} (hlen : image.length < 2 ^ 64)
    (hlen' : image'.length < 2 ^ 64) (hgen : generation < 2 ^ 64) (hgen' : generation' < 2 ^ 64)
    (h : walRecord image generation ++ tail = walRecord image' generation') :
    image = image' ∧ generation = generation' ∧ tail = [] := by
  have hl := length_walRecord image generation
  obtain ⟨-, hheader⟩ := walRecord_front image generation
  obtain ⟨-, hheader'⟩ := walRecord_front image' generation'
  rw [← h, List.take_append_of_le_length (by simp only [walHeaderSize]; omega), hheader] at hheader'
  have hread := readWalHeader_walHeader hlen hgen
  rw [hheader', readWalHeader_walHeader hlen' hgen'] at hread
  obtain ⟨hlength, rfl, -⟩ : image'.length = image.length ∧ generation' = generation ∧ crc32 image' = crc32 image := by
    simpa using hread
  have htail : tail = [] := by
    have := congrArg List.length h
    rw [List.length_append, length_walRecord, length_walRecord] at this
    exact List.length_eq_zero_iff.1 (by omega)
  rw [htail, List.append_nil] at h
  have heq := readWal_walRecord hlen hgen
  rw [h, readWal_walRecord hlen' hgen'] at heq
  obtain ⟨rfl, -⟩ : image' = image ∧ generation' = generation' := by simpa using heq
  exact ⟨rfl, rfl, htail⟩

/-- **The format is canonical**: a byte string parses to an image and a generation exactly when it is their record and
the image is one of that generation.  So no part of a record, no record with something behind it and no record under
another generation parses. -/
theorem parseWal_canonical : (∀ (wal image : Bytes) (generation : Nat), parseWal wal = .ok ⟨image, generation⟩ ↔
      wal = walRecord image generation ∧ ∃ P, parseImage image true = .ok P ∧ P.table.inspection.generation = generation) ∧
    ∀ (image : Bytes) (P : ParsedImage), parseImage image true = .ok P →
      (∀ n < (walRecord image P.table.inspection.generation).length, ∀ walImage,
        parseWal ((walRecord image P.table.inspection.generation).take n) ≠ .ok walImage) ∧
      (∀ tail ≠ [], ∀ walImage, parseWal (walRecord image P.table.inspection.generation ++ tail) ≠ .ok walImage) ∧
      ∀ generation < 2 ^ 64, generation ≠ P.table.inspection.generation → ∀ walImage,
        parseWal (walRecord image generation) ≠ .ok walImage := by
  constructor
  · intro wal image generation
    constructor
    · exact parseWal_ok
    · rintro ⟨rfl, P, hP, hg⟩
      obtain ⟨-, hlen, hgen⟩ := parseImage_bounds hP
      exact parseWal_walRecord hP hg (by omega) (hg ▸ hgen)
  · intro image P hP
    obtain ⟨-, hlen, hgen⟩ := parseImage_bounds hP
    refine ⟨fun n hn walImage h => ?_, fun tail htail walImage h => ?_, fun generation hg hne walImage h => ?_⟩
    · obtain ⟨c, hc⟩ := parseWal_prefix (by omega : image.length < 2 ^ 64) hgen hn
      rw [hc] at h
      cases h
    · obtain ⟨hrecord, P', hP', hg'⟩ := parseWal_ok h
      obtain ⟨-, hlen', hgen'⟩ := parseImage_bounds hP'
      exact htail (walRecord_inj (by omega) (by omega) hgen (hg' ▸ hgen') hrecord).2.2
    · obtain ⟨hrecord, P', hP', hg'⟩ := parseWal_ok h
      obtain ⟨-, hlen', hgen'⟩ := parseImage_bounds hP'
      rw [← List.append_nil (walRecord image generation)] at hrecord
      obtain ⟨himage, hgeneration, -⟩ := walRecord_inj (by omega) (by omega) hg (hg' ▸ hgen') hrecord
      rw [← himage, hP] at hP'
      rw [← Except.ok.inj hP', ← hgeneration] at hg'
      exact hne hg'.symm

theorem parseWal_canonical_onePages : parseWal (walRecord (imageOf onePages) 1) = .ok ⟨imageOf onePages, 1⟩ ∧
    (∀ walImage, parseWal ((walRecord (imageOf onePages) 1).take 56) ≠ .ok walImage) ∧
    ∀ walImage, parseWal (walRecord (imageOf onePages) 2) ≠ .ok walImage := by
  have hP := parseImage_imageOf oneLayout_on true
  have hl := length_walRecord (imageOf onePages) 1
  have hsize := (parseImage_bounds hP).1
  have hpage : pageSize = 4096 := rfl
  obtain ⟨hshort, -, hgeneration⟩ := parseWal_canonical.2 _ _ hP
  refine ⟨(parseWal_canonical.1 _ _ _).2 ⟨rfl, _, hP, rfl⟩, hshort 56 ?_, hgeneration 2 (by decide) (by decide)⟩
  exact Nat.lt_of_lt_of_le (by omega) (Nat.le_of_eq hl.symm)

end Storage
end Sql
