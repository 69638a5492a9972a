import SqlEngine.Wire
/-!
# Page — the 4096-byte page envelope of storage format v2

`encodePage` and `decodePage` as `storage_v2.cpp` has them, and that they are inverse to each other
(`decodePage_pageImage`, `decodePage_ok`): a page that decodes is, byte for byte, the encoding of what it decodes to.
Page and record identifiers are natural numbers; every cast to a fixed width is the `le` that writes it.
-/
namespace Sql
namespace Storage

open Wire

def pageSize : Nat := 4096
def formatVersion : Nat := 2
def pageHeaderSize : Nat := 32
def pagePayloadSize : Nat := pageSize - pageHeaderSize
/-- The null page link, the largest 32-bit number. -/
def noPage : Nat := 2 ^ 32 - 1
def maxFields : Nat := 64
def maxValueLength : Nat := 100

/-! ## Errors -/

/-- A `CorruptionError`: the one exception recovery treats as a damaged file. -/
structure Corruption where
  message : String
  deriving DecidableEq, Repr

/-- What the storage layer throws, by exception class. -/
inductive StorageError where
  | corruption (c : Corruption)
  | invalidArgument (what : String)
  | lengthError (what : String)
  | overflowError (what : String)
  | logicError (what : String)
  | outOfRange (what : String)
  | runtimeError (what : String)
  /-- A loop of the source that follows page links and does not end. -/
  | diverges
  deriving DecidableEq, Repr

/-- `what()` of the exception. -/
def StorageError.what : StorageError → String
  | .corruption c => "Storage corruption: " ++ c.message
  | .invalidArgument w | .lengthError w | .overflowError w | .logicError w | .outOfRange w | .runtimeError w => w
  | .diverges => ""

/-- A check that can only report corruption, used where other exceptions may be thrown too. -/
def liftCorruption {α : Type} : Except Corruption α → Except StorageError α
  | .ok a => .ok a
  | .error c => .error (.corruption c)

@[simp] theorem liftCorruption_ok {α : Type} {x : Except Corruption α} {a : α} :
    liftCorruption x = .ok a ↔ x = .ok a := by
  cases x <;> simp [liftCorruption]

theorem liftCorruption_error {α : Type} {x : Except Corruption α} {e : StorageError} (h : liftCorruption x = .error e) :
    ∃ c, e = .corruption c := by
  cases x with
  | ok a => cases h
  | error c => cases h; exact ⟨c, rfl⟩

/-! ## Pages -/

inductive PageType where
  | superblock | schema | rows | indexDirectory | indexLeaf | indexInternal
  deriving DecidableEq, Repr

def PageType.code : PageType → Nat
  | superblock => 1
  | schema => 2
  | rows => 3
  | indexDirectory => 4
  | indexLeaf => 5
  | indexInternal => 6

def PageType.ofCode : Nat → Option PageType
  | 1 => some superblock
  | 2 => some schema
  | 3 => some rows
  | 4 => some indexDirectory
  | 5 => some indexLeaf
  | 6 => some indexInternal
  | _ => none

theorem PageType.ofCode_code (t : PageType) : ofCode t.code = some t := by cases t <;> rfl

theorem PageType.code_of_ofCode {n : Nat} {t : PageType} (h : ofCode n = some t) : t.code = n := by
  unfold ofCode at h
  split at h <;> cases h <;> rfl

theorem PageType.code_lt (t : PageType) : t.code < 256 ^ 1 := by cases t <;> decide

structure Page where
  type : PageType
  id : Nat
  next : Nat
  payload : Bytes
  deriving DecidableEq, Repr

/-! ## The checksum -/

def crcBit (crc : BitVec 32) : BitVec 32 :=
  let mask := 0#32 - (crc &&& 1#32)
  (crc >>> 1) ^^^ (0xedb88320#32 &&& mask)

def crcByte (crc : BitVec 32) (b : UInt8) : BitVec 32 :=
  Nat.iterate crcBit 8 (crc ^^^ b.toBitVec.zeroExtend 32)

/-- Reflected IEEE CRC32. -/
def crc32 (data : Bytes) : Nat := (~~~ data.foldl crcByte 0xffffffff#32).toNat

theorem crc32_lt (data : Bytes) : crc32 data < 256 ^ 4 := (~~~ data.foldl crcByte 0xffffffff#32).isLt

/-! ## The envelope -/

/-- `SQL2` -/
def pageMagic : Bytes := [0x53, 0x51, 0x4C, 0x32]

def zeros (n : Nat) : Bytes := List.replicate n 0

/-- The bytes of a page around a given checksum field. -/
def pageBytes (page : Page) (checksum : Nat) : Bytes :=
  pageMagic ++ le 1 page.type.code ++ le 1 0 ++ le 2 formatVersion ++ le 4 page.id ++ le 4 page.payload.length ++
    le 4 page.next ++ le 4 checksum ++ zeros 8 ++ page.payload ++ zeros (pagePayloadSize - page.payload.length)

/-- The encoding of a page: the checksum is taken with its own field zero. -/
def pageImage (page : Page) : Bytes := pageBytes page (crc32 (pageBytes page 0))

def encodePage (page : Page) : Except StorageError Bytes := do
  throwIf (page.payload.length > pagePayloadSize) (.logicError "Page payload exceeds its bound")
  pure (pageImage page)

/-- The `k`-byte number at an offset. -/
def uintAt (bytes : Bytes) (offset k : Nat) : Nat := val ((bytes.drop offset).take k)

def decodePage (bytes : Bytes) (expectedId : Nat) : Except Corruption Page := do
  throwIf (bytes.take 4 ≠ pageMagic) ⟨"page " ++ toString expectedId ++ " has invalid magic"⟩
  throwIf (uintAt bytes 6 2 ≠ formatVersion) ⟨"page " ++ toString expectedId ++ " has unsupported version"⟩
  throwIf (uintAt bytes 5 1 ≠ 0) ⟨"page " ++ toString expectedId ++ " has unsupported flags"⟩
  throwIf ((bytes.drop 24).take 8 ≠ zeros 8) ⟨"page " ++ toString expectedId ++ " reserved bytes are not zero"⟩
  throwIf (uintAt bytes 8 4 ≠ expectedId) ⟨"page identifier does not match its file offset"⟩
  let payloadSize := uintAt bytes 12 4
  throwIf (payloadSize > pagePayloadSize) ⟨"page payload exceeds its bound"⟩
  throwIf ((bytes.drop (pageHeaderSize + payloadSize)).any (· ≠ 0))
    ⟨"page " ++ toString expectedId ++ " unused bytes are not zero"⟩
  let checksumPage := bytes.take 20 ++ zeros 4 ++ bytes.drop 24
  throwIf (crc32 checksumPage ≠ uintAt bytes 20 4) ⟨"page " ++ toString expectedId ++ " checksum mismatch"⟩
  match PageType.ofCode (uintAt bytes 4 1) with
  | none => .error ⟨"page " ++ toString expectedId ++ " has invalid type"⟩
  | some type => .ok ⟨type, expectedId, uintAt bytes 16 4, (bytes.drop pageHeaderSize).take payloadSize⟩

/-! ## Decoding is inverse to encoding -/

/-- What `encode_page` can write and `decode_page` can return: the numbers fit their fields. -/
structure Page.Fits (page : Page) : Prop where
  id_lt : page.id < 2 ^ 32
  next_lt : page.next < 2 ^ 32
  payload_le : page.payload.length ≤ pagePayloadSize

theorem length_pageBytes {page : Page} (h : page.payload.length ≤ pagePayloadSize) (c : Nat) :
    (pageBytes page c).length = pageSize := by
  simp only [pageBytes, pageMagic, zeros, List.length_append, length_le, List.length_replicate, List.length_cons,
    List.length_nil, pagePayloadSize, pageHeaderSize, pageSize] at h ⊢
  omega

theorem length_pageImage {page : Page} (h : page.payload.length ≤ pagePayloadSize) :
    (pageImage page).length = pageSize := length_pageBytes h _

theorem zeros_of_any {bs : Bytes} (h : ¬ bs.any (· ≠ 0) = true) : bs = zeros bs.length := by
  refine List.eq_replicate_iff.2 ⟨rfl, fun b hb => ?_⟩
  have := fun h' => h (List.any_eq_true.2 ⟨b, hb, h'⟩)
  simpa using this

theorem not_any_zeros (n : Nat) : ¬ (zeros n).any (· ≠ 0) = true := by
  simp [zeros]

/-- The bytes in front of an offset, the `k` bytes there, and the rest. -/
theorem drop_split (bs : Bytes) (offset k : Nat) :
    bs.drop offset = (bs.drop offset).take k ++ bs.drop (offset + k) := by
  rw [← List.drop_drop, List.take_append_drop]

theorem le_uintAt {bs : Bytes} {offset k : Nat} (h : offset + k ≤ bs.length) :
    le k (uintAt bs offset k) = (bs.drop offset).take k :=
  le_val_of_length (by simp; omega)

theorem uintAt_lt (bs : Bytes) (offset k : Nat) : uintAt bs offset k < 256 ^ k :=
  Nat.lt_of_lt_of_le (val_lt _) (Nat.pow_le_pow_right (by decide) (by simp))

/-- **What `decode_page` accepts is the encoding of what it returns.** -/
theorem decodePage_ok {bytes : Bytes} {id : Nat} {page : Page} (hl : bytes.length = pageSize)
    (h : decodePage bytes id = .ok page) : page.id = id ∧ page.Fits ∧ bytes = pageImage page := by
  unfold decodePage at h
  obtain ⟨_, h1, h⟩ := except_bind_ok.1 h
  obtain ⟨_, h2, h⟩ := except_bind_ok.1 h
  obtain ⟨_, h3, h⟩ := except_bind_ok.1 h
  obtain ⟨_, h4, h⟩ := except_bind_ok.1 h
  obtain ⟨_, h5, h⟩ := except_bind_ok.1 h
  obtain ⟨_, h6, h⟩ := except_bind_ok.1 h
  obtain ⟨_, h7, h⟩ := except_bind_ok.1 h
  obtain ⟨_, h8, h⟩ := except_bind_ok.1 h
  simp only [throwIf_ok, ne_eq, not_not, not_lt] at h1 h2 h3 h4 h5 h6 h8
  have h7' := zeros_of_any (throwIf_ok.1 h7)
  split at h
  · cases h
  rename_i type ht
  simp only [Except.ok.injEq] at h
  subst h
  unfold pageSize at hl
  have h6' : uintAt bytes 12 4 ≤ 4064 := h6
  have hsize : ((bytes.drop pageHeaderSize).take (uintAt bytes 12 4)).length = uintAt bytes 12 4 := by
    simp [pageHeaderSize]; omega
  have hcode : le 1 type.code = (bytes.drop 4).take 1 := by
    rw [PageType.code_of_ofCode ht]; exact le_uintAt (by omega)
  have hflag : le 1 0 = (bytes.drop 5).take 1 := by rw [← h3]; exact le_uintAt (by omega)
  have hver : le 2 formatVersion = (bytes.drop 6).take 2 := by rw [← h2]; exact le_uintAt (by omega)
  have hid : le 4 id = (bytes.drop 8).take 4 := by rw [← h5]; exact le_uintAt (by omega)
  have hzero : bytes.drop (pageHeaderSize + uintAt bytes 12 4) = zeros (pagePayloadSize - uintAt bytes 12 4) := by
    rw [h7', List.length_drop, hl, pageHeaderSize, pagePayloadSize, pageSize, pageHeaderSize]; congr 1; omega
  -- the fields in front of the checksum and behind it
  have hfront : bytes.take 20 = pageMagic ++ le 1 type.code ++ le 1 0 ++ le 2 formatVersion ++ le 4 id ++
      le 4 (uintAt bytes 12 4) ++ le 4 (uintAt bytes 16 4) := by
    rw [hcode, hflag, hver, hid, le_uintAt (by omega), le_uintAt (by omega), ← h1, ← List.take_add, ← List.take_add,
      ← List.take_add, ← List.take_add, ← List.take_add, ← List.take_add]
  have hback : bytes.drop 24 = zeros 8 ++ (bytes.drop pageHeaderSize).take (uintAt bytes 12 4) ++
      zeros (pagePayloadSize - uintAt bytes 12 4) := by
    rw [drop_split bytes 24 8, h4, drop_split bytes (24 + 8) (uintAt bytes 12 4), ← hzero, List.append_assoc]
    rfl
  have hall : ∀ c, bytes.take 20 ++ le 4 c ++ bytes.drop 24 =
      pageBytes ⟨type, id, uintAt bytes 16 4, (bytes.drop pageHeaderSize).take (uintAt bytes 12 4)⟩ c := fun c => by
    rw [hfront, hback]
    simp only [pageBytes, hsize, List.append_assoc]
  refine ⟨rfl, ⟨h5 ▸ uintAt_lt bytes 8 4, uintAt_lt bytes 16 4, by rw [hsize]; exact h6⟩, ?_⟩
  have hz : zeros 4 = le 4 0 := rfl
  rw [pageImage, ← hall 0, ← hz, h8, ← hall, le_uintAt (by omega)]
  conv => lhs; rw [← List.take_append_drop 20 bytes, drop_split bytes 20 4]
  rw [List.append_assoc]

/-- The stored checksum is the one of the page with that field zero. -/
theorem decodePage_checksum {bytes : Bytes} {id : Nat} {page : Page} (h : decodePage bytes id = .ok page) :
    crc32 (bytes.take 20 ++ zeros 4 ++ bytes.drop 24) = uintAt bytes 20 4 := by
  unfold decodePage at h
  obtain ⟨_, -, h⟩ := except_bind_ok.1 h
  obtain ⟨_, -, h⟩ := except_bind_ok.1 h
  obtain ⟨_, -, h⟩ := except_bind_ok.1 h
  obtain ⟨_, -, h⟩ := except_bind_ok.1 h
  obtain ⟨_, -, h⟩ := except_bind_ok.1 h
  obtain ⟨_, -, h⟩ := except_bind_ok.1 h
  obtain ⟨_, -, h⟩ := except_bind_ok.1 h
  obtain ⟨_, hsum, -⟩ := except_bind_ok.1 h
  exact not_not.1 (throwIf_ok.1 hsum)

theorem take_of_append {a b : Bytes} {n : Nat} (h : a.length = n) : (a ++ b).take n = a := by
  subst h; simp

theorem drop_of_append {a b : Bytes} {n : Nat} (h : a.length = n) : (a ++ b).drop n = b := by
  subst h; simp

/-- A number written behind `a` is read back. -/
theorem uintAt_append {a b : Bytes} {offset k v : Nat} (ha : a.length = offset) (hv : v < 256 ^ k) :
    uintAt (a ++ (le k v ++ b)) offset k = v := by
  rw [uintAt, drop_of_append ha, take_of_append (length_le k v), val_le hv]

/-- **A page that fits decodes to itself.** -/
theorem decodePage_pageImage {page : Page} (h : page.Fits) : decodePage (pageImage page) page.id = .ok page := by
  obtain ⟨hid, hnext, hpay⟩ := h
  have hcrc := crc32_lt (pageBytes page 0)
  generalize hc : crc32 (pageBytes page 0) = c at hcrc
  have hsize : page.payload.length < 256 ^ 4 := Nat.lt_of_le_of_lt hpay (by decide)
  have e4 : uintAt (pageBytes page c) 4 1 = page.type.code := by
    simp only [pageBytes, List.append_assoc]
    exact uintAt_append rfl page.type.code_lt
  have e5 : uintAt (pageBytes page c) 5 1 = 0 := by
    simp only [pageBytes, List.append_assoc]
    rw [← List.append_assoc pageMagic]
    exact uintAt_append (by simp [pageMagic]) (by decide)
  have e6 : uintAt (pageBytes page c) 6 2 = formatVersion := by
    simp only [pageBytes, List.append_assoc]
    rw [← List.append_assoc pageMagic, ← List.append_assoc (pageMagic ++ _)]
    exact uintAt_append (by simp [pageMagic]) (by decide)
  have e8 : uintAt (pageBytes page c) 8 4 = page.id := by
    rw [show pageBytes page c = (pageMagic ++ le 1 page.type.code ++ le 1 0 ++ le 2 formatVersion) ++ (le 4 page.id ++
      (le 4 page.payload.length ++ le 4 page.next ++ le 4 c ++ zeros 8 ++ page.payload ++
        zeros (pagePayloadSize - page.payload.length))) by simp only [pageBytes, List.append_assoc]]
    exact uintAt_append (by simp [pageMagic]) hid
  have e12 : uintAt (pageBytes page c) 12 4 = page.payload.length := by
    rw [show pageBytes page c = (pageMagic ++ le 1 page.type.code ++ le 1 0 ++ le 2 formatVersion ++ le 4 page.id) ++
      (le 4 page.payload.length ++ (le 4 page.next ++ le 4 c ++ zeros 8 ++ page.payload ++
        zeros (pagePayloadSize - page.payload.length))) by simp only [pageBytes, List.append_assoc]]
    exact uintAt_append (by simp [pageMagic]) hsize
  have e16 : uintAt (pageBytes page c) 16 4 = page.next := by
    rw [show pageBytes page c = (pageMagic ++ le 1 page.type.code ++ le 1 0 ++ le 2 formatVersion ++ le 4 page.id ++
      le 4 page.payload.length) ++ (le 4 page.next ++ (le 4 c ++ zeros 8 ++ page.payload ++
        zeros (pagePayloadSize - page.payload.length))) by simp only [pageBytes, List.append_assoc]]
    exact uintAt_append (by simp [pageMagic]) hnext
  have h20 : ∀ d, pageBytes page d = (pageMagic ++ le 1 page.type.code ++ le 1 0 ++ le 2 formatVersion ++ le 4 page.id ++
      le 4 page.payload.length ++ le 4 page.next) ++ (le 4 d ++ (zeros 8 ++ page.payload ++
        zeros (pagePayloadSize - page.payload.length))) := fun d => by simp only [pageBytes, List.append_assoc]
  have e20 : uintAt (pageBytes page c) 20 4 = c := by
    rw [h20]; exact uintAt_append (by simp [pageMagic]) hcrc
  have e24 : (pageBytes page c).drop 24 = zeros 8 ++ page.payload ++ zeros (pagePayloadSize - page.payload.length) := by
    rw [h20, ← List.append_assoc]; exact drop_of_append (by simp [pageMagic])
  have eres : ((pageBytes page c).drop 24).take 8 = zeros 8 := by
    rw [e24, List.append_assoc]; exact take_of_append (by simp [zeros])
  have epay : (pageBytes page c).drop pageHeaderSize =
      page.payload ++ zeros (pagePayloadSize - page.payload.length) := by
    rw [show pageHeaderSize = 24 + 8 from rfl, ← List.drop_drop, e24, List.append_assoc]
    exact drop_of_append (by simp [zeros])
  have erest : (pageBytes page c).drop (pageHeaderSize + page.payload.length) =
      zeros (pagePayloadSize - page.payload.length) := by
    rw [← List.drop_drop, epay]; exact drop_of_append rfl
  have esum : (pageBytes page c).take 20 ++ zeros 4 ++ (pageBytes page c).drop 24 = pageBytes page 0 := by
    rw [e24, h20 0, h20 c, take_of_append (by simp [pageMagic])]
    simp only [List.append_assoc]; rfl
  have emagic : (pageBytes page c).take 4 = pageMagic := by
    simp only [pageBytes, List.append_assoc]; exact take_of_append rfl
  simp only [pageImage, hc, decodePage, emagic, e4, e5, e6, e8, e12, e16, e20, eres, erest, epay, esum,
    PageType.ofCode_code, throwIf_neg (not_any_zeros _), throwIf_neg (Nat.not_lt.2 hpay)]
  simp [throwIf, Bind.bind, Except.bind]

theorem encodePage_ok {page : Page} {bs : Bytes} : encodePage page = .ok bs ↔
    page.payload.length ≤ pagePayloadSize ∧ bs = pageImage page := by
  unfold encodePage
  rw [except_bind_ok]
  simp only [throwIf_ok, not_lt, pure, Except.pure, Except.ok.injEq]
  constructor
  · rintro ⟨-, h, rfl⟩; exact ⟨h, rfl⟩
  · rintro ⟨h, rfl⟩; exact ⟨(), h, rfl⟩

/-- **The page envelope is a bijection on its image.** -/
theorem pageCodec : (∀ page : Page, page.Fits →
      ∃ bytes, encodePage page = .ok bytes ∧ bytes.length = pageSize ∧ decodePage bytes page.id = .ok page) ∧
    ∀ (bytes : Bytes) (id : Nat) (page : Page), bytes.length = pageSize → decodePage bytes id = .ok page →
      encodePage page = .ok bytes := by
  constructor
  · intro page h
    exact ⟨pageImage page, encodePage_ok.2 ⟨h.payload_le, rfl⟩, length_pageImage h.payload_le, decodePage_pageImage h⟩
  · intro bytes id page hl h
    obtain ⟨-, hfits, hbytes⟩ := decodePage_ok hl h
    exact encodePage_ok.2 ⟨hfits.payload_le, hbytes⟩

theorem pageCodec_rows : ∃ bytes, encodePage ⟨.rows, 3, noPage, [7]⟩ = .ok bytes ∧
    decodePage bytes 3 = .ok ⟨.rows, 3, noPage, [7]⟩ ∧ ∀ page, decodePage bytes 3 = .ok page →
      encodePage page = .ok bytes := by
  obtain ⟨bytes, henc, hlen, hdec⟩ := pageCodec.1 ⟨.rows, 3, noPage, [7]⟩ ⟨by decide, by decide, by decide⟩
  exact ⟨bytes, henc, hdec, fun page h => pageCodec.2 bytes 3 page hlen h⟩

end Storage
end Sql
