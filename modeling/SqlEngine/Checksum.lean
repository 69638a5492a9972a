import SqlEngine.Register
import SqlEngine.Wal
/-!
# Checksum — what the CRC of pages and log records notices

`crc32` is a shift register over the bits of the data (`crc32_eq`), so two byte strings of one length that differ within
32 consecutive bits have different checksums (`crc32_burst`).  `burst_detected` carries that to pages and log records.
-/
namespace Sql
namespace Storage

open Wire Register

/-! ## The checksum as a register -/

def crcPoly : BitVec 32 := 0xedb88320#32

theorem crcPoly_msb : crcPoly.msb = true := by decide

theorem crcBit_eq (c : BitVec 32) : crcBit c = step crcPoly c := by
  have hlow : c &&& 1#32 = (BitVec.ofBool (c.getLsbD 0)).setWidth 32 := BitVec.and_one_eq_setWidth_ofBool_getLsbD
  unfold crcBit step
  rw [hlow]
  cases c.getLsbD 0 with
  | true => rfl
  | false => exact BitVec.xor_zero

theorem word_byteBits (b : UInt8) : (word (byteBits b) : BitVec 32) = b.toBitVec.zeroExtend 32 := by
  refine BitVec.eq_of_getLsbD_eq (fun i hi => ?_)
  rw [getLsbD_word _ i hi]
  by_cases h8 : i < 8
  · simp [byteBits, h8, hi]
  · have : b.toBitVec.getLsbD i = false := BitVec.getLsbD_of_ge _ _ (by omega)
    simp [byteBits, h8, this]

/-- Eight steps behind a byte are its eight bits, one at a time. -/
theorem crcByte_eq (c : BitVec 32) (b : UInt8) : crcByte c b = feedAll crcPoly c (byteBits b) := by
  rw [feedAll_word _ _ (by rw [length_byteBits]; decide), length_byteBits, word_byteBits, crcByte,
    show crcBit = step crcPoly from funext crcBit_eq]

theorem foldl_crcByte (c : BitVec 32) (data : Bytes) : data.foldl crcByte c = feedAll crcPoly c (bitsOf data) := by
  induction data generalizing c with
  | nil => rfl
  | cons b data ih => rw [List.foldl_cons, ih, crcByte_eq, bitsOf_cons, feedAll_append]

theorem crc32_eq (data : Bytes) : crc32 data = (~~~ feedAll crcPoly 0xffffffff#32 (bitsOf data)).toNat := by
  rw [crc32, foldl_crcByte]

/-- **No burst of 32 bits leaves the checksum.** -/
theorem crc32_burst {lo : Nat} {a b : Bytes} (h : Burst lo 32 a b) (heq : crc32 a = crc32 b) : a = b := by
  rw [crc32_eq, crc32_eq] at heq
  have := BitVec.not_inj.1 (BitVec.eq_of_toNat_eq heq)
  exact bitsOf_injective (feedAll_burst crcPoly_msb h this)

/-! ## Pages -/

/-- The checksum field of a page is its bytes 20 to 23. -/
theorem page_split (bytes : Bytes) : bytes = bytes.take 20 ++ (bytes.drop 20).take 4 ++ bytes.drop 24 := by
  rw [List.append_assoc, ← drop_split bytes 20 4, List.take_append_drop]

/-- Two pages that decode under one id and differ within a burst beside the checksum or inside it are the same page. -/
theorem decodePage_burst {bytes bytes' : Bytes} {id lo : Nat} {page page' : Page} (hl : bytes.length = pageSize)
    (h : decodePage bytes id = .ok page) (h' : decodePage bytes' id = .ok page') (hb : Burst lo 32 bytes bytes')
    (hlo : lo + 32 ≤ 8 * 20 ∨ 8 * 24 ≤ lo ∨ lo = 8 * 20) : bytes = bytes' := by
  have hsize : pageSize = 4096 := rfl
  have hl' : bytes'.length = pageSize := hb.length_eq ▸ hl
  have hfront : ∀ {x : Bytes}, x.length = pageSize → (x.take 20).length = 20 := fun hx => by
    rw [List.length_take]; omega
  have hfield : ∀ {x : Bytes}, x.length = pageSize → ((x.drop 20).take 4).length = 4 := fun hx => by
    rw [List.length_take, List.length_drop]; omega
  have hz : (zeros 4).length = 4 := rfl
  rw [page_split bytes, page_split bytes'] at hb
  have hsum := decodePage_checksum h
  have hsum' := decodePage_checksum h'
  have hreplaced := hb.replace (z := zeros 4) (by rw [hfront hl, hfront hl']) (by rw [hfield hl, hz])
    (by rw [hfield hl', hz])
  have hrest : (bytes.drop 20).take 4 = (bytes'.drop 20).take 4 → bytes = bytes' := fun hsame => by
    -- the checksum field is the same, so what it was computed of is
    rw [uintAt, hsame, ← uintAt, ← hsum'] at hsum
    have hequal := crc32_burst hreplaced hsum
    obtain ⟨hab, hc⟩ := List.append_inj hequal (by simp only [List.length_append, hfront hl, hfront hl'])
    obtain ⟨ha, -⟩ := List.append_inj hab (by rw [hfront hl, hfront hl'])
    rw [page_split bytes, page_split bytes', ha, hsame, hc]
  rcases hlo with hlo | hlo | rfl
  · refine hrest (hb.untouched (by rw [hfront hl, hfront hl']) (by rw [hfield hl, hfield hl']) (Or.inl ?_))
    rw [hfront hl]
    exact hlo
  · refine hrest (hb.untouched (by rw [hfront hl, hfront hl']) (by rw [hfield hl, hfield hl']) (Or.inr ?_))
    rw [hfront hl, hfield hl]
    exact hlo
  · -- the burst is the checksum field, so what it is computed of is the same
    have ha : bytes.take 20 = bytes'.take 20 := by
      rw [List.append_assoc, List.append_assoc] at hb
      exact hb.untouched_front (by rw [hfront hl, hfront hl']) (by rw [hfront hl])
    have hc : bytes.drop 24 = bytes'.drop 24 := by
      refine hb.untouched_back (by simp only [List.length_append, hfront hl, hfront hl', hfield hl, hfield hl']) ?_
      rw [List.length_append, hfront hl, hfield hl]
    apply hrest
    rw [ha, hc, hsum', uintAt, uintAt] at hsum
    rw [← le_val_of_length (hfield hl), ← le_val_of_length (hfield hl'), hsum]

/-! ## Records -/

/-- Two complete records that differ within a burst are the same record. -/
theorem walRecord_burst {image image' : Bytes} {generation generation' lo : Nat}
    (hb : Burst lo 32 (walRecord image generation) (walRecord image' generation')) :
    walRecord image generation = walRecord image' generation' := by
  have hlen := hb.length_eq
  rw [length_walRecord, length_walRecord] at hlen
  have hparts : ∀ i g, walRecord i g = (walMagic ++ walHeader i g ++ i) ++ walCommit ++
      (le 4 (crc32 (walMagic ++ walHeader i g ++ i)) ++ le 4 0) := fun i g => by simp only [walRecord, List.append_assoc]
  have hdata : ∀ i g, (walMagic ++ walHeader i g ++ i).length = 40 + i.length := fun i g => by
    simp only [List.length_append, length_walHeader, walMagic, List.length_cons, List.length_nil]
  have hcommit : walCommit.length = 8 := rfl
  suffices h : walMagic ++ walHeader image generation ++ image = walMagic ++ walHeader image' generation' ++ image' by
    rw [hparts, hparts, h]
  by_contra hne
  rw [hparts, hparts] at hb
  have hfront := hb
  rw [List.append_assoc _ walCommit, List.append_assoc _ walCommit] at hfront
  -- the burst starts in the data, so it ends in front of the checksum
  have hlo : lo < 8 * (40 + image.length) := by
    by_contra hge
    exact hne (hfront.untouched_front (by rw [hdata, hdata]; omega) (by rw [hdata]; omega))
  have hcommitted : ∀ i g, (walMagic ++ walHeader i g ++ i ++ walCommit).length = 48 + i.length := fun i g => by
    rw [List.length_append, hdata, hcommit]
    omega
  have hsum := hb.untouched_back (by rw [hcommitted, hcommitted]; omega) (by rw [hcommitted]; omega)
  have hcrc := congrArg val (List.append_inj hsum (by rw [length_le, length_le])).1
  rw [val_le (crc32_lt _), val_le (crc32_lt _)] at hcrc
  exact hne (crc32_burst (hfront.front (by rw [hdata, hdata]; omega)) hcrc)

/-- **The checksums notice every burst of 32 bits**: in a page beside its checksum or inside it, in a log record
anywhere. -/
theorem burst_detected : (∀ (bytes bytes' : Bytes) (id lo : Nat) (page : Page), bytes.length = pageSize →
      decodePage bytes id = .ok page → Burst lo 32 bytes bytes' → bytes' ≠ bytes →
      (lo + 32 ≤ 8 * 20 ∨ 8 * 24 ≤ lo ∨ lo = 8 * 20) → ∃ c, decodePage bytes' id = .error c) ∧
    ∀ (image wal' : Bytes) (generation lo : Nat) (walImage : WalImage),
      parseWal (walRecord image generation) = .ok walImage → Burst lo 32 (walRecord image generation) wal' →
      wal' ≠ walRecord image generation → ∃ c, parseWal wal' = .error (.corruption c) := by
  constructor
  · intro bytes bytes' id lo page hl h hb hne hlo
    cases h' : decodePage bytes' id with
    | ok page' => exact absurd (decodePage_burst hl h h' hb hlo).symm hne
    | error c => exact ⟨c, rfl⟩
  · intro image wal' generation lo walImage _ hb hne
    cases h' : readWal wal' with
    | ok walImage' =>
      rw [(readWal_ok h').1] at hb hne
      exact absurd (walRecord_burst hb).symm hne
    | error c => exact ⟨c, by unfold parseWal; rw [h']; rfl⟩

theorem burst_detected_onePages : ∃ (page wal : Bytes), page.length = pageSize ∧
    (∃ c, decodePage page 3 = .error c) ∧ wal.length = (walRecord (imageOf onePages) 1).length ∧
    ∃ c, parseWal wal = .error (.corruption c) := by
  have hfits : Page.Fits ⟨.rows, 3, noPage, [7]⟩ := ⟨by decide, by decide, by decide⟩
  have hdec := decodePage_pageImage hfits
  have hl := length_pageImage hfits.payload_le
  generalize pageImage ⟨.rows, 3, noPage, [7]⟩ = bytes at hdec hl
  have hsize : pageSize = 4096 := rfl
  have hfield : ((bytes.drop 20).take 4).length = 4 := by rw [List.length_take, List.length_drop]; omega
  have hfront : (bytes.take 20).length = 20 := by rw [List.length_take]; omega
  -- another value in the checksum field, and in the last word of a record
  obtain ⟨field, hlen, hne⟩ : ∃ field : Bytes, field.length = 4 ∧ (bytes.drop 20).take 4 ≠ field := by
    by_cases h0 : (bytes.drop 20).take 4 = [0, 0, 0, 0]
    · exact ⟨[1, 0, 0, 0], rfl, by rw [h0]; decide⟩
    · exact ⟨[0, 0, 0, 0], rfl, h0⟩
  have hburst := burst_of_part (bytes.take 20) (bytes.drop 24) (hfield.trans hlen.symm) (by rw [hfield] : _ ≤ 32)
  rw [← page_split, hfront] at hburst
  have hchanged : bytes.take 20 ++ field ++ bytes.drop 24 ≠ bytes := fun h => by
    have h := h.trans (page_split bytes)
    have h1 := (List.append_inj h (by simp only [List.length_append, hfront, hlen, hfield])).1
    exact hne (List.append_inj h1 rfl).2.symm
  have hP := parseImage_imageOf oneLayout_on true
  obtain ⟨-, hlt, -⟩ := parseImage_bounds hP
  have hwal := parseWal_walRecord hP rfl (by omega) (by decide)
  let front := walMagic ++ walHeader (imageOf onePages) 1 ++ imageOf onePages ++ walCommit ++
    le 4 (crc32 (walMagic ++ walHeader (imageOf onePages) 1 ++ imageOf onePages))
  have hsplit : walRecord (imageOf onePages) 1 = front ++ le 4 0 ++ [] := by
    simp only [walRecord, front, List.append_nil, List.append_assoc]
  have hwalburst := burst_of_part front [] (show (le 4 0).length = (le 4 1).length from rfl) (by decide : _ ≤ 32)
  rw [← hsplit] at hwalburst
  refine ⟨_, front ++ le 4 1 ++ [], ?_, burst_detected.1 bytes _ 3 _ _ hl hdec hburst hchanged (Or.inr (Or.inr rfl)), ?_,
    burst_detected.2 (imageOf onePages) _ 1 _ _ hwal hwalburst ?_⟩
  · exact hburst.length_eq ▸ hl
  · exact hwalburst.length_eq.symm
  · rw [hsplit, List.append_nil, List.append_nil]
    exact fun h => absurd (List.append_cancel_left h) (by decide)

end Storage
end Sql
