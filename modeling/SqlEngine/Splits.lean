import SqlEngine.Descent
/-!
# Splits — the halves of a page that overflows

`insert_index_entry` splits a page at half the number of its entries, whatever their bytes are.  An entry takes 10 to 110
bytes and a separator with its child 14 to 114: a page that overflows by one of them has so many that neither half can
overflow (`leaf_split`, `internal_split`).  Inserting into pages that fit therefore leaves pages that fit, and no split fails
(`insertIndexEntry_yields`).
-/
namespace Sql
namespace Storage

open Wire BTree

/-! ## Contents that are written -/

def LeafFits (previous : Nat) (entries : List Entry) : Prop :=
  ∃ payload, encodeLeafPayload previous entries = .ok payload ∧ payload.length ≤ pagePayloadSize

def InternalFits (contents : InternalContents) : Prop :=
  ∃ payload, encodeInternalPayload contents = .ok payload ∧ payload.length ≤ pagePayloadSize

theorem decodeLeafContents_inv {page : Page} {leaf : LeafContents} (h : decodeLeafContents page = .ok leaf) :
    LeafOk leaf.previous leaf.entries ∧ page.payload = leafPayload leaf.previous leaf.entries := by
  unfold decodeLeafContents at h
  obtain ⟨_, -, h1⟩ := except_bind_ok.1 h
  obtain ⟨⟨previous, entries⟩, hread, hpure⟩ := except_bind_ok.1 h1
  cases hpure
  obtain ⟨hok, -, hpayload⟩ := readLeaf_ok (liftCorruption_ok.1 hread)
  exact ⟨hok, hpayload⟩

theorem decodeInternalContents_inv {page : Page} {contents : InternalContents}
    (h : decodeInternalContents page = .ok contents) : ∃ first rest, InternalOk contents.level first rest ∧
      page.payload = internalPayload contents.level first rest ∧ contents.separators = rest.map Prod.fst ∧
      contents.children = first :: rest.map Prod.snd := by
  unfold decodeInternalContents at h
  obtain ⟨_, -, h1⟩ := except_bind_ok.1 h
  obtain ⟨⟨level, first, rest⟩, hread, hpure⟩ := except_bind_ok.1 h1
  cases hpure
  obtain ⟨hok, -, hpayload⟩ := readInternal_ok (liftCorruption_ok.1 hread)
  exact ⟨first, rest, hok, hpayload, rfl, rfl⟩

/-! ## Leaves -/

/-- **Halves of a leaf**: a leaf that no longer fits with one entry more splits into two that do, in whatever order the
entries are. -/
theorem leaf_split {page : Page} {leaf : LeafContents} {entry : Entry} {enlarged : List Entry}
    (hdecode : decodeLeafContents page = .ok leaf) (hfits : page.payload.length ≤ pagePayloadSize) (hentry : EntryOk entry)
    (henlarged : enlarged.Perm (entry :: leaf.entries)) : ∃ payload, encodeLeafPayload leaf.previous enlarged = .ok payload ∧
      (pagePayloadSize < payload.length →
        enlarged.take (enlarged.length / 2) ≠ [] ∧ enlarged.drop (enlarged.length / 2) ≠ [] ∧
        ∀ previous, LeafFits previous (enlarged.take (enlarged.length / 2)) ∧
          LeafFits previous (enlarged.drop (enlarged.length / 2))) := by
  obtain ⟨hleaf, hpayload⟩ := decodeLeafContents_inv hdecode
  have hok : ∀ e ∈ enlarged, EntryOk e := fun e he => by
    rcases List.mem_cons.1 (henlarged.mem_iff.1 he) with rfl | he
    · exact hentry
    · exact hleaf.entries_ok e he
  have hkeys : ∀ {es : List Entry}, es ⊆ enlarged → ∀ e ∈ es, e.key.length ≤ maxValueLength :=
    fun hes e he => (hok e (hes he)).key_le
  have hbytes : (enlarged.flatMap putEntry).length = (putEntry entry).length + (leaf.entries.flatMap putEntry).length := by
    rw [(henlarged.flatMap_right putEntry).length_eq, List.flatMap_cons, List.length_append]
  have hentrySize := hentry.size
  have hcount := length_flatMap_putEntry leaf.entries
  rw [hpayload, length_leafPayload] at hfits
  have hsize : pagePayloadSize = 4064 := rfl
  have hlength := henlarged.length_eq
  rw [List.length_cons] at hlength
  have hne : enlarged ≠ [] := List.ne_nil_of_length_pos (by omega)
  refine ⟨leafPayload leaf.previous enlarged, encodeLeafPayload_ok _ hne (by omega) (hkeys (List.Subset.refl _)),
    fun hbig => ?_⟩
  obtain ⟨hleft, hright, -, hhalves⟩ := leaf_halves hok hbig (by rw [length_leafPayload]; omega)
  have htake := List.take_subset (enlarged.length / 2) enlarged
  have hdrop := List.drop_subset (enlarged.length / 2) enlarged
  refine ⟨hleft, hright, fun previous => ⟨?_, ?_⟩⟩
  · exact ⟨_, encodeLeafPayload_ok previous hleft (by rw [List.length_take]; omega) (hkeys htake), (hhalves previous).1⟩
  · exact ⟨_, encodeLeafPayload_ok previous hright (by rw [List.length_drop]; omega) (hkeys hdrop), (hhalves previous).2⟩

/-! ## Internal pages -/

/-- What `encode_internal_payload` asks for. -/
structure Shaped (contents : InternalContents) : Prop where
  level_ne : contents.level ≠ 0
  two : 2 ≤ contents.children.length
  children : contents.separators.length + 1 = contents.children.length
  length_lt : contents.separators.length < 2 ^ 16
  keys : ∀ s ∈ contents.separators, s.key.length ≤ maxValueLength

/-- The bytes of an internal page do not depend on its children. -/
def internalSize (separators : List Entry) : Nat := 8 + (separators.flatMap (fun s => putSeparator (s, 0))).length

theorem internalSize_zip (separators : List Entry) (children : List Nat) (h : separators.length ≤ children.length) :
    8 + ((separators.zip children).flatMap putSeparator).length = internalSize separators := by
  have hsame : ∀ r : Entry × Nat, (putSeparator r).length = (putSeparator (r.1, 0)).length := fun r => by
    rw [length_putSeparator, length_putSeparator]
  have hfst : (separators.zip children).map Prod.fst = separators := List.map_fst_zip h
  rw [internalSize, List.length_flatMap, List.map_congr_left (fun r _ => hsame r), ← List.length_flatMap]
  conv_rhs => rw [← hfst, List.flatMap_map]

theorem encodeInternalPayload_inv {contents : InternalContents} {payload : Bytes}
    (h : encodeInternalPayload contents = .ok payload) :
    Shaped contents ∧ payload.length = internalSize contents.separators := by
  unfold encodeInternalPayload at h
  obtain ⟨_, hshape, h1⟩ := except_bind_ok.1 h
  obtain ⟨parts, hparts, hpure⟩ := except_bind_ok.1 h1
  cases hpure
  have hcheck := throwIf_ok.1 hshape
  have hzip : contents.separators.length ≤ contents.children.tail.length := by
    rw [List.length_tail]
    omega
  have hput : ∀ (r : Entry × Nat) (bytes : Bytes), appendSeparator r = .ok bytes →
      r.1.key.length ≤ maxValueLength ∧ bytes = putSeparator r := fun r bytes hr => by
    unfold appendSeparator appendEntry appendString at hr
    obtain ⟨entry, hentry, hr⟩ := except_bind_ok.1 hr
    obtain ⟨key, hkey, hentry⟩ := except_bind_ok.1 hentry
    obtain ⟨_, hlength, hkey⟩ := except_bind_ok.1 hkey
    cases hkey
    cases hentry
    cases hr
    exact ⟨Nat.le_of_not_lt (throwIf_ok.1 hlength), rfl⟩
  have hall := (List.forall₂_and_left _ _).1 ((except_mapM_ok.1 hparts).imp (fun r bytes hr => hput r bytes hr))
  have hkeys : ∀ s ∈ contents.separators, s.key.length ≤ maxValueLength := fun s hs => by
    rw [← List.map_fst_zip hzip, List.mem_map] at hs
    obtain ⟨r, hr, rfl⟩ := hs
    exact hall.1 r hr
  refine ⟨⟨by omega, by omega, by omega, by omega, hkeys⟩, ?_⟩
  obtain rfl := except_mapM_eq (fun r bytes hr => (hput r bytes hr).2) hparts
  rw [← internalSize_zip _ _ hzip, List.flatMap_def]
  simp only [List.length_append, length_le]

theorem appendSeparators_ok {contents : InternalContents}
    (hkeys : ∀ s ∈ contents.separators, s.key.length ≤ maxValueLength) :
    ∀ r ∈ contents.separators.zip contents.children.tail, appendSeparator r = .ok (putSeparator r) := fun r hr => by
  unfold appendSeparator
  rw [appendEntry_ok (hkeys r.1 (List.of_mem_zip hr).1)]
  rfl

theorem Shaped.encode {contents : InternalContents} (h : Shaped contents) :
    ∃ payload, encodeInternalPayload contents = .ok payload ∧ payload.length = internalSize contents.separators := by
  obtain ⟨hlevel, htwo, hchildren, hlength, hkeys⟩ := h
  have hok : ∃ payload, encodeInternalPayload contents = .ok payload := by
    unfold encodeInternalPayload
    rw [throwIf_neg (by omega), except_mapM_map (appendSeparators_ok hkeys)]
    exact ⟨_, rfl⟩
  obtain ⟨payload, hpayload⟩ := hok
  exact ⟨payload, hpayload, (encodeInternalPayload_inv hpayload).2⟩

theorem internalSize_bounds {separators : List Entry} (hkeys : ∀ s ∈ separators, s.key.length ≤ maxValueLength) :
    8 + 14 * separators.length ≤ internalSize separators ∧ internalSize separators ≤ 8 + 114 * separators.length := by
  have hsize : ∀ s ∈ separators, 14 ≤ (putSeparator (s, 0)).length ∧ (putSeparator (s, 0)).length ≤ 114 := fun s hs => by
    have hkey := hkeys s hs
    have hmax : maxValueLength = 100 := rfl
    rw [length_putSeparator]
    dsimp only
    omega
  have hbounds := length_flatMap_bounds hsize
  rw [internalSize]
  omega

/-- What is in front of a separator, and what is behind it. -/
theorem internalSize_split (separators : List Entry) (k : Nat) :
    internalSize (separators.take k) + internalSize (separators.drop k) = internalSize separators + 8 := by
  have hsplit := length_flatMap_take_drop (fun s => putSeparator (s, 0)) separators k
  rw [internalSize, internalSize, internalSize]
  omega

/-- **Halves of an internal page** that is too large by one separator. -/
theorem shaped_halves {contents : InternalContents} (h : Shaped contents)
    (hbig : pagePayloadSize < internalSize contents.separators)
    (hle : internalSize contents.separators ≤ pagePayloadSize + 114) :
    2 ≤ contents.children.length / 2 ∧ 2 ≤ contents.children.length - contents.children.length / 2 ∧
    InternalFits ⟨contents.level, contents.separators.take (contents.children.length / 2 - 1),
      contents.children.take (contents.children.length / 2)⟩ ∧
    InternalFits ⟨contents.level, contents.separators.drop (contents.children.length / 2),
      contents.children.drop (contents.children.length / 2)⟩ := by
  obtain ⟨hlevel, htwo, hchildren, hlength, hkeys⟩ := h
  have htake : ∀ k, ∀ s ∈ contents.separators.take k, s.key.length ≤ maxValueLength :=
    fun k s hs => hkeys s (List.mem_of_mem_take hs)
  have hdrop : ∀ k, ∀ s ∈ contents.separators.drop k, s.key.length ≤ maxValueLength :=
    fun k s hs => hkeys s (List.mem_of_mem_drop hs)
  have hall := internalSize_bounds hkeys
  generalize hm : contents.children.length / 2 = m
  have hfront := internalSize_split contents.separators (m - 1)
  have hback := internalSize_split contents.separators m
  have hfrontRest := internalSize_bounds (hdrop (m - 1))
  have hbackRest := internalSize_bounds (htake m)
  have hsize : pagePayloadSize = 4064 := rfl
  rw [List.length_drop] at hfrontRest
  rw [List.length_take] at hbackRest
  have hleft : Shaped ⟨contents.level, contents.separators.take (m - 1), contents.children.take m⟩ := by
    refine ⟨hlevel, ?_, ?_, ?_, htake _⟩
    all_goals
      simp only [List.length_take]
      omega
  have hright : Shaped ⟨contents.level, contents.separators.drop m, contents.children.drop m⟩ := by
    refine ⟨hlevel, ?_, ?_, ?_, hdrop _⟩
    all_goals
      simp only [List.length_drop]
      omega
  obtain ⟨left, hleftPayload, hleftSize⟩ := hleft.encode
  obtain ⟨right, hrightPayload, hrightSize⟩ := hright.encode
  refine ⟨by omega, by omega, ⟨left, hleftPayload, ?_⟩, ⟨right, hrightPayload, ?_⟩⟩
  · rw [hleftSize]
    simp only
    omega
  · rw [hrightSize]
    simp only
    omega

/-- The contents with a new separator and the child behind it. -/
def InternalContents.adding (contents : InternalContents) (childIndex : Nat) (split : NodeSplit) : InternalContents :=
  ⟨contents.level, contents.separators.insertIdx childIndex split.separator,
    contents.children.insertIdx (childIndex + 1) split.rightPage⟩

theorem internalSize_adding {contents : InternalContents} {childIndex : Nat}
    (hindex : childIndex ≤ contents.separators.length) (split : NodeSplit) :
    internalSize (contents.adding childIndex split).separators =
      (putSeparator (split.separator, 0)).length + internalSize contents.separators := by
  have hperm := (List.perm_insertIdx split.separator contents.separators hindex).flatMap_right
    (fun s => putSeparator (s, 0))
  rw [internalSize, InternalContents.adding, hperm.length_eq, List.flatMap_cons, List.length_append, internalSize]
  omega

/-- **Splits of an internal page**: one that no longer fits with one more separator and child splits into two that do. -/
theorem internal_split {contents : InternalContents} (hfits : InternalFits contents) {childIndex : Nat}
    (hindex : childIndex ≤ contents.separators.length) {split : NodeSplit} (hsplit : EntryOk split.separator) :
    ∃ payload, encodeInternalPayload (contents.adding childIndex split) = .ok payload ∧
      (pagePayloadSize < payload.length →
        2 ≤ (contents.adding childIndex split).children.length / 2 ∧
        2 ≤ (contents.adding childIndex split).children.length - (contents.adding childIndex split).children.length / 2 ∧
        InternalFits ⟨contents.level,
          (contents.adding childIndex split).separators.take ((contents.adding childIndex split).children.length / 2 - 1),
          (contents.adding childIndex split).children.take ((contents.adding childIndex split).children.length / 2)⟩ ∧
        InternalFits ⟨contents.level,
          (contents.adding childIndex split).separators.drop ((contents.adding childIndex split).children.length / 2),
          (contents.adding childIndex split).children.drop ((contents.adding childIndex split).children.length / 2)⟩) := by
  obtain ⟨old, hold, hle⟩ := hfits
  obtain ⟨hshaped, hsize⟩ := encodeInternalPayload_inv hold
  have hadding := internalSize_adding hindex split
  have hone := hsplit.key_le
  have hmax : maxValueLength = 100 := rfl
  have hpage : pagePayloadSize = 4064 := rfl
  have hold := internalSize_bounds hshaped.keys
  rw [length_putSeparator] at hadding
  dsimp only at hadding
  have hnew : Shaped (contents.adding childIndex split) := by
    obtain ⟨hlevel, htwo, hchildren, hlength, hkeys⟩ := hshaped
    have hseparators : (contents.adding childIndex split).separators.length = contents.separators.length + 1 :=
      List.length_insertIdx_of_le_length hindex _
    have hkids : (contents.adding childIndex split).children.length = contents.children.length + 1 :=
      List.length_insertIdx_of_le_length (by omega) _
    refine ⟨hlevel, by omega, by omega, by omega, fun s hs => ?_⟩
    rcases (List.mem_insertIdx hindex).1 hs with rfl | hs
    · exact hone
    · exact hkeys s hs
  obtain ⟨payload, hpayload, hlength⟩ := hnew.encode
  exact ⟨payload, hpayload, fun hbig => shaped_halves hnew (by omega) (by omega)⟩

/-! ## Runs of the insertion -/

/-- A call that does not throw one error, and what it returns. -/
def Yields {ε α : Type} (bad : ε) (x : Except ε α) (P : α → Prop) : Prop := x ≠ .error bad ∧ ∀ a, x = .ok a → P a

section
variable {ε α β : Type} {bad : ε} {P : α → Prop} {Q : β → Prop}

theorem Yields.bind {x : Except ε α} {f : α → Except ε β} (hx : Yields bad x P) (hf : ∀ a, P a → Yields bad (f a) Q) :
    Yields bad (x >>= f) Q := by
  cases x with
  | error e => exact ⟨fun h => hx.1 (by cases h; rfl), fun b h => by cases h⟩
  | ok a => exact hf a (hx.2 a rfl)

theorem Yields.pure {a : α} (h : P a) : Yields bad (.ok a) P :=
  ⟨(fun he => by cases he), fun b hb => Except.ok.inj hb ▸ h⟩

theorem Yields.error {e : ε} (h : e ≠ bad) : Yields bad (.error e : Except ε α) P :=
  ⟨fun he => h (Except.error.inj he), (fun a ha => by cases ha)⟩

theorem Yields.throwIf {c : Prop} [Decidable c] {e : ε} (h : e ≠ bad) : Yields bad (throwIf c e) (fun _ => ¬ c) := by
  unfold Wire.throwIf
  by_cases hc : c
  · rw [if_pos hc]
    exact .error h
  · rw [if_neg hc]
    exact .pure hc

end

/-- The error of a split without two nodes. -/
def splitError : StorageError := .logicError "Internal split cannot produce two valid nodes"

theorem yields_liftCorruption {α : Type} (x : Except Corruption α) : Yields splitError (liftCorruption x) (x = .ok ·) := by
  cases x with
  | error c => exact .error (by simp [splitError])
  | ok a => exact .pure rfl

theorem yields_decodeLeaf (page : Page) :
    Yields splitError (decodeLeafContents page) (fun leaf => decodeLeafContents page = .ok leaf) := by
  have hyields : Yields splitError (decodeLeafContents page) (fun _ => True) := by
    unfold decodeLeafContents
    exact (Yields.throwIf (by simp [splitError])).bind (fun _ _ =>
      (yields_liftCorruption _).bind (fun _ _ => .pure trivial))
  exact ⟨hyields.1, fun leaf h => h⟩

theorem yields_decodeInternal (page : Page) :
    Yields splitError (decodeInternalContents page) (fun contents => decodeInternalContents page = .ok contents) := by
  have hyields : Yields splitError (decodeInternalContents page) (fun _ => True) := by
    unfold decodeInternalContents
    exact (Yields.throwIf (by simp [splitError])).bind (fun _ _ =>
      (yields_liftCorruption _).bind (fun _ _ => .pure trivial))
  exact ⟨hyields.1, fun contents h => h⟩

theorem yields_encodeInternal {contents : InternalContents}
    (hkeys : ∀ s ∈ contents.separators, s.key.length ≤ maxValueLength) : Yields splitError (encodeInternalPayload contents)
      (fun payload => Shaped contents ∧ payload.length = internalSize contents.separators) := by
  have hyields : Yields splitError (encodeInternalPayload contents) (fun _ => True) := by
    unfold encodeInternalPayload
    refine (Yields.throwIf (by simp [splitError])).bind (fun _ _ => ?_)
    rw [except_mapM_map (appendSeparators_ok hkeys)]
    exact .pure trivial
  exact ⟨hyields.1, fun payload h => encodeInternalPayload_inv h⟩

/-- Every payload fits its page. -/
def PagesFit (pages : List Page) : Prop := ∀ page ∈ pages, page.payload.length ≤ pagePayloadSize

section
variable {pages : List Page} (hfit : PagesFit pages)
include hfit

theorem PagesFit.set {page : Page} (hpage : page.payload.length ≤ pagePayloadSize) (id : Nat) :
    PagesFit (pages.set id page) := fun other hother => by
  rcases List.mem_or_eq_of_mem_set hother with hother | rfl
  · exact hfit other hother
  · exact hpage

theorem PagesFit.concat {page : Page} (hpage : page.payload.length ≤ pagePayloadSize) : PagesFit (pages ++ [page]) :=
  fun other hother => by
    rcases List.mem_append.1 hother with hother | hother
    · exact hfit other hother
    · rw [List.mem_singleton.1 hother]
      exact hpage

theorem PagesFit.setPayload {payload : Bytes} (hpayload : payload.length ≤ pagePayloadSize) (id : Nat) :
    PagesFit (setPayload pages id payload) := by
  cases hpage : pages[id]? with
  | none =>
    rw [Storage.setPayload, List.modify_eq_self (List.getElem?_eq_none_iff.1 hpage)]
    exact hfit
  | some page =>
    rw [setPayload_eq hpage]
    exact hfit.set hpayload id

end

/-- What an insertion leaves, and what it asks of the level above. -/
def Sound (result : Option NodeSplit × Work) : Prop :=
  PagesFit result.2.pages ∧ ∀ split ∈ result.1, EntryOk split.separator

theorem relinkSibling_yields {w : Work} (hfit : PagesFit w.pages) (oldNext rightId : Nat) :
    Yields splitError (relinkSibling oldNext rightId w) (fun w => PagesFit w.pages) := by
  unfold relinkSibling
  by_cases hnext : oldNext = noPage
  · rw [if_pos hnext]
    exact .pure hfit
  rw [if_neg hnext]
  cases hsibling : w.pages[oldNext]? with
  | none => exact .error (by simp [splitError])
  | some sibling =>
    have hold := hfit sibling (List.mem_of_getElem? hsibling)
    have hwrite : Yields splitError (writeU32 sibling.payload 2 rightId)
        (fun payload => payload.length = sibling.payload.length) := by
      unfold writeU32
      refine (Yields.throwIf (by simp [splitError])).bind (fun _ hlength => .pure ?_)
      simp only [patch, List.length_append, List.length_take, List.length_drop, length_le]
      omega
    exact (Yields.throwIf (by simp [splitError])).bind (fun _ _ => hwrite.bind (fun payload hpayload =>
      .pure (hfit.set (by simp only; omega) oldNext)))

/-- **The leaf case** leaves pages that fit. -/
theorem insertLeafEntry_yields {w : Work} (hfit : PagesFit w.pages) {page : Page} (hpage : page ∈ w.pages) {entry : Entry}
    (hentry : EntryOk entry) (pageId : Nat) : Yields splitError (insertLeafEntry page pageId entry w) Sound := by
  unfold insertLeafEntry
  refine (yields_decodeLeaf page).bind (fun leaf hdecode => (Yields.throwIf (by simp [splitError])).bind (fun _ _ => ?_))
  have hperm := lowerInsert_perm entry leaf.entries
  obtain ⟨payload, hpayload, hsplit⟩ := leaf_split hdecode (hfit page hpage) hentry hperm
  have hok := lowerInsert_entryOk (decodeLeafContents_inv hdecode).1.entries_ok hentry
  generalize lowerInsert entry leaf.entries = enlarged at hpayload hsplit hok ⊢
  simp only [hpayload, except_ok_bind]
  by_cases hle : payload.length ≤ pagePayloadSize
  · rw [if_pos hle]
    exact .pure ⟨hfit.set hle pageId, fun split hsplit => by cases hsplit⟩
  · rw [if_neg hle]
    obtain ⟨-, hright, hhalves⟩ := hsplit (Nat.lt_of_not_le hle)
    obtain ⟨leftPayload, hleftEncode, hleftFits⟩ := (hhalves leaf.previous).1
    obtain ⟨rightPayload, hrightEncode, hrightFits⟩ := (hhalves pageId).2
    rw [hleftEncode, except_ok_bind, hrightEncode, except_ok_bind]
    have hpages : PagesFit (w.pages.set pageId { page with next := w.pages.length, payload := leftPayload } ++
        [⟨.indexLeaf, w.pages.length, page.next, rightPayload⟩]) :=
      PagesFit.concat (hfit.set hleftFits pageId) hrightFits
    refine (relinkSibling_yields (w := ⟨_, _⟩) hpages page.next w.pages.length).bind (fun w' hw' => .pure ⟨hw', ?_⟩)
    intro split hmem
    obtain rfl := Option.mem_some_iff.1 hmem
    obtain ⟨first, rest, hcons⟩ := List.exists_cons_of_ne_nil hright
    rw [hcons]
    exact hok first (List.drop_subset _ _ (hcons ▸ List.mem_cons_self))

/-- **The parent of a split child** leaves pages that fit. -/
theorem insertChild_yields {w : Work} (hfit : PagesFit w.pages) {internal : InternalContents}
    (hsize : internalSize internal.separators ≤ pagePayloadSize) (hok : ∀ s ∈ internal.separators, EntryOk s)
    {childIndex : Nat} (hindex : childIndex ≤ internal.separators.length) {split : NodeSplit}
      (hsplit : EntryOk split.separator)
    (pageId : Nat) : Yields splitError (insertChild internal pageId childIndex split w) Sound := by
  have hadding := internalSize_adding hindex split
  have hone := hsplit.key_le
  have hmax : maxValueLength = 100 := rfl
  rw [length_putSeparator] at hadding
  dsimp only at hadding
  have hadded : ∀ s ∈ (internal.adding childIndex split).separators, EntryOk s := fun s hs => by
    rcases (List.mem_insertIdx hindex).1 hs with rfl | hs
    · exact hsplit
    · exact hok s hs
  unfold insertChild
  refine (@yields_encodeInternal (internal.adding childIndex split) (fun s hs => (hadded s hs).key_le)).bind
    (fun payload hpayload => ?_)
  obtain ⟨hshaped, hlength⟩ := hpayload
  by_cases hle : payload.length ≤ pagePayloadSize
  · rw [if_pos hle]
    exact .pure ⟨hfit.setPayload hle pageId, fun split hsplit => by cases hsplit⟩
  · rw [if_neg hle]
    obtain ⟨hleft, hright, ⟨leftPayload, hleftEncode, hleftFits⟩, ⟨rightPayload, hrightEncode, hrightFits⟩⟩ :=
      shaped_halves hshaped (by omega) (by omega)
    have hchildren := hshaped.children
    simp only [InternalContents.adding] at hleft hright hleftEncode hrightEncode hadded hchildren
    dsimp only
    rw [throwIf_neg (by omega), except_ok_bind, hleftEncode, except_ok_bind, hrightEncode, except_ok_bind]
    refine .pure ⟨PagesFit.concat (hfit.setPayload hleftFits pageId) hrightFits, ?_⟩
    intro split' hmem
    obtain rfl := Option.mem_some_iff.1 hmem
    refine hadded _ ?_
    rw [List.getD_eq_getElem?_getD, List.getElem?_eq_getElem (by omega), Option.getD_some]
    exact List.getElem_mem _

/-- **Inserting into pages that fit** never fails to split, and leaves pages that fit. -/
theorem insertIndexEntry_yields {entry : Entry} (hentry : EntryOk entry) : ∀ (fuel pageId : Nat) {w : Work},
    PagesFit w.pages → Yields splitError (insertIndexEntry fuel pageId entry w) Sound
  | 0, _, _, _ => .error (by simp [splitError])
  | fuel + 1, pageId, w, hfit => by
    rw [insertIndexEntry]
    cases hpage : w.pages[pageId]? with
    | none => exact .error (by simp [splitError])
    | some page =>
      have hmem := List.mem_of_getElem? hpage
      simp only
      cases htype : page.type with
      | indexLeaf => exact insertLeafEntry_yields hfit hmem hentry pageId
      | indexInternal =>
        simp only
        refine (yields_decodeInternal page).bind (fun internal hdecode => ?_)
        refine (insertIndexEntry_yields hentry fuel _ hfit).bind (fun result hresult => ?_)
        obtain ⟨split, w'⟩ := result
        obtain ⟨hfit', hsplit⟩ := hresult
        cases split with
        | none => exact .pure ⟨hfit', fun split h => by cases h⟩
        | some split =>
          obtain ⟨first, rest, hrest, hpayload, hseparators, -⟩ := decodeInternalContents_inv hdecode
          have hsize : internalSize internal.separators = page.payload.length := by
            have hzip := internalSize_zip (rest.map Prod.fst) (rest.map Prod.snd) (by simp)
            rw [hpayload, length_internalPayload, hseparators, ← hzip, List.zip_map', List.map_id']
          refine insertChild_yields hfit' (by rw [hsize]; exact hfit page hmem) (fun s hs => ?_) (route_le _ _)
            (hsplit split rfl) pageId
          rw [hseparators] at hs
          obtain ⟨r, hr, rfl⟩ := List.mem_map.1 hs
          exact (hrest.rest_ok r hr).1
      | superblock => exact .error (by simp [splitError])
      | schema => exact .error (by simp [splitError])
      | rows => exact .error (by simp [splitError])
      | indexDirectory => exact .error (by simp [splitError])

/-- **Splits by the number of entries always fit.**  A leaf that no longer fits with one entry more splits into two leaves
that are not empty and fit; an internal page that no longer fits with one separator and child more splits into two that have
two children and fit; and inserting an entry into pages that fit neither finds a split without two nodes, nor leaves a page
that cannot be written. -/
theorem splits_fit :
    (∀ (page : Page) (leaf : LeafContents) (entry : Entry) (enlarged : List Entry), decodeLeafContents page = .ok leaf →
      page.payload.length ≤ pagePayloadSize → EntryOk entry → enlarged.Perm (entry :: leaf.entries) →
      ∃ payload, encodeLeafPayload leaf.previous enlarged = .ok payload ∧ (pagePayloadSize < payload.length →
        enlarged.take (enlarged.length / 2) ≠ [] ∧ enlarged.drop (enlarged.length / 2) ≠ [] ∧
        ∀ previous, LeafFits previous (enlarged.take (enlarged.length / 2)) ∧
          LeafFits previous (enlarged.drop (enlarged.length / 2)))) ∧
    (∀ (contents : InternalContents) (childIndex : Nat) (split : NodeSplit), InternalFits contents →
      childIndex ≤ contents.separators.length → EntryOk split.separator →
      ∃ payload, encodeInternalPayload (contents.adding childIndex split) = .ok payload ∧ (pagePayloadSize < payload.length →
        2 ≤ (contents.adding childIndex split).children.length / 2 ∧
        2 ≤ (contents.adding childIndex split).children.length - (contents.adding childIndex split).children.length / 2 ∧
        InternalFits ⟨contents.level,
          (contents.adding childIndex split).separators.take ((contents.adding childIndex split).children.length / 2 - 1),
          (contents.adding childIndex split).children.take ((contents.adding childIndex split).children.length / 2)⟩ ∧
        InternalFits ⟨contents.level,
          (contents.adding childIndex split).separators.drop ((contents.adding childIndex split).children.length / 2),
          (contents.adding childIndex split).children.drop ((contents.adding childIndex split).children.length / 2)⟩)) ∧
    (∀ (fuel pageId : Nat) (entry : Entry) (w : Work), PagesFit w.pages → EntryOk entry →
      insertIndexEntry fuel pageId entry w ≠ .error splitError ∧
      ∀ split w', insertIndexEntry fuel pageId entry w = .ok (split, w') → ∃ image, encodePages w'.pages = .ok image) := by
  refine ⟨fun page leaf entry enlarged hdecode hfits hentry henlarged => leaf_split hdecode hfits hentry henlarged,
    fun contents childIndex split hfits hindex hsplit => internal_split hfits hindex hsplit,
    fun fuel pageId entry w hfit hentry => ?_⟩
  obtain ⟨hne, hsound⟩ := insertIndexEntry_yields hentry fuel pageId hfit
  refine ⟨hne, fun split w' hrun => ?_⟩
  have hpages : ∀ page ∈ w'.pages, encodePage page = .ok (pageImage page) := fun page hpage => by
    have hle := (hsound _ hrun).1 page hpage
    unfold encodePage
    rw [throwIf_neg (by omega)]
    rfl
  unfold encodePages
  rw [except_mapM_map hpages]
  exact ⟨_, rfl⟩

/-- Entries whose keys are as long as keys may be. -/
def longEntries (n : Nat) : List Entry := (List.range n).map (fun i => ⟨List.replicate 100 97, i⟩)

/-- A leaf of 36 such entries and an internal page of 35, with one more each. -/
theorem splits_fit_long :
    (∃ payload, encodeLeafPayload noPage (longEntries 37) = .ok payload ∧ pagePayloadSize < payload.length ∧
      LeafFits noPage ((longEntries 37).take 18) ∧ LeafFits 5 ((longEntries 37).drop 18)) ∧
    (∃ payload, encodeInternalPayload ⟨1, longEntries 36, List.range 37⟩ = .ok payload ∧ pagePayloadSize < payload.length ∧
      InternalFits ⟨1, (longEntries 36).take 17, List.range 18⟩ ∧
      InternalFits ⟨1, (longEntries 36).drop 18, (List.range 37).drop 18⟩) ∧
    insertIndexEntry 1 0 ⟨[98], 40⟩ ⟨[⟨.indexLeaf, 0, noPage, leafPayload noPage (longEntries 36)⟩], ∅⟩ ≠
      .error splitError := by
  have hlong : ∀ n < 100, ∀ e ∈ longEntries n, EntryOk e := fun n hn e he => by
    obtain ⟨i, hi, rfl⟩ := List.mem_map.1 he
    have hlt := List.mem_range.1 hi
    exact ⟨Nat.le_of_eq List.length_replicate, by simp only; omega⟩
  have hleaf : LeafOk noPage (longEntries 36) := ⟨by decide, by decide, hlong 36 (by decide)⟩
  have hlength : (leafPayload noPage (longEntries 36)).length ≤ pagePayloadSize := by decide +kernel
  obtain ⟨leaf, internal, run⟩ := splits_fit
  refine ⟨?_, ?_, ?_⟩
  · obtain ⟨payload, hencode, hsplit⟩ := leaf ⟨.indexLeaf, 5, noPage, leafPayload noPage (longEntries 36)⟩
      ⟨noPage, longEntries 36⟩ ⟨List.replicate 100 97, 36⟩ (longEntries 37) (decodeLeafContents_ok hleaf) hlength
      ⟨by decide, by decide⟩ (by
        rw [show longEntries 37 = longEntries 36 ++ [⟨List.replicate 100 97, 36⟩] by decide +kernel]
        exact List.perm_append_singleton _ _)
    have hbig : pagePayloadSize < payload.length := by
      have hpayload := encodeLeafPayload_ok noPage (by decide : longEntries 37 ≠ []) (by decide)
        (fun e he => (hlong 37 (by decide) e he).key_le)
      obtain rfl := Except.ok.inj (hpayload.symm.trans hencode)
      decide +kernel
    obtain ⟨-, -, hhalves⟩ := hsplit hbig
    exact ⟨payload, hencode, hbig, (hhalves noPage).1, (hhalves 5).2⟩
  · have hkeys : ∀ n < 100, ∀ s ∈ longEntries n, s.key.length ≤ maxValueLength := fun n hn s hs => (hlong n hn s hs).key_le
    have hshaped : Shaped ⟨1, longEntries 35, List.range 36⟩ :=
      ⟨by decide, by decide, by decide, by decide, hkeys 35 (by decide)⟩
    obtain ⟨old, hold, hsize⟩ := hshaped.encode
    have hadding : InternalContents.adding ⟨1, longEntries 35, List.range 36⟩ 35 ⟨⟨List.replicate 100 97, 35⟩, 36⟩ =
        ⟨1, longEntries 36, List.range 37⟩ := by
      have hseparators : (longEntries 35).insertIdx 35 ⟨List.replicate 100 97, 35⟩ = longEntries 36 := by decide +kernel
      have hchildren : (List.range 36).insertIdx 36 36 = List.range 37 := by decide
      simp only [InternalContents.adding, hseparators, hchildren]
    obtain ⟨payload, hencode, hsplit⟩ := internal ⟨1, longEntries 35, List.range 36⟩ 35
      ⟨⟨List.replicate 100 97, 35⟩, 36⟩ ⟨old, hold, by rw [hsize]; decide +kernel⟩ (by decide) ⟨by decide, by decide⟩
    rw [hadding] at hencode hsplit
    have hbig : pagePayloadSize < payload.length := by
      rw [(encodeInternalPayload_inv hencode).2]
      decide +kernel
    obtain ⟨-, -, hhalves⟩ := hsplit hbig
    exact ⟨payload, hencode, hbig, hhalves⟩
  · exact (run 1 0 ⟨[98], 40⟩ _ (fun page hpage => by rw [List.mem_singleton.1 hpage]; exact hlength)
      ⟨by decide, by decide⟩).1

end Storage
end Sql
