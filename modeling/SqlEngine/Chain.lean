import SqlEngine.Layout
/-!
# Chain — decoding pages and reading page chains

An image decodes to a page vector exactly when it is that vector's image (`decodePages_ok`, `decodePages_imageOf`),
and reading a chain collects the payloads of a `ChainAt` and adds its pages to the owned ones (`readChain_ok`,
`readChain_chainAt`).
-/
namespace Sql
namespace Storage

open Wire BTree

/-! ## The pages of an image -/

theorem pageSlice_eq (image : Bytes) : pageSlice image = block pageSize image := rfl

theorem length_pageSlice {image : Bytes} {n i : Nat} (hl : image.length = n * pageSize) (hi : i < n) :
    (pageSlice image i).length = pageSize := by
  have : i * pageSize + pageSize ≤ n * pageSize := by
    calc i * pageSize + pageSize = (i + 1) * pageSize := by ring
      _ ≤ n * pageSize := Nat.mul_le_mul_right _ hi
  simp only [pageSlice, List.length_take, List.length_drop]
  omega

theorem PagesOk.fits {pages : List Page} (h : PagesOk pages) : ∀ page ∈ pages, page.Fits := fun page hp => by
  obtain ⟨i, hi⟩ := List.getElem?_of_mem hp
  exact (h i page hi).2

theorem PagesOk.length_pageImage {pages : List Page} (h : PagesOk pages) :
    ∀ page ∈ pages, (pageImage page).length = pageSize := fun page hp =>
  Storage.length_pageImage (h.fits page hp).payload_le

theorem length_imageOf {pages : List Page} (h : PagesOk pages) : (imageOf pages).length = pages.length * pageSize :=
  length_flatMap_block h.length_pageImage

theorem pageSlice_imageOf {pages : List Page} (h : PagesOk pages) {i : Nat} {page : Page} (hi : pages[i]? = some page) :
    pageSlice (imageOf pages) i = pageImage page :=
  block_flatMap h.length_pageImage hi

theorem flatMap_eq_of_forall₂ {α β : Type} {f : α → Bytes} {g : β → Bytes} {as : List α} {bs : List β}
    (h : List.Forall₂ (fun a b => f a = g b) as bs) : as.flatMap f = bs.flatMap g := by
  induction h with
  | nil => rfl
  | cons hab _ ih => rw [List.flatMap_cons, List.flatMap_cons, hab, ih]

/-- **A decoded image is the image of its pages.** -/
theorem decodePages_ok {image : Bytes} {pages : List Page} (hl : image.length % pageSize = 0)
    (h : decodePages image = .ok pages) : PagesOk pages ∧ image = imageOf pages := by
  have hlen : image.length = image.length / pageSize * pageSize := (Nat.div_mul_cancel (Nat.dvd_of_mod_eq_zero hl)).symm
  generalize hn : image.length / pageSize = n at hlen
  have h2 := except_mapM_ok.1 h
  rw [hn] at h2
  have hget : ∀ i (hi : i < n) page, pages[i]? = some page → decodePage (pageSlice image i) i = .ok page := by
    intro i hi page hp
    obtain ⟨hi', rfl⟩ := List.getElem?_eq_some_iff.1 hp
    have := (List.forall₂_iff_get.1 h2).2 i (by simpa using hi) hi'
    simpa using this
  have hpl : pages.length = n := by simpa using h2.length_eq.symm
  refine ⟨fun i page hp => ?_, ?_⟩
  · have hi : i < n := hpl ▸ lt_of_getElem?_some hp
    have := decodePage_ok (length_pageSlice hlen hi) (hget i hi page hp)
    exact ⟨this.1, this.2.1⟩
  · conv => lhs; rw [← flatMap_block pageSize n image hlen]
    refine flatMap_eq_of_forall₂ (List.forall₂_iff_get.2 ⟨by simp [hpl], fun i h1 h3 => ?_⟩)
    have hi : i < n := by simpa using h1
    have hp : pages[i]? = some pages[i] := List.getElem?_eq_getElem _
    simpa [pageSlice_eq] using (decodePage_ok (length_pageSlice hlen hi) (hget i hi _ hp)).2.2

/-- **The image of a page vector decodes to it.** -/
theorem decodePages_imageOf {pages : List Page} (h : PagesOk pages) : decodePages (imageOf pages) = .ok pages := by
  refine except_mapM_ok.2 ?_
  have hn : (imageOf pages).length / pageSize = pages.length := by
    rw [length_imageOf h]; exact Nat.mul_div_cancel _ (by decide)
  rw [hn]
  refine List.forall₂_iff_get.2 ⟨by simp, fun i h1 h2 => ?_⟩
  have hp : pages[i]? = some pages[i] := List.getElem?_eq_getElem _
  obtain ⟨hid, hfit⟩ := h i _ hp
  have hd := decodePage_pageImage hfit
  rw [hid] at hd
  simp only [List.get_eq_getElem, List.getElem_range]
  rw [pageSlice_imageOf h hp, hd]

/-! ## Reading a chain -/

theorem readChain_noPage (pages : List Page) (type : PageType) (chain owned : Finset Nat) :
    readChain pages type noPage chain owned = .ok ([], owned) := by
  rw [readChain]; simp

/-- One step of reading a chain. -/
theorem readChain_cons {pages : List Page} {type : PageType} {current : Nat} {chain owned : Finset Nat} {page : Page}
    (hne : current ≠ noPage) (hp : pages[current]? = some page) (hc : current ∉ chain) (ho : current ∉ owned)
    (ht : page.type = type) : readChain pages type current chain owned =
      (do let (rest, owned) ← readChain pages type page.next (insert current chain) (insert current owned)
          pure (page.payload ++ rest, owned)) := by
  conv => lhs; rw [readChain]
  rw [if_neg hne]
  split
  · rename_i h; rw [hp] at h; cases h
  · rename_i page' h
    rw [hp] at h
    obtain rfl : page = page' := by simpa using h
    rw [dif_neg hc, if_neg ho, if_neg (by simpa using ht)]

/-- What one step of reading a chain checked. -/
theorem readChain_step {pages : List Page} {type : PageType} {current : Nat} {chain owned owned' : Finset Nat}
    {bs : Bytes} (hne : current ≠ noPage) (h : readChain pages type current chain owned = .ok (bs, owned')) :
    ∃ page rest, pages[current]? = some page ∧ current ∉ chain ∧ current ∉ owned ∧ page.type = type ∧
      readChain pages type page.next (insert current chain) (insert current owned) = .ok (rest, owned') ∧
      bs = page.payload ++ rest := by
  rw [readChain, if_neg hne] at h
  split at h
  · cases h
  rename_i page hp
  split at h
  · cases h
  rename_i hc
  split at h
  · cases h
  rename_i ho
  split at h
  · cases h
  rename_i ht
  obtain ⟨⟨rest, ow⟩, h1, h2⟩ := except_bind_ok.1 h
  simp only [pure, Except.pure, Except.ok.injEq, Prod.mk.injEq] at h2
  obtain ⟨rfl, rfl⟩ := h2
  exact ⟨page, rest, hp, hc, ho, by simpa using ht, h1, rfl⟩

/-- **A chain that reads**: its pages, their bytes, and that none of them was owned before. -/
theorem readChain_ok {pages : List Page} (hpages : PagesOk pages) {type : PageType} (current : Nat)
    (chain owned : Finset Nat) : ∀ {bs : Bytes} {owned' : Finset Nat},
    readChain pages type current chain owned = .ok (bs, owned') →
    ∃ ch, chainHead ch = current ∧ ChainAt pages type ch ∧ bs = chainBytes ch ∧ (ch.map Prod.fst).Nodup ∧
      (∀ i ∈ ch.map Prod.fst, i ∉ owned ∧ i ∉ chain ∧ i < pages.length) ∧
      owned' = owned ∪ (ch.map Prod.fst).toFinset := by
  induction current, chain, owned using readChain.induct pages type with
  | case1 chain owned =>
    intro bs owned' h
    rw [readChain_noPage] at h
    obtain ⟨rfl, rfl⟩ : [] = bs ∧ owned = owned' := by simpa using h
    exact ⟨[], rfl, trivial, rfl, List.nodup_nil, by simp, by simp⟩
  | case6 current chain owned hne page hp hc ho ht ih =>
    intro bs owned' h
    obtain ⟨page', rest, hp', -, -, ht', h1, rfl⟩ := readChain_step hne h
    obtain rfl : page = page' := by rw [hp] at hp'; simpa using hp'
    obtain ⟨ch, hhead, hat, rfl, hnd, hnew, rfl⟩ := ih h1
    refine ⟨(current, page.payload) :: ch, rfl, ⟨?_, hat⟩, rfl, ?_, ?_, ?_⟩
    · rw [hp, hhead, ← (hpages current page hp).1, ← ht']
    · rw [List.map_cons, List.nodup_cons]
      exact ⟨fun hm => (hnew current hm).2.1 (Finset.mem_insert_self _ _), hnd⟩
    · intro i hi
      rcases List.mem_cons.1 hi with rfl | hi
      · exact ⟨ho, hc, lt_of_getElem?_some hp⟩
      · obtain ⟨h1, h2, h3⟩ := hnew i hi
        exact ⟨fun h => h1 (Finset.mem_insert_of_mem h), fun h => h2 (Finset.mem_insert_of_mem h), h3⟩
    · ext x
      simp only [Finset.mem_union, Finset.mem_insert, List.map_cons, List.toFinset_cons]
      tauto
  | case2 current chain owned hne hp =>
    intro bs owned' h
    obtain ⟨page, _, hp', _⟩ := readChain_step hne h
    rw [hp] at hp'; cases hp'
  | case3 current chain owned hne page hp hc =>
    intro bs owned' h
    obtain ⟨_, _, _, hc', _⟩ := readChain_step hne h
    exact absurd hc hc'
  | case4 current chain owned hne page hp hc ho =>
    intro bs owned' h
    obtain ⟨_, _, _, _, ho', _⟩ := readChain_step hne h
    exact absurd ho ho'
  | case5 current chain owned hne page hp hc ho ht =>
    intro bs owned' h
    obtain ⟨page', _, hp', _, _, ht', _⟩ := readChain_step hne h
    obtain rfl : page = page' := by rw [hp] at hp'; simpa using hp'
    exact absurd ht' ht

theorem ChainAt.lt {pages : List Page} {type : PageType} : ∀ {ch : List (Nat × Bytes)}, ChainAt pages type ch →
    ∀ i ∈ ch.map Prod.fst, i < pages.length
  | [], _, i, hi => by cases hi
  | (j, _) :: ch, h, i, hi => by
    rcases List.mem_cons.1 hi with rfl | hi
    · exact lt_of_getElem?_some h.1
    · exact ChainAt.lt h.2 i hi

/-- **A chain on its pages reads**, when none of its pages is owned. -/
theorem readChain_chainAt {pages : List Page} (hlen : pages.length < 2 ^ 32) {type : PageType} :
    ∀ (ch : List (Nat × Bytes)) (chain owned : Finset Nat), ChainAt pages type ch → (ch.map Prod.fst).Nodup →
      (∀ i ∈ ch.map Prod.fst, i ∉ owned ∧ i ∉ chain) →
      readChain pages type (chainHead ch) chain owned = .ok (chainBytes ch, owned ∪ (ch.map Prod.fst).toFinset)
  | [], chain, owned, _, _, _ => by simp [chainHead, chainBytes, readChain_noPage]
  | (i, payload) :: ch, chain, owned, hat, hnd, hnew => by
    have hlt := lt_of_getElem?_some hat.1
    have hne : i ≠ noPage := by unfold noPage; omega
    rw [List.map_cons, List.nodup_cons] at hnd
    obtain ⟨ho, hc⟩ := hnew i List.mem_cons_self
    have ih := readChain_chainAt hlen ch (insert i chain) (insert i owned) hat.2 hnd.2 (fun j hj => by
      have hij : j ≠ i := fun h => hnd.1 (h ▸ hj)
      have := hnew j (List.mem_cons_of_mem i hj)
      simp only [Finset.mem_insert, not_or]
      exact ⟨⟨hij, this.1⟩, hij, this.2⟩)
    rw [show chainHead ((i, payload) :: ch) = i from rfl, readChain_cons hne hat.1 hc ho rfl]
    simp only [ih, bind, Except.bind, pure, Except.pure, Except.ok.injEq, Prod.mk.injEq]
    refine ⟨rfl, ?_⟩
    ext x
    simp only [Finset.mem_union, Finset.mem_insert, List.map_cons, List.toFinset_cons]
    tauto

end Storage
end Sql
