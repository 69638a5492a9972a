import SqlEngine.Parse
/-!
# Frame — every part depends on its own pages only

A chain, the inner nodes of a tree and a run of linked leaves are each about the pages they list.  Whatever leaves those
pages alone keeps the part (`ChainAt.congr`, `InnerAt.congr`, `LeafChain.congr`).  Runs of leaves join and split
(`LeafChain_append`), and `Sized` is what a page vector under construction keeps: it becomes `PagesOk` as soon as the
vector is known to have fewer than 2³² pages.
-/
namespace Sql
namespace Storage

open Wire BTree

/-! ## Page vectors under construction -/

/-- Pages numbered by position, with payloads that fit and links to pages that exist or fit. -/
def Sized (pages : List Page) : Prop := ∀ i (page : Page), pages[i]? = some page →
  page.id = i ∧ page.payload.length ≤ pagePayloadSize ∧ (page.next < 2 ^ 32 ∨ page.next ≤ pages.length)

theorem PagesOk.sized {pages : List Page} (h : PagesOk pages) : Sized pages := fun i page hp =>
  ⟨(h i page hp).1, (h i page hp).2.payload_le, Or.inl (h i page hp).2.next_lt⟩

theorem Sized.pagesOk {pages : List Page} (h : Sized pages) (hlen : pages.length < 2 ^ 32) : PagesOk pages :=
  fun i page hp => by
    obtain ⟨hid, hpay, hnext⟩ := h i page hp
    have hi := lt_of_getElem?_some hp
    exact ⟨hid, by omega, by omega, hpay⟩

theorem Sized.append {pages : List Page} (h : Sized pages) {page : Page} (hid : page.id = pages.length)
    (hpay : page.payload.length ≤ pagePayloadSize) (hnext : page.next < 2 ^ 32 ∨ page.next ≤ pages.length + 1) :
    Sized (pages ++ [page]) := fun i p hp => by
  rw [List.getElem?_append] at hp
  simp only [List.length_append, List.length_cons, List.length_nil]
  split at hp
  · obtain ⟨h1, h2, h3⟩ := h i p hp
    exact ⟨h1, h2, by omega⟩
  · rename_i hi
    rw [List.getElem?_singleton] at hp
    split at hp
    · obtain rfl := Option.some.inj hp
      exact ⟨by omega, hpay, by omega⟩
    · cases hp

theorem Sized.set {pages : List Page} (h : Sized pages) {i : Nat} {page : Page} (hid : page.id = i)
    (hpay : page.payload.length ≤ pagePayloadSize) (hnext : page.next < 2 ^ 32 ∨ page.next ≤ pages.length) :
    Sized (pages.set i page) := fun j p hp => by
  rw [List.getElem?_set] at hp
  rw [List.length_set]
  split at hp
  · rename_i hij
    split at hp
    · obtain rfl := Option.some.inj hp
      exact ⟨hij ▸ hid, hpay, hnext⟩
    · cases hp
  · exact h j p hp

/-! ## Reading a page after a write -/

theorem getElem?_set_same {pages : List Page} {i : Nat} {old page : Page} (h : pages[i]? = some old) :
    (pages.set i page)[i]? = some page := by
  rw [List.getElem?_set_self (lt_of_getElem?_some h)]

theorem getElem?_set_other {pages : List Page} {i j : Nat} {page : Page} (h : j ≠ i) :
    (pages.set i page)[j]? = pages[j]? := List.getElem?_set_ne (fun h' => h h'.symm)

theorem getElem?_append_old {pages new : List Page} {i : Nat} (h : i < pages.length) :
    (pages ++ new)[i]? = pages[i]? := List.getElem?_append_left h

theorem getElem?_append_new (pages : List Page) (page : Page) : (pages ++ [page])[pages.length]? = some page := by
  simp

/-! ## Parts and the pages they are about -/

theorem ChainAt.congr {pages pages' : List Page} {type : PageType} : ∀ {ch : List (Nat × Bytes)},
    ChainAt pages type ch → (∀ i ∈ ch.map Prod.fst, pages'[i]? = pages[i]?) → ChainAt pages' type ch
  | [], _, _ => trivial
  | (i, _) :: _, h, hi => ⟨by rw [hi i (by simp)]; exact h.1, ChainAt.congr h.2 (fun j hj => hi j (by
      simp only [List.map_cons, List.mem_cons]; exact Or.inr hj))⟩

theorem InnerAt.congr {pages pages' : List Page} : ∀ {n : Nat} {t : Tree Entry n}, InnerAt pages n t →
    (∀ i ∈ inner n t, pages'[i]? = pages[i]?) → InnerAt pages' n t
  | 0, _, _, _ => trivial
  | n + 1, t, h, hi => ⟨by rw [hi t.node.id (by simp [BTree.inner])]; exact h.1, fun k hk => (h.2 k hk).congr (fun i hik =>
      hi i (List.mem_cons_of_mem _ (List.mem_flatMap.2 ⟨k, hk, hik⟩)))⟩

theorem InnerAt.lt {pages : List Page} : ∀ {n : Nat} {t : Tree Entry n}, InnerAt pages n t →
    ∀ i ∈ inner n t, i < pages.length
  | 0, _, _, _, hi => by cases hi
  | n + 1, t, h, i, hi => by
    rcases List.mem_cons.1 hi with rfl | hi
    · exact lt_of_getElem?_some h.1
    · obtain ⟨k, hk, hi⟩ := List.mem_flatMap.1 hi
      exact (h.2 k hk).lt i hi

theorem LeafChain.congr {pages pages' : List Page} {next : Nat} : ∀ {ls : List (Leaf Entry)} {previous : Nat},
    LeafChain pages previous ls next → (∀ l ∈ ls, pages'[l.id]? = pages[l.id]?) → LeafChain pages' previous ls next
  | [], _, _, _ => trivial
  | l :: ls, _, h, hi => ⟨by rw [hi l List.mem_cons_self]; exact h.1, LeafChain.congr h.2 (fun k hk =>
      hi k (List.mem_cons_of_mem l hk))⟩

theorem LeafChain.lt {pages : List Page} {next : Nat} : ∀ {ls : List (Leaf Entry)} {previous : Nat},
    LeafChain pages previous ls next → ∀ l ∈ ls, l.id < pages.length
  | [], _, _, _, hl => by cases hl
  | k :: ls, _, h, l, hl => by
    rcases List.mem_cons.1 hl with rfl | hl
    · exact lt_of_getElem?_some h.1
    · exact LeafChain.lt h.2 l hl

/-! ## Growing page vectors -/

/-- Pages were added at the end. -/
structure Grows (pages pages' : List Page) : Prop where
  le : pages.length ≤ pages'.length
  same : ∀ i < pages.length, pages'[i]? = pages[i]?

theorem Grows.refl (pages : List Page) : Grows pages pages := ⟨Nat.le_refl _, fun _ _ => rfl⟩

theorem Grows.trans {a b c : List Page} (h : Grows a b) (h' : Grows b c) : Grows a c where
  le := Nat.le_trans h.le h'.le
  same i hi := by rw [h'.same i (Nat.lt_of_lt_of_le hi h.le), h.same i hi]

theorem Grows.append (pages new : List Page) : Grows pages (pages ++ new) where
  le := by simp
  same _ hi := getElem?_append_old hi

theorem Grows.page {a b : List Page} (h : Grows a b) {i : Nat} {page : Page} (hp : a[i]? = some page) :
    b[i]? = some page := by
  rw [h.same i (lt_of_getElem?_some hp), hp]

/-- The pages a longer vector has on top. -/
def newIds (pages pages' : List Page) : List Nat := List.range' pages.length (pages'.length - pages.length)

@[simp] theorem newIds_self (pages : List Page) : newIds pages pages = [] := by simp [newIds]

theorem newIds_join {a b c : List Page} (h : a.length ≤ b.length) (h' : b.length ≤ c.length) :
    newIds a b ++ newIds b c = newIds a c := by
  unfold newIds
  have hb : b.length = a.length + (b.length - a.length) := by omega
  generalize b.length - a.length = k at hb ⊢
  rw [hb, List.range'_append_1]
  congr 1
  omega

theorem mem_newIds {a b : List Page} {i : Nat} : i ∈ newIds a b ↔ a.length ≤ i ∧ i < b.length := by
  rw [newIds, List.mem_range'_1]
  omega

theorem newIds_eq {a b : List Page} {k : Nat} (h : b.length = a.length + k) : newIds a b = List.range' a.length k := by
  unfold newIds
  congr 1
  omega

theorem ChainAt.grow {a b : List Page} (h : Grows a b) {type : PageType} {ch : List (Nat × Bytes)}
    (hc : ChainAt a type ch) : ChainAt b type ch := hc.congr (fun i hi => h.same i (hc.lt i hi))

theorem InnerAt.grow {a b : List Page} (h : Grows a b) {n : Nat} {t : Tree Entry n} (ht : InnerAt a n t) :
    InnerAt b n t := ht.congr (fun i hi => h.same i (ht.lt i hi))

theorem LeafChain.grow {a b : List Page} (h : Grows a b) {previous next : Nat} {ls : List (Leaf Entry)}
    (hl : LeafChain a previous ls next) : LeafChain b previous ls next :=
  hl.congr (fun l hk => h.same l.id (hl.lt l hk))

theorem IndexAt.congr {pages pages' : List Page} {rows : List (List Bytes)} {field : Nat} {t : Index}
    (ht : IndexAt pages rows field t) (h : ∀ i ∈ t.ids, pages'[i]? = pages[i]?) : IndexAt pages' rows field t := by
  match t, ht, h with
  | none, ht, _ => exact ht
  | some ⟨n, t⟩, ⟨h1, h2, h3, h4⟩, h =>
    exact ⟨h1, h2.congr (fun i hi => h i (List.mem_append_left _ hi)), h3.congr (fun l hl =>
      h l.id (List.mem_append_right _ (List.mem_map_of_mem hl))), h4⟩

theorem IndexAt.grow {a b : List Page} (h : Grows a b) {rows : List (List Bytes)} {field : Nat} {t : Index}
    (ht : IndexAt a rows field t) : IndexAt b rows field t := by
  match t, ht with
  | none, ht => exact ht
  | some ⟨n, t⟩, ⟨h1, h2, h3, h4⟩ => exact ⟨h1, h2.grow h, h3.grow h, h4⟩

/-! ## Runs of leaves -/

theorem leafHead_append (xs ys : List (Leaf Entry)) (next : Nat) :
    leafHead (xs ++ ys) next = leafHead xs (leafHead ys next) := by
  cases xs with
  | nil => rfl
  | cons x xs => rfl

theorem leafLast_append (previous : Nat) (xs ys : List (Leaf Entry)) :
    leafLast previous (xs ++ ys) = leafLast (leafLast previous xs) ys := by
  cases ys using List.reverseRecOn with
  | nil => simp [leafLast]
  | append_singleton ys y => simp [leafLast, ← List.append_assoc, List.getLastD_eq_getLast?]

theorem leafLast_cons (previous : Nat) (l : Leaf Entry) (ls : List (Leaf Entry)) :
    leafLast previous (l :: ls) = leafLast l.id ls := List.getLastD_cons

/-- **Runs of leaves join** when the links meet. -/
theorem LeafChain_append {pages : List Page} {next : Nat} : ∀ {xs : List (Leaf Entry)} {previous : Nat}
    {ys : List (Leaf Entry)}, LeafChain pages previous (xs ++ ys) next ↔
      LeafChain pages previous xs (leafHead ys next) ∧ LeafChain pages (leafLast previous xs) ys next
  | [], _, _ => by simp [LeafChain, leafLast]
  | x :: xs, previous, ys => by
    rw [List.cons_append, LeafChain, LeafChain, LeafChain_append, leafHead_append, leafLast_cons, and_assoc]

theorem leafLast_of_ne_nil {ls : List (Leaf Entry)} (h : ls ≠ []) (p q : Nat) : leafLast p ls = leafLast q ls := by
  cases ls with
  | nil => exact absurd rfl h
  | cons l ls => rw [leafLast_cons, leafLast_cons]

end Storage
end Sql
