import SqlEngine.Inserted
import SqlEngine.Blocks
/-!
# Dirty — every page an insert writes is in the dirty set

Each mutation site of `build_incremental_insert` against the set it records its pages in, for any parsed image:
`insertRowPages_tracks` says that a page outside the set is untouched and every new page is inside.
-/
namespace Sql
namespace Storage

open Wire BTree Blocks

/-- The pages and the dirty set before and after a step. -/
abbrev Work.Tracks (w w' : Work) : Prop := Blocks.Tracks w.pages w.dirty w'.pages w'.dirty

/-! ## One entry into one tree -/

theorem relinkSibling_tracks {oldNext rightId : Nat} {w w' : Work} (h : relinkSibling oldNext rightId w = .ok w') :
    w.Tracks w' := by
  unfold relinkSibling at h
  split at h
  · obtain rfl := Except.ok.inj h
    exact Tracks.refl _ _
  · split at h
    · cases h
    · rename_i sibling hp
      obtain ⟨_, -, h1⟩ := except_bind_ok.1 h
      obtain ⟨payload, -, h2⟩ := except_bind_ok.1 h1
      obtain rfl := Except.ok.inj h2
      exact Tracks.set (lt_of_getElem?_some hp) _

theorem insertLeafEntry_tracks {page : Page} {pageId : Nat} {e : Entry} {w w' : Work} {split : Option NodeSplit}
    (hp : pageId < w.pages.length) (h : insertLeafEntry page pageId e w = .ok (split, w')) : w.Tracks w' := by
  unfold insertLeafEntry at h
  obtain ⟨leaf, -, h1⟩ := except_bind_ok.1 h
  obtain ⟨_, -, h2⟩ := except_bind_ok.1 h1
  obtain ⟨payload, -, h3⟩ := except_bind_ok.1 h2
  split at h3
  · obtain ⟨-, rfl⟩ := Prod.mk.inj (Except.ok.inj h3)
    exact Tracks.set hp _
  · obtain ⟨left, -, h4⟩ := except_bind_ok.1 h3
    obtain ⟨right, -, h5⟩ := except_bind_ok.1 h4
    obtain ⟨w1, h6, h7⟩ := except_bind_ok.1 h5
    obtain ⟨-, rfl⟩ := Prod.mk.inj (Except.ok.inj h7)
    exact (Tracks.set_push hp _ _).trans (relinkSibling_tracks h6)

theorem setPayload_tracks {pages : List Page} {d : Finset Nat} {id : Nat} (hid : id < pages.length) (payload : Bytes) :
    Blocks.Tracks pages d (setPayload pages id payload) (insert id d) := by
  rw [setPayload_eq (List.getElem?_eq_getElem hid)]
  exact Tracks.set hid _

theorem insertChild_tracks {internal : InternalContents} {pageId childIndex : Nat} {s : NodeSplit} {w w' : Work}
    {split : Option NodeSplit} (hp : pageId < w.pages.length)
    (h : insertChild internal pageId childIndex s w = .ok (split, w')) : w.Tracks w' := by
  unfold insertChild at h
  obtain ⟨payload, -, h1⟩ := except_bind_ok.1 h
  split at h1
  · obtain ⟨-, rfl⟩ := Prod.mk.inj (Except.ok.inj h1)
    exact setPayload_tracks hp _
  · obtain ⟨_, -, h2⟩ := except_bind_ok.1 h1
    obtain ⟨left, -, h3⟩ := except_bind_ok.1 h2
    obtain ⟨right, -, h4⟩ := except_bind_ok.1 h3
    obtain ⟨-, rfl⟩ := Prod.mk.inj (Except.ok.inj h4)
    rw [setPayload_eq (List.getElem?_eq_getElem hp)]
    exact Tracks.set_push hp _ _

theorem insertIndexEntry_tracks {e : Entry} : ∀ {fuel pageId : Nat} {w w' : Work} {split : Option NodeSplit},
    insertIndexEntry fuel pageId e w = .ok (split, w') → w.Tracks w'
  | 0, _, _, _, _, h => by cases h
  | fuel + 1, pageId, w, w', split, h => by
    rw [insertIndexEntry] at h
    split at h
    · cases h
    rename_i page hp
    have hlt := lt_of_getElem?_some hp
    split at h
    · exact insertLeafEntry_tracks hlt h
    · obtain ⟨internal, -, h1⟩ := except_bind_ok.1 h
      obtain ⟨⟨child, w1⟩, h2, h3⟩ := except_bind_ok.1 h1
      have ih := insertIndexEntry_tracks h2
      cases child with
      | none =>
        obtain ⟨-, rfl⟩ := Prod.mk.inj (Except.ok.inj h3)
        exact ih
      | some s => exact ih.trans (insertChild_tracks (Nat.lt_of_lt_of_le hlt ih.le) h3)
    · cases h

/-! ## All fields -/

theorem insertField_tracks {root root' : Nat} {e : Entry} {w w' : Work} (h : insertField root e w = .ok (root', w')) :
    w.Tracks w' := by
  unfold insertField at h
  split at h
  · obtain ⟨payload, -, h1⟩ := except_bind_ok.1 h
    obtain ⟨-, rfl⟩ := Prod.mk.inj (Except.ok.inj h1)
    exact Tracks.push _
  · obtain ⟨⟨split, w1⟩, h1, h2⟩ := except_bind_ok.1 h
    have ih := insertIndexEntry_tracks h1
    cases split with
    | none =>
      obtain ⟨-, rfl⟩ := Prod.mk.inj (Except.ok.inj h2)
      exact ih
    | some s =>
      obtain ⟨oldRoot, -, h3⟩ := except_bind_ok.1 h2
      obtain ⟨level, -, h4⟩ := except_bind_ok.1 h3
      obtain ⟨payload, -, h5⟩ := except_bind_ok.1 h4
      obtain ⟨-, rfl⟩ := Prod.mk.inj (Except.ok.inj h5)
      exact ih.trans (Tracks.push _)

/-- The directory page is written by every field and recorded once, at the end. -/
theorem insertFields_tracks {directory record : Nat} {row : List Bytes} : ∀ {roots : List Nat} {field : Nat} {w w' : Work},
    directory < w.pages.length → insertFields directory row record field roots w = .ok w' →
    Blocks.Tracks w.pages (insert directory w.dirty) w'.pages (insert directory w'.dirty)
  | [], _, _, _, _, h => by
    obtain rfl := Except.ok.inj h
    exact Tracks.refl _ _
  | root :: roots, field, w, w', hd, h => by
    rw [insertFields] at h
    obtain ⟨⟨root', w1⟩, h1, h2⟩ := except_bind_ok.1 h
    obtain ⟨page, -, h3⟩ := except_bind_ok.1 h2
    obtain ⟨payload, -, h4⟩ := except_bind_ok.1 h3
    have ht := insertField_tracks h1
    have hd1 := Nat.lt_of_lt_of_le hd ht.le
    have hset := Tracks.set (d := insert directory w1.dirty) hd1 { page with payload := payload }
    rw [Finset.insert_idem] at hset
    exact ((ht.insert directory).trans hset).trans (insertFields_tracks (by simpa using hd1) h4)

/-! ## The row chain and page zero -/

theorem pageAt_ok {pages : List Page} {id : Nat} {page : Page} (h : pageAt pages id = .ok page) :
    pages[id]? = some page := by
  unfold pageAt at h
  split at h
  · rename_i hp
    rw [hp, Except.ok.inj h]
  · cases h

theorem appendRow_tracks : ∀ {fuel rowPage : Nat} {bytes : Bytes} {w w' : Work},
    appendRow fuel rowPage bytes w = .ok w' → w.Tracks w'
  | 0, _, _, _, _, h => by cases h
  | fuel + 1, rowPage, bytes, w, w', h => by
    rw [appendRow] at h
    split at h
    · obtain rfl := Except.ok.inj h
      exact Tracks.refl _ _
    obtain ⟨target, h1, h2⟩ := except_bind_ok.1 h
    have hlt := lt_of_getElem?_some (pageAt_ok h1)
    dsimp only at h2
    split at h2
    · exact (Tracks.set_push hlt _ _).trans (appendRow_tracks h2)
    · obtain rfl := Except.ok.inj h2
      exact Tracks.set hlt _

theorem insertRowChain_tracks {rowsHead fieldCount rowCount : Nat} {row : List Bytes} {w w' : Work}
    (h : insertRowChain rowsHead fieldCount rowCount row w = .ok w') : w.Tracks w' := by
  unfold insertRowChain at h
  split at h
  · cases h
  rename_i head hp
  obtain ⟨_, -, h1⟩ := except_bind_ok.1 h
  obtain ⟨payload, -, h2⟩ := except_bind_ok.1 h1
  obtain ⟨values, -, h3⟩ := except_bind_ok.1 h2
  obtain ⟨last, -, h4⟩ := except_bind_ok.1 h3
  exact (Tracks.set (lt_of_getElem?_some hp) _).trans (appendRow_tracks h4)

theorem insertDirectory_tracks {directory fieldCount rowCount : Nat} {row : List Bytes} {w w' : Work}
    (h : insertDirectory directory fieldCount rowCount row w = .ok w') : w.Tracks w' := by
  unfold insertDirectory at h
  split at h
  · cases h
  rename_i page hp
  obtain ⟨_, -, h1⟩ := except_bind_ok.1 h
  obtain ⟨roots, -, h2⟩ := except_bind_ok.1 h1
  obtain ⟨w1, h3, h4⟩ := except_bind_ok.1 h2
  obtain rfl := Except.ok.inj h4
  have hlt := lt_of_getElem?_some hp
  have ht := insertFields_tracks hlt h3
  exact {
    le := ht.le
    mono := fun i hi => ht.mono (Finset.mem_insert_of_mem hi)
    same := ht.same
    fresh := ht.fresh
    bound := fun i hi => by
      rcases ht.bound i hi with hi | hi
      · rcases Finset.mem_insert.1 hi with rfl | hi
        · exact Or.inr (Nat.lt_of_lt_of_le hlt ht.le)
        · exact Or.inl hi
      · exact Or.inr hi }

theorem updateSuperblock_tracks {generation rowCount : Nat} {w w' : Work}
    (h : updateSuperblock generation rowCount w = .ok w') : w.Tracks w' := by
  unfold updateSuperblock at h
  obtain ⟨super, h1, h2⟩ := except_bind_ok.1 h
  obtain ⟨_, -, h3⟩ := except_bind_ok.1 h2
  obtain ⟨_, -, h4⟩ := except_bind_ok.1 h3
  obtain ⟨payload, -, h5⟩ := except_bind_ok.1 h4
  obtain rfl := Except.ok.inj h5
  exact Tracks.set (lt_of_getElem?_some (pageAt_ok h1)) _

/-- What an insert went through when it returned. -/
theorem insertRowPages_ok {parsed : ParsedImage} {row : List Bytes} {w : Work} (h : insertRowPages parsed row = .ok w) :
    RowOk parsed.table.fields.length row ∧ parsed.table.inspection.generation ≠ 2 ^ 64 - 1 ∧
    ∃ (rowsHead directoryHead fieldCount rowCount : Nat) (w1 w2 : Work),
      insertRowChain rowsHead fieldCount rowCount row ⟨parsed.pages, ∅⟩ = .ok w1 ∧
      insertDirectory directoryHead fieldCount rowCount row w1 = .ok w2 ∧
      updateSuperblock (parsed.table.inspection.generation + 1) (rowCount + 1) w2 = .ok w := by
  unfold insertRowPages at h
  obtain ⟨_, harity, h1⟩ := except_bind_ok.1 h
  obtain ⟨_, hvalues, h2⟩ := except_bind_ok.1 h1
  obtain ⟨_, hgen, h3⟩ := except_bind_ok.1 h2
  obtain ⟨_, -, h4⟩ := except_bind_ok.1 h3
  obtain ⟨super, -, h5⟩ := except_bind_ok.1 h4
  obtain ⟨⟨rowsHead, directoryHead, fieldCount, rowCount⟩, -, h6⟩ := except_bind_ok.1 h5
  obtain ⟨w1, hrow, h7⟩ := except_bind_ok.1 h6
  obtain ⟨w2, hdir, hsup⟩ := except_bind_ok.1 h7
  exact ⟨⟨not_not.1 (throwIf_ok.1 harity), validateValues_ok.1 hvalues⟩, throwIf_ok.1 hgen, rowsHead, directoryHead,
    fieldCount, rowCount, w1, w2, hrow, hdir, hsup⟩

/-- **Every mutation site records its page**, for any parsed image and any row. -/
theorem insertRowPages_tracks {parsed : ParsedImage} {row : List Bytes} {w : Work} (h : insertRowPages parsed row = .ok w) :
    Blocks.Tracks parsed.pages ∅ w.pages w.dirty := by
  obtain ⟨-, -, _, _, _, _, w1, w2, hrow, hdir, hsup⟩ := insertRowPages_ok h
  exact ((insertRowChain_tracks hrow).trans (insertDirectory_tracks hdir)).trans (updateSuperblock_tracks hsup)

/-- Page zero is always written. -/
theorem insertRowPages_zero {parsed : ParsedImage} {row : List Bytes} {w : Work} (h : insertRowPages parsed row = .ok w) :
    0 ∈ w.dirty := by
  obtain ⟨-, -, _, _, _, _, w1, w2, -, -, hsup⟩ := insertRowPages_ok h
  unfold updateSuperblock at hsup
  obtain ⟨page, -, h1⟩ := except_bind_ok.1 hsup
  obtain ⟨_, -, h2⟩ := except_bind_ok.1 h1
  obtain ⟨_, -, h3⟩ := except_bind_ok.1 h2
  obtain ⟨payload, -, h4⟩ := except_bind_ok.1 h3
  obtain rfl := Except.ok.inj h4
  exact Finset.mem_insert_self 0 _

end Storage
end Sql
