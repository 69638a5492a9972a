import SqlEngine.Wire
/-!
# Blocks — files overwritten block by block

A library: byte strings cut into blocks of one size, overwritten one block at a time, and lists whose changes are
recorded in a set of positions.  The set is complete (`Tracks`) when a position outside it holds what it held before and
every position behind the old end is in it.  Overwriting the recorded blocks of the resized old file then gives the new
file (`overwrite_tracked`), and on the way there every block is an old one or a new one (`overwrite_spec`).
-/
namespace Blocks

open Wire

/-! ## Files -/

/-- A file cut off, or filled up with zeros. -/
def resize (n : Nat) (file : Bytes) : Bytes := file.take n ++ List.replicate (n - file.length) 0

/-- A file with some bytes written at an offset. -/
def writeAt (offset : Nat) (data file : Bytes) : Bytes :=
  file.take offset ++ List.replicate (offset - file.length) 0 ++ data ++ file.drop (offset + data.length)

@[simp] theorem length_resize (n : Nat) (file : Bytes) : (resize n file).length = n := by
  simp [resize]; omega

theorem length_writeAt {offset : Nat} {data file : Bytes} (h : offset + data.length ≤ file.length) :
    (writeAt offset data file).length = file.length := by
  simp [writeAt]; omega

/-- A block that lies inside the old file stays when the file grows. -/
theorem block_resize {k n i : Nat} {file : Bytes} (h : i * k + k ≤ file.length) (hn : i * k + k ≤ n) :
    block k (resize n file) i = block k file i := by
  unfold block resize
  generalize i * k = a at h hn
  apply List.ext_getElem?
  intro j
  simp only [List.getElem?_take, List.getElem?_drop, List.getElem?_append, List.length_take]
  by_cases hj : j < k
  · rw [if_pos hj, if_pos hj, if_pos (by omega), if_pos (by omega)]
  · rw [if_neg hj, if_neg hj]

theorem block_writeAt_self {k i : Nat} {data file : Bytes} (hd : data.length = k) (h : i * k + k ≤ file.length) :
    block k (writeAt (i * k) data file) i = data := by
  unfold block writeAt
  generalize i * k = a at h
  have hz : a - file.length = 0 := by omega
  have ha : (file.take a).length = a := by rw [List.length_take]; omega
  rw [hz, List.replicate_zero, List.append_nil, List.append_assoc, List.drop_left' ha, List.take_left' hd]

theorem block_writeAt_other {k i j : Nat} {data file : Bytes} (hd : data.length = k) (h : i * k + k ≤ file.length)
    (hij : j ≠ i) : block k (writeAt (i * k) data file) j = block k file j := by
  have horder : j * k + k ≤ i * k ∨ i * k + k ≤ j * k := by
    rcases Nat.lt_or_gt_of_ne hij with hlt | hlt
    · have := Nat.mul_le_mul_right k hlt
      rw [Nat.succ_mul] at this
      exact Or.inl this
    · have := Nat.mul_le_mul_right k hlt
      rw [Nat.succ_mul] at this
      exact Or.inr this
  unfold block writeAt
  generalize i * k = a at h horder
  generalize j * k = b at horder
  apply List.ext_getElem?
  intro m
  simp only [List.getElem?_take, List.getElem?_drop, List.getElem?_append, List.length_take, List.length_append,
    List.length_replicate]
  by_cases hm : m < k
  · rw [if_pos hm, if_pos hm]
    rcases horder with hlt | hlt
    · rw [if_pos (by omega), if_pos (by omega), if_pos (by omega), if_pos (by omega)]
    · rw [if_neg (by omega)]
      congr 1
      omega
  · rw [if_neg hm, if_neg hm]

/-- Files of one length with the same blocks are equal. -/
theorem ext_block {k n : Nat} {a b : Bytes} (ha : a.length = n * k) (hb : b.length = n * k)
    (h : ∀ i < n, block k a i = block k b i) : a = b := by
  rw [← flatMap_block k n a ha, ← flatMap_block k n b hb]
  exact List.flatMap_congr (fun i hi => h i (List.mem_range.1 hi))

/-! ## Overwriting -/

/-- Write the given blocks of `image`, in order. -/
def overwrite (k : Nat) (image : Bytes) (ids : List Nat) (file : Bytes) : Bytes :=
  ids.foldl (fun file i => writeAt (i * k) (block k image i) file) file

section
variable {k n : Nat} {image : Bytes}

theorem length_block {i : Nat} (h : i * k + k ≤ image.length) : (block k image i).length = k := by
  simp only [block, List.length_take, List.length_drop]
  omega

theorem block_end_le {i : Nat} (hi : i < n) : i * k + k ≤ n * k := by
  have := Nat.mul_le_mul_right k hi
  rwa [Nat.succ_mul] at this

/-- **Overwriting keeps the length**, and each block is the new one exactly when it was written. -/
theorem overwrite_spec (himage : image.length = n * k) : ∀ (ids : List Nat) (file : Bytes), file.length = n * k →
    (∀ i ∈ ids, i < n) → (overwrite k image ids file).length = n * k ∧ ∀ j < n,
      block k (overwrite k image ids file) j = if j ∈ ids then block k image j else block k file j
  | [], file, hfile, _ => ⟨hfile, fun j _ => by simp [overwrite]⟩
  | i :: ids, file, hfile, hids => by
    have hi := block_end_le (k := k) (hids i List.mem_cons_self)
    have hd : (block k image i).length = k := length_block (by omega)
    have hlen : (writeAt (i * k) (block k image i) file).length = n * k := by
      rw [length_writeAt (by omega), hfile]
    obtain ⟨hl, hb⟩ := overwrite_spec himage ids _ hlen (fun j hj => hids j (List.mem_cons_of_mem i hj))
    refine ⟨hl, fun j hj => ?_⟩
    rw [show overwrite k image (i :: ids) file = overwrite k image ids (writeAt (i * k) (block k image i) file) from rfl,
      hb j hj]
    by_cases hji : j = i
    · subst hji
      rw [block_writeAt_self hd (by omega)]
      simp
    · rw [block_writeAt_other hd (by omega) hji]
      simp [hji]

/-- **All blocks overwritten** give the image, whatever the file held. -/
theorem overwrite_all (himage : image.length = n * k) {ids : List Nat} {file : Bytes} (hfile : file.length = n * k)
    (hids : ∀ i, i ∈ ids ↔ i < n) : overwrite k image ids file = image := by
  obtain ⟨hl, hb⟩ := overwrite_spec himage ids file hfile (fun i hi => (hids i).1 hi)
  exact ext_block hl himage (fun i hi => by rw [hb i hi, if_pos ((hids i).2 hi)])

end

/-! ## Tracked changes -/

section
variable {β : Type}

/-- **Changes of a list recorded in a set of positions.** -/
structure Tracks (xs : List β) (d : Finset Nat) (ys : List β) (d' : Finset Nat) : Prop where
  le : xs.length ≤ ys.length
  mono : d ⊆ d'
  same : ∀ i < xs.length, i ∉ d' → ys[i]? = xs[i]?
  fresh : ∀ i, xs.length ≤ i → i < ys.length → i ∈ d'
  bound : ∀ i ∈ d', i ∈ d ∨ i < ys.length

variable {xs ys zs : List β} {d d' d'' : Finset Nat}

theorem Tracks.refl (xs : List β) (d : Finset Nat) : Tracks xs d xs d where
  le := Nat.le_refl _
  mono := Finset.Subset.refl d
  same _ _ _ := rfl
  fresh i h1 h2 := by omega
  bound i hi := Or.inl hi

theorem Tracks.trans (h : Tracks xs d ys d') (h' : Tracks ys d' zs d'') : Tracks xs d zs d'' where
  le := Nat.le_trans h.le h'.le
  mono := Finset.Subset.trans h.mono h'.mono
  same i hi hd := by
    rw [h'.same i (Nat.lt_of_lt_of_le hi h.le) hd, h.same i hi (fun hm => hd (h'.mono hm))]
  fresh i h1 h2 := by
    by_cases hi : i < ys.length
    · exact h'.mono (h.fresh i h1 hi)
    · exact h'.fresh i (Nat.le_of_not_lt hi) h2
  bound i hi := by
    rcases h'.bound i hi with hi | hi
    · exact (h.bound i hi).imp_right (fun hlt => Nat.lt_of_lt_of_le hlt h'.le)
    · exact Or.inr hi

/-- A recorded write to an existing position. -/
theorem Tracks.set {i : Nat} (hi : i < xs.length) (y : β) : Tracks xs d (xs.set i y) (insert i d) where
  le := by simp
  mono := Finset.subset_insert i d
  same j _ hj := List.getElem?_set_ne (fun h : i = j => hj (h ▸ Finset.mem_insert_self i d))
  fresh j h1 h2 := by rw [List.length_set] at h2; omega
  bound j hj := by
    rw [List.length_set]
    rcases Finset.mem_insert.1 hj with rfl | hj
    · exact Or.inr hi
    · exact Or.inl hj

/-- A recorded new position. -/
theorem Tracks.push (y : β) : Tracks xs d (xs ++ [y]) (insert xs.length d) where
  le := by simp
  mono := Finset.subset_insert _ d
  same j hj _ := List.getElem?_append_left hj
  fresh j h1 h2 := by
    simp only [List.length_append, List.length_singleton] at h2
    exact Finset.mem_insert.2 (Or.inl (by omega))
  bound j hj := by
    rcases Finset.mem_insert.1 hj with rfl | hj
    · exact Or.inr (by simp)
    · exact Or.inl hj

theorem Tracks.set_push {i : Nat} (hi : i < xs.length) (y z : β) :
    Tracks xs d (xs.set i y ++ [z]) (insert xs.length (insert i d)) := by
  have h := (Tracks.set (d := d) hi y).trans (Tracks.push z)
  rwa [List.length_set] at h

/-- A position recorded before as well as after. -/
theorem Tracks.insert (h : Tracks xs d ys d') (i : Nat) : Tracks xs (insert i d) ys (insert i d') where
  le := h.le
  mono := Finset.insert_subset_insert i h.mono
  same j hj hd := h.same j hj (fun hm => hd (Finset.mem_insert_of_mem hm))
  fresh j h1 h2 := Finset.mem_insert_of_mem (h.fresh j h1 h2)
  bound j hj := by
    rcases Finset.mem_insert.1 hj with rfl | hj
    · exact Or.inl (Finset.mem_insert_self j d)
    · exact (h.bound j hj).imp_left Finset.mem_insert_of_mem

/-- **The recorded blocks are enough**: resizing the old file and overwriting them gives the new file. -/
theorem overwrite_tracked {f : β → Bytes} {k : Nat} (hxs : ∀ x ∈ xs, (f x).length = k) (hys : ∀ y ∈ ys, (f y).length = k)
    (h : Tracks xs ∅ ys d) {ids : List Nat} (hids : ∀ i, i ∈ ids ↔ i ∈ d) :
    overwrite k (ys.flatMap f) ids (resize (ys.flatMap f).length (xs.flatMap f)) = ys.flatMap f := by
  have hlx := length_flatMap_block hxs
  have hly := length_flatMap_block hys
  obtain ⟨hl, hb⟩ := overwrite_spec hly ids (resize (ys.flatMap f).length (xs.flatMap f)) (by rw [length_resize, hly])
    (fun i hi => (h.bound i ((hids i).1 hi)).resolve_left (by simp))
  refine ext_block hl hly (fun i hi => ?_)
  rw [hb i hi]
  by_cases hm : i ∈ ids
  · rw [if_pos hm]
  · have hd : i ∉ d := fun hd => hm ((hids i).2 hd)
    have hix : i < xs.length := Nat.lt_of_not_le (fun hle => hd (h.fresh i hle hi))
    have hx := List.getElem?_eq_getElem hix
    rw [if_neg hm, block_resize (by rw [hlx]; exact block_end_le hix) (by rw [hly]; exact block_end_le hi),
      block_flatMap hxs hx, block_flatMap hys ((h.same i hix hd).trans hx)]

end
end Blocks
