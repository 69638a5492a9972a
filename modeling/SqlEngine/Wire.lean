import Mathlib.Data.List.Lex
import Mathlib.Data.List.Sort
import Mathlib.Data.Finset.Sort
import Mathlib.Data.Finset.Card
import Mathlib.Tactic.Linarith
import Mathlib.Tactic.Ring
/-!
# Wire — byte strings, little-endian numbers and stream readers

A library: nothing here names a file format.  A reader consumes a prefix of a byte string or fails with an error of
its own type.  `Reads p enc ok` says that `p` and the writer `enc` are inverse on the values `ok` allows, in both
directions: `p` returns what was written and stops right behind it (`Reads.intro`), and whatever `p` accepts was
written by `enc` (`Reads.elim`).  A format whose reader satisfies `Reads` has exactly one encoding per value.
-/
namespace Wire

abbrev Bytes := List UInt8

instance instLinearOrderByte : LinearOrder UInt8 where
  le_refl a := UInt8.le_refl a
  le_trans a b c := UInt8.le_trans
  lt_iff_le_not_ge a b := by simp only [UInt8.le_iff_toNat_le, UInt8.lt_iff_toNat_lt]; omega
  le_antisymm a b h₁ h₂ := UInt8.le_antisymm h₁ h₂
  le_total a b := UInt8.le_total a b
  toDecidableLE := inferInstance

instance instDecidableMemBytes (b : Bytes) (bs : List Bytes) : Decidable (b ∈ bs) := inferInstance

/-- The bytes of an ASCII literal. -/
def ascii (s : String) : Bytes := s.toList.map (fun c => c.toNat.toUInt8)

/-! ## Little-endian numbers -/

/-- The `k` low bytes of `v`, least significant first: a cast to `8 * k` bits, then its bytes. -/
def le : Nat → Nat → Bytes
  | 0, _ => []
  | k + 1, v => UInt8.ofNat v :: le k (v / 256)

/-- The number a little-endian byte string stands for. -/
def val : Bytes → Nat
  | [] => 0
  | b :: bs => b.toNat + 256 * val bs

@[simp] theorem length_le : ∀ k v, (le k v).length = k
  | 0, _ => rfl
  | k + 1, v => by simp [le, length_le k]

theorem val_lt : ∀ bs : Bytes, val bs < 256 ^ bs.length
  | [] => by simp [val]
  | b :: bs => by
    have h1 := val_lt bs
    have h2 := b.toNat_lt
    simp only [val, List.length_cons, Nat.pow_succ]
    omega

theorem val_le_mod : ∀ k v, val (le k v) = v % 256 ^ k
  | 0, v => by simp [val, le, Nat.mod_one]
  | k + 1, v => by
    have hb : (UInt8.ofNat v).toNat = v % 256 := by simp
    rw [le, val, val_le_mod k, hb, Nat.pow_succ', Nat.mod_mul]

theorem val_le {k v : Nat} (h : v < 256 ^ k) : val (le k v) = v := by
  rw [val_le_mod, Nat.mod_eq_of_lt h]

theorem le_val : ∀ bs : Bytes, le bs.length (val bs) = bs
  | [] => rfl
  | b :: bs => by
    have hb := b.toNat_lt
    have h1 : UInt8.ofNat (b.toNat + 256 * val bs) = b := by
      apply UInt8.toNat_inj.1
      simp only [UInt8.toNat_ofNat']
      omega
    have h2 : (b.toNat + 256 * val bs) / 256 = val bs := by omega
    rw [List.length_cons, le, val, h1, h2, le_val bs]

theorem le_val_of_length {bs : Bytes} {k : Nat} (h : bs.length = k) : le k (val bs) = bs := by
  subst h; exact le_val bs

/-! ## Blocks of one size -/

/-- Block `i` of a byte string cut into blocks of `k` bytes. -/
def block (k : Nat) (bs : Bytes) (i : Nat) : Bytes := (bs.drop (i * k)).take k

theorem block_flatMap {α : Type} {f : α → Bytes} {k : Nat} : ∀ {l : List α} {i : Nat} {a : α},
    (∀ a ∈ l, (f a).length = k) → l[i]? = some a → block k (l.flatMap f) i = f a
  | [], _, _, _, h => by simp at h
  | x :: l, 0, a, hk, h => by
    obtain rfl : x = a := by simpa using h
    simp [block, ← hk x List.mem_cons_self]
  | x :: l, i + 1, a, hk, h => by
    have ih := block_flatMap (i := i) (a := a) (fun b hb => hk b (List.mem_cons_of_mem x hb)) (by simpa using h)
    unfold block at ih ⊢
    rw [List.flatMap_cons, Nat.add_mul, Nat.one_mul, Nat.add_comm, ← List.drop_drop,
      List.drop_left' (hk x List.mem_cons_self)]
    exact ih

/-- Encodings that are not short. -/
theorem le_length_flatMap {α β : Type} {f : α → List β} {lo : Nat} : ∀ {l : List α}, (∀ a ∈ l, lo ≤ (f a).length) →
    lo * l.length ≤ (l.flatMap f).length
  | [], _ => by simp
  | x :: l, h => by
    have ih := le_length_flatMap (fun a ha => h a (List.mem_cons_of_mem x ha))
    have hx := h x List.mem_cons_self
    rw [List.flatMap_cons, List.length_append, List.length_cons, Nat.mul_add]
    omega

/-- Encodings that are not long. -/
theorem length_flatMap_le {α β : Type} {f : α → List β} {hi : Nat} : ∀ {l : List α}, (∀ a ∈ l, (f a).length ≤ hi) →
    (l.flatMap f).length ≤ hi * l.length
  | [], _ => by simp
  | x :: l, h => by
    have ih := length_flatMap_le (fun a ha => h a (List.mem_cons_of_mem x ha))
    have hx := h x List.mem_cons_self
    rw [List.flatMap_cons, List.length_append, List.length_cons, Nat.mul_add]
    omega

theorem length_flatMap_block {α β : Type} {f : α → List β} {k : Nat} {l : List α} (hk : ∀ a ∈ l, (f a).length = k) :
    (l.flatMap f).length = l.length * k := by
  rw [Nat.mul_comm]
  exact Nat.le_antisymm (length_flatMap_le (fun a ha => (hk a ha).le)) (le_length_flatMap (fun a ha => (hk a ha).ge))

/-- Encodings of bounded size. -/
theorem length_flatMap_bounds {α β : Type} {f : α → List β} {lo hi : Nat} {l : List α}
    (h : ∀ a ∈ l, lo ≤ (f a).length ∧ (f a).length ≤ hi) :
    lo * l.length ≤ (l.flatMap f).length ∧ (l.flatMap f).length ≤ hi * l.length :=
  ⟨le_length_flatMap (fun a ha => (h a ha).1), length_flatMap_le (fun a ha => (h a ha).2)⟩

theorem length_flatMap_take_drop {α : Type} (f : α → Bytes) (l : List α) (k : Nat) :
    ((l.take k).flatMap f).length + ((l.drop k).flatMap f).length = (l.flatMap f).length := by
  rw [← List.length_append, ← List.flatMap_append, List.take_append_drop]

/-- The blocks of a byte string, in order, are the byte string. -/
theorem flatMap_block (k : Nat) : ∀ (n : Nat) (bs : Bytes), bs.length = n * k → (List.range n).flatMap (block k bs) = bs
  | 0, bs, h => by
    obtain rfl : bs = [] := List.length_eq_zero_iff.1 (by simpa using h)
    rfl
  | n + 1, bs, h => by
    have ih := flatMap_block k n (bs.drop k) (by rw [List.length_drop, h, Nat.add_mul]; omega)
    rw [List.range_succ_eq_map, List.flatMap_cons, List.flatMap_map]
    have hshift : ∀ i, block k bs (i + 1) = block k (bs.drop k) i := fun i => by
      unfold block
      rw [List.drop_drop, Nat.add_mul, Nat.one_mul, Nat.add_comm]
    simp only [Nat.succ_eq_add_one, hshift]
    rw [ih]
    simp [block]

/-! ## Readers -/

abbrev Reader (ε : Type) := StateT Bytes (Except ε)

section
variable {ε α β : Type}

/-- Raise `e` when the condition holds. -/
def throwIf (c : Prop) [Decidable c] (e : ε) : Except ε Unit := if c then .error e else .ok ()

@[simp] theorem throwIf_ok {c : Prop} [Decidable c] {e : ε} {u : Unit} : throwIf c e = .ok u ↔ ¬ c := by
  unfold throwIf; split <;> simp_all

theorem throwIf_neg {c : Prop} [Decidable c] {e : ε} (h : ¬ c) : throwIf c e = .ok () := if_neg h

theorem except_ok_bind (a : α) (f : α → Except ε β) : (Except.ok a >>= f) = f a := rfl

theorem except_bind_ok {x : Except ε α} {f : α → Except ε β} {b : β} :
    (x >>= f) = .ok b ↔ ∃ a, x = .ok a ∧ f a = .ok b := by
  cases x <;> simp [Bind.bind, Except.bind]

theorem except_bind_error {x : Except ε α} {f : α → Except ε β} {e : ε} :
    (x >>= f) = .error e ↔ x = .error e ∨ ∃ a, x = .ok a ∧ f a = .error e := by
  cases x <;> simp [Bind.bind, Except.bind]

theorem throwIf_error {c : Prop} [Decidable c] {e e' : ε} : throwIf c e = .error e' ↔ c ∧ e = e' := by
  unfold throwIf; split <;> simp_all

theorem toOption_ok {x : Except ε α} {a : α} : x.toOption = some a ↔ x = .ok a := by
  cases x <;> simp [Except.toOption]

theorem except_mapM_ok {f : α → Except ε β} : ∀ {as : List α} {bs : List β},
    as.mapM f = .ok bs ↔ List.Forall₂ (fun a b => f a = .ok b) as bs
  | [], bs => by simp [pure, Except.pure, eq_comm]
  | a :: as, bs => by
    rw [List.mapM_cons, except_bind_ok]
    constructor
    · rintro ⟨b, hb, h⟩
      obtain ⟨bs', hbs, h⟩ := except_bind_ok.1 h
      obtain rfl : b :: bs' = bs := by simpa [pure, Except.pure] using h
      exact List.Forall₂.cons hb (except_mapM_ok.1 hbs)
    · rintro (_ | ⟨hb, hbs⟩)
      exact ⟨_, hb, except_bind_ok.2 ⟨_, except_mapM_ok.2 hbs, rfl⟩⟩

theorem except_mapM_map {f : α → Except ε β} {g : α → β} {as : List α} (h : ∀ a ∈ as, f a = .ok (g a)) :
    as.mapM f = .ok (as.map g) :=
  except_mapM_ok.2 (List.forall₂_map_right_iff.2 (List.forall₂_same.2 h))

/-- When every call that returns computes `g`, so do all of them. -/
theorem except_mapM_eq {f : α → Except ε β} {g : α → β} (hg : ∀ a b, f a = .ok b → b = g a) {as : List α} {bs : List β}
    (h : as.mapM f = .ok bs) : bs = as.map g := by
  replace h : List.Forall₂ (fun a b => b = g a) as bs := (except_mapM_ok.1 h).imp (fun a b => hg a b)
  induction h with
  | nil => rfl
  | cons hb _ ih => rw [hb, ih, List.map_cons]

theorem bind_ok {p : Reader ε α} {f : α → Reader ε β} {bs rest : Bytes} {b : β} :
    (p >>= f) bs = .ok (b, rest) ↔ ∃ a mid, p bs = .ok (a, mid) ∧ f a mid = .ok (b, rest) := by
  rcases h : p bs with e | ⟨x, mid⟩
  · simp [Bind.bind, StateT.bind, Except.bind, h]
  · simp [Bind.bind, StateT.bind, Except.bind, h]

theorem run_bind {p : Reader ε α} {f : α → Reader ε β} {bs mid : Bytes} {a : α} (h : p bs = .ok (a, mid)) :
    (p >>= f) bs = f a mid := by
  simp [Bind.bind, StateT.bind, Except.bind, h]

@[simp] theorem run_pure (a : α) (bs : Bytes) : (pure a : Reader ε α) bs = .ok (a, bs) := rfl

theorem pure_ok {a b : α} {bs rest : Bytes} :
    (pure a : Reader ε α) bs = .ok (b, rest) ↔ a = b ∧ bs = rest := by
  simp

/-- Fail with `e` when the condition holds, consume nothing otherwise. -/
def refuseIf (c : Prop) [Decidable c] (e : ε) : Reader ε Unit := fun bs => if c then .error e else .ok ((), bs)

@[simp] theorem refuseIf_ok {c : Prop} [Decidable c] {e : ε} {bs rest : Bytes} {u : Unit} :
    refuseIf c e bs = .ok (u, rest) ↔ ¬ c ∧ bs = rest := by
  unfold refuseIf; split <;> simp_all

theorem run_refuseIf {c : Prop} [Decidable c] {e : ε} (h : ¬ c) (bs : Bytes) : refuseIf c e bs = .ok ((), bs) :=
  if_neg h

/-- Succeed only at the end of the stream. -/
def atEnd (e : ε) : Reader ε Unit := fun bs => if bs = [] then .ok ((), bs) else .error e

@[simp] theorem atEnd_ok {e : ε} {bs rest : Bytes} {u : Unit} : atEnd e bs = .ok (u, rest) ↔ bs = [] ∧ rest = [] := by
  unfold atEnd; split <;> simp_all [eq_comm]

@[simp] theorem run_atEnd_nil (e : ε) : atEnd e [] = .ok ((), []) := rfl

/-- The next `n` bytes. -/
def take (e : ε) (n : Nat) : Reader ε Bytes := fun bs => if bs.length < n then .error e else .ok (bs.take n, bs.drop n)

/-- The next `k` bytes as a number. -/
def num (e : ε) (k : Nat) : Reader ε Nat := do
  let bs ← take e k
  pure (val bs)

/-- A byte string behind its length in `k` bytes, at most `bound` bytes long. -/
def blob (short long : ε) (k bound : Nat) : Reader ε Bytes := do
  let n ← num short k
  refuseIf (n > bound) long
  take short n

/-- `n` values one after another. -/
def many (p : Reader ε α) : Nat → Reader ε (List α)
  | 0 => pure []
  | n + 1 => do
    let a ← p
    let as ← many p n
    pure (a :: as)

/-! ## Readers and writers that are inverse to each other -/

/-- **`p` reads exactly what `enc` writes** for the values `ok` allows. -/
structure Reads (p : Reader ε α) (enc : α → Bytes) (ok : α → Prop) : Prop where
  intro : ∀ a rest, ok a → p (enc a ++ rest) = .ok (a, rest)
  elim : ∀ {bs a rest}, p bs = .ok (a, rest) → ok a ∧ bs = enc a ++ rest

theorem take_append (e : ε) {n : Nat} {bs rest : Bytes} (h : bs.length = n) : take e n (bs ++ rest) = .ok (bs, rest) := by
  subst h; simp [take]

theorem take_ok {e : ε} {n : Nat} {bs a rest : Bytes} (h : take e n bs = .ok (a, rest)) :
    a.length = n ∧ bs = a ++ rest := by
  unfold take at h
  split at h
  · cases h
  · rename_i hn
    simp only [Except.ok.injEq, Prod.mk.injEq] at h
    obtain ⟨rfl, rfl⟩ := h
    exact ⟨by simp; omega, (List.take_append_drop n bs).symm⟩

theorem reads_num (e : ε) (k : Nat) : Reads (num e k) (le k) (· < 256 ^ k) where
  intro v rest h := by
    unfold num
    rw [run_bind (take_append e (length_le k v)), run_pure, val_le h]
  elim {bs v rest} h := by
    unfold num at h
    obtain ⟨a, mid, h1, h2⟩ := bind_ok.1 h
    obtain ⟨hl, rfl⟩ := take_ok h1
    obtain ⟨rfl, rfl⟩ := pure_ok.1 h2
    exact ⟨hl ▸ val_lt a, by rw [le_val_of_length hl]⟩

/-- The writer of `blob`. -/
def putBlob (k : Nat) (s : Bytes) : Bytes := le k s.length ++ s

theorem reads_blob (short long : ε) {k bound : Nat} (hk : bound < 256 ^ k) :
    Reads (blob short long k bound) (putBlob k) (fun s => s.length ≤ bound) where
  intro s rest h := by
    unfold blob putBlob
    rw [List.append_assoc, run_bind ((reads_num short k).intro _ _ (Nat.lt_of_le_of_lt h hk)),
      run_bind (run_refuseIf (by omega) _), take_append short rfl]
  elim {bs s rest} h := by
    unfold blob at h
    obtain ⟨n, mid, h1, h⟩ := bind_ok.1 h
    obtain ⟨_, _, h2, h⟩ := bind_ok.1 h
    obtain ⟨hn, rfl⟩ := refuseIf_ok.1 h2
    obtain ⟨rfl, rfl⟩ := take_ok h
    obtain ⟨-, rfl⟩ := (reads_num short k).elim h1
    exact ⟨by omega, by simp [putBlob]⟩

theorem Reads.pair {p : Reader ε α} {q : Reader ε β} {ep : α → Bytes} {eq : β → Bytes} {okp : α → Prop}
    {okq : β → Prop} (hp : Reads p ep okp) (hq : Reads q eq okq) :
    Reads (do let a ← p; let b ← q; pure (a, b)) (fun x => ep x.1 ++ eq x.2) (fun x => okp x.1 ∧ okq x.2) where
  intro x rest h := by
    rw [List.append_assoc, run_bind (hp.intro _ _ h.1), run_bind (hq.intro _ _ h.2), run_pure]
  elim {bs x rest} h := by
    obtain ⟨a, mid, h1, h⟩ := bind_ok.1 h
    obtain ⟨b, mid', h2, h⟩ := bind_ok.1 h
    obtain ⟨rfl, rfl⟩ := pure_ok.1 h
    obtain ⟨ha, rfl⟩ := hp.elim h1
    obtain ⟨hb, rfl⟩ := hq.elim h2
    exact ⟨⟨ha, hb⟩, by simp⟩

/-- Reading `n` values is inverse to writing a list of `n`. -/
theorem Reads.many {p : Reader ε α} {enc : α → Bytes} {ok : α → Prop} (hp : Reads p enc ok) :
    ∀ n, Reads (Wire.many p n) (fun as => as.flatMap enc) (fun as => as.length = n ∧ ∀ a ∈ as, ok a)
  | 0 => {
      intro := fun as rest h => by
        obtain rfl : as = [] := List.length_eq_zero_iff.1 h.1
        simp [Wire.many]
      elim := fun {bs as rest} h => by
        obtain ⟨rfl, rfl⟩ := pure_ok.1 h
        simp }
  | n + 1 => {
      intro := fun as rest h => by
        obtain ⟨hl, hok⟩ := h
        cases as with
        | nil => cases hl
        | cons a as =>
          have ih := (Reads.many hp n).intro as rest ⟨by simpa using hl, fun b hb => hok b (List.mem_cons_of_mem a hb)⟩
          rw [List.flatMap_cons, List.append_assoc, Wire.many, run_bind (hp.intro _ _ (hok a List.mem_cons_self)),
            run_bind ih, run_pure]
      elim := fun {bs as rest} h => by
        rw [Wire.many] at h
        obtain ⟨a, mid, h1, h⟩ := bind_ok.1 h
        obtain ⟨as', mid', h2, h⟩ := bind_ok.1 h
        obtain ⟨rfl, rfl⟩ := pure_ok.1 h
        obtain ⟨ha, rfl⟩ := hp.elim h1
        obtain ⟨⟨hl, hall⟩, rfl⟩ := (Reads.many hp n).elim h2
        refine ⟨⟨by simp [hl], ?_⟩, by simp⟩
        intro b hb
        rcases List.mem_cons.1 hb with rfl | hb
        · exact ha
        · exact hall b hb }

/-- Two values with the same encoding are the same value. -/
theorem Reads.inj {p : Reader ε α} {enc : α → Bytes} {ok : α → Prop} (hp : Reads p enc ok) {a b : α} (ha : ok a)
    (hb : ok b) (h : enc a = enc b) : a = b := by
  have h1 := hp.intro a [] ha
  have h2 := hp.intro b [] hb
  rw [h, h2] at h1
  simpa using h1.symm

end
end Wire
