import SqlEngine.Wire
/-!
# Register — shift registers with feedback, and bursts

A library: a register of any width that shifts to the right and feeds a polynomial back when a one falls out.  When the
polynomial has its top bit set a step is injective (`step_injective`), and a word that goes in bit by bit, lowest first,
is the same as the whole word before as many steps (`feedAll_word`).  So two bit strings that differ only within as many
consecutive bits as the register has never leave the same remainder (`feedAll_burst`).
-/
namespace Register

/-! ## Steps -/

section
variable {w : Nat} {poly : BitVec w}

def step (poly c : BitVec w) : BitVec w := if c.getLsbD 0 then (c >>> 1) ^^^ poly else c >>> 1

/-- The top bit of the next state is the bit that fell out. -/
theorem msb_step (h : poly.msb = true) (c : BitVec w) : (step poly c).msb = c.getLsbD 0 := by
  have hshift : (c >>> 1).msb = false := by simp [BitVec.msb_ushiftRight]
  unfold step
  cases c.getLsbD 0 with
  | true => rw [if_pos rfl, BitVec.msb_xor, hshift, h]; rfl
  | false => rw [if_neg (by simp), hshift]

theorem step_injective (h : poly.msb = true) : Function.Injective (step poly) := by
  intro c d hcd
  have hlow : c.getLsbD 0 = d.getLsbD 0 := by rw [← msb_step h c, ← msb_step h d, hcd]
  have hhigh : c >>> 1 = d >>> 1 := by
    unfold step at hcd
    rw [← hlow] at hcd
    cases hc : c.getLsbD 0 with
    | true =>
      rw [hc, if_pos rfl, if_pos rfl] at hcd
      exact (BitVec.xor_left_inj _).1 hcd
    | false => rwa [hc, if_neg (by simp), if_neg (by simp)] at hcd
  refine BitVec.eq_of_getLsbD_eq (fun i _ => ?_)
  cases i with
  | zero => exact hlow
  | succ i =>
    have := congrArg (fun x => x.getLsbD i) hhigh
    simpa only [BitVec.getLsbD_ushiftRight, Nat.add_comm] using this

/-- What does not reach the low end is only moved down. -/
theorem step_shift {x : BitVec w} (hx : x.msb = false) (c : BitVec w) :
    step poly (c ^^^ (x <<< 1)) = step poly c ^^^ x := by
  have hlow : (x <<< 1).getLsbD 0 = false := by simp
  have hback : (x <<< 1) >>> 1 = x := by
    refine BitVec.eq_of_getLsbD_eq (fun i hi => ?_)
    rw [BitVec.getLsbD_ushiftRight, BitVec.getLsbD_shiftLeft]
    by_cases htop : i + 1 < w
    · simp [Nat.add_comm 1 i, htop]
    · -- the top bit is clear
      have : x.getLsbD i = false := by
        rw [BitVec.msb_eq_getLsbD_last] at hx
        rwa [show i = w - 1 by omega]
      simp [Nat.add_comm 1 i, htop, this]
  unfold step
  rw [BitVec.getLsbD_xor, hlow, Bool.xor_false, BitVec.ushiftRight_xor_distrib, hback]
  split
  · rw [BitVec.xor_assoc, BitVec.xor_comm x poly, ← BitVec.xor_assoc]
  · rfl

/-! ## Feeding bits -/

/-- A bit at the low end. -/
def bit (b : Bool) : BitVec w := (BitVec.ofBool b).setWidth w

def feed (poly c : BitVec w) (b : Bool) : BitVec w := step poly (c ^^^ bit b)

def feedAll (poly c : BitVec w) (bits : List Bool) : BitVec w := bits.foldl (feed poly) c

@[simp] theorem feedAll_nil (c : BitVec w) : feedAll poly c [] = c := rfl

@[simp] theorem feedAll_cons (c : BitVec w) (b : Bool) (bits : List Bool) :
    feedAll poly c (b :: bits) = feedAll poly (feed poly c b) bits := rfl

theorem feedAll_append (c : BitVec w) (xs ys : List Bool) :
    feedAll poly c (xs ++ ys) = feedAll poly (feedAll poly c xs) ys := List.foldl_append

theorem feedAll_injective (h : poly.msb = true) (bits : List Bool) :
    Function.Injective (fun c => feedAll poly c bits) := by
  induction bits with
  | nil => exact fun c d hcd => hcd
  | cons b bits ih => exact fun c d hcd => (BitVec.xor_left_inj _).1 (step_injective h (ih hcd))

/-! ## Words -/

/-- The word whose bits come in this order, lowest first. -/
def word : List Bool → BitVec w
  | [] => 0
  | b :: bits => bit b ^^^ (word bits <<< 1)

theorem getLsbD_word : ∀ (bits : List Bool) (i : Nat), i < w → (word bits : BitVec w).getLsbD i = bits[i]?.getD false
  | [], i, _ => by simp [word]
  | b :: bits, 0, h => by cases b <;> simp [word, bit, h]
  | b :: bits, i + 1, h => by
    have hb : (bit b : BitVec w).getLsbD (i + 1) = false := by cases b <;> simp [bit]
    rw [word, BitVec.getLsbD_xor, hb, Bool.false_xor, BitVec.getLsbD_shiftLeft]
    simp [h, getLsbD_word bits i (by omega)]

/-- **Bit by bit or all at once**: the steps a word takes through the register. -/
theorem feedAll_word : ∀ (bits : List Bool) (c : BitVec w), bits.length ≤ w →
    feedAll poly c bits = (step poly)^[bits.length] (c ^^^ word bits)
  | [], c, _ => by simp [word]
  | b :: bits, c, h => by
    have hlen : bits.length + 1 ≤ w := h
    have htop : (word bits : BitVec w).msb = false := by
      rw [BitVec.msb_eq_getLsbD_last, getLsbD_word bits (w - 1) (by omega), List.getElem?_eq_none (by omega),
        Option.getD_none]
    rw [feedAll_cons, feedAll_word bits _ (by omega), List.length_cons, Function.iterate_succ_apply, feed,
      ← step_shift htop, word, BitVec.xor_assoc]

theorem feedAll_inj {c : BitVec w} (h : poly.msb = true) {xs ys : List Bool} (hlen : xs.length = ys.length)
    (hle : xs.length ≤ w) (heq : feedAll poly c xs = feedAll poly c ys) : xs = ys := by
  rw [feedAll_word xs c hle, feedAll_word ys c (by omega), hlen] at heq
  have hword : (word xs : BitVec w) = word ys := (BitVec.xor_right_inj _).1 ((step_injective h).iterate _ heq)
  refine List.ext_getElem hlen (fun i hx hy => ?_)
  have := congrArg (fun x => x.getLsbD i) hword
  simp only [getLsbD_word _ i (by omega : i < w)] at this
  rwa [List.getElem?_eq_getElem hx, List.getElem?_eq_getElem hy, Option.getD_some, Option.getD_some] at this

/-! ## Bursts -/

/-- Two lists of one length that differ only at `n` consecutive places. -/
def Within {α : Type} (lo n : Nat) (xs ys : List α) : Prop :=
  xs.length = ys.length ∧ ∀ i, xs[i]? ≠ ys[i]? → lo ≤ i ∧ i < lo + n

/-- **No burst of at most the register's width goes unnoticed.** -/
theorem feedAll_burst (h : poly.msb = true) {c : BitVec w} {lo : Nat} {xs ys : List Bool} (hw : Within lo w xs ys)
    (heq : feedAll poly c xs = feedAll poly c ys) : xs = ys := by
  obtain ⟨hlen, hdiff⟩ := hw
  have hfront : xs.take lo = ys.take lo := by
    refine List.ext_getElem? (fun i => ?_)
    rw [List.getElem?_take, List.getElem?_take]
    split
    · exact Classical.byContradiction (fun hne => by have := hdiff i hne; omega)
    · rfl
  have hback : (xs.drop lo).drop w = (ys.drop lo).drop w := by
    refine List.ext_getElem? (fun i => ?_)
    rw [List.drop_drop, List.drop_drop, List.getElem?_drop, List.getElem?_drop]
    exact Classical.byContradiction (fun hne => by have := hdiff _ hne; omega)
  have hsplit : ∀ zs : List Bool, zs = zs.take lo ++ ((zs.drop lo).take w ++ (zs.drop lo).drop w) := fun zs => by
    rw [List.take_append_drop, List.take_append_drop]
  rw [hsplit xs, hsplit ys, feedAll_append, feedAll_append, feedAll_append, feedAll_append, hfront, hback] at heq
  have hmid := feedAll_inj h (by simp only [List.length_take, List.length_drop, hlen])
    (by rw [List.length_take]; exact Nat.min_le_left _ _) (feedAll_injective h _ heq)
  rw [hsplit xs, hsplit ys, hfront, hback, hmid]

end

/-! ## Bytes -/

open Wire

/-- The bits of a byte, lowest first. -/
def byteBits (b : UInt8) : List Bool := (List.range 8).map b.toBitVec.getLsbD

def bitsOf (bytes : Bytes) : List Bool := bytes.flatMap byteBits

theorem length_byteBits (b : UInt8) : (byteBits b).length = 8 := by simp [byteBits]

@[simp] theorem bitsOf_cons (b : UInt8) (bytes : Bytes) : bitsOf (b :: bytes) = byteBits b ++ bitsOf bytes :=
  List.flatMap_cons

theorem length_bitsOf (bytes : Bytes) : (bitsOf bytes).length = 8 * bytes.length := by
  induction bytes with
  | nil => rfl
  | cons b bytes ih =>
    rw [bitsOf_cons, List.length_append, length_byteBits, ih, List.length_cons]
    omega

theorem bitsOf_append (xs ys : Bytes) : bitsOf (xs ++ ys) = bitsOf xs ++ bitsOf ys := List.flatMap_append

theorem byteBits_injective : Function.Injective byteBits := by
  intro a b h
  refine UInt8.toBitVec_inj.1 (BitVec.eq_of_getLsbD_eq (fun i hi => ?_))
  have := congrArg (fun l => l[i]?) h
  simpa [byteBits, hi] using this

theorem bitsOf_injective : ∀ {xs ys : Bytes}, bitsOf xs = bitsOf ys → xs = ys
  | [], [], _ => rfl
  | [], y :: ys, h => by
    have := congrArg List.length h
    rw [length_bitsOf, length_bitsOf, List.length_nil, List.length_cons] at this
    omega
  | x :: xs, [], h => by
    have := congrArg List.length h
    rw [length_bitsOf, length_bitsOf, List.length_nil, List.length_cons] at this
    omega
  | x :: xs, y :: ys, h => by
    rw [bitsOf_cons, bitsOf_cons] at h
    obtain ⟨hx, hxs⟩ := List.append_inj h (by rw [length_byteBits, length_byteBits])
    rw [byteBits_injective hx, bitsOf_injective hxs]

/-- Two byte strings of one length that differ only within `n` consecutive bits, the lowest bit of a byte first. -/
def Burst (lo n : Nat) (xs ys : Bytes) : Prop := Within lo n (bitsOf xs) (bitsOf ys)

theorem Burst.length_eq {lo n : Nat} {xs ys : Bytes} (h : Burst lo n xs ys) : xs.length = ys.length := by
  have := h.1
  rw [length_bitsOf, length_bitsOf] at this
  omega

/-- The bits of a part of the bytes. -/
theorem getElem?_bitsOf_part (a b c : Bytes) {i : Nat} (hi : i < 8 * b.length) :
    (bitsOf (a ++ b ++ c))[8 * a.length + i]? = (bitsOf b)[i]? := by
  rw [bitsOf_append, bitsOf_append, List.append_assoc, List.getElem?_append_right (by rw [length_bitsOf]; omega),
    length_bitsOf, Nat.add_sub_cancel_left, List.getElem?_append_left (by rw [length_bitsOf]; omega)]

/-- A part of at most `n` bits that is changed. -/
theorem burst_of_part (a c : Bytes) {n : Nat} {b b' : Bytes} (hb : b.length = b'.length) (hn : 8 * b.length ≤ n) :
    Burst (8 * a.length) n (a ++ b ++ c) (a ++ b' ++ c) := by
  refine ⟨by simp only [length_bitsOf, List.length_append, hb], fun i hne => ?_⟩
  simp only [bitsOf_append, List.append_assoc, List.getElem?_append, length_bitsOf, ← hb] at hne
  by_cases h1 : i < 8 * a.length
  · rw [if_pos h1, if_pos h1] at hne
    exact absurd rfl hne
  · by_cases h2 : i - 8 * a.length < 8 * b.length
    · omega
    · rw [if_neg h1, if_neg h1, if_neg h2, if_neg h2] at hne
      exact absurd rfl hne

/-- **A part that the burst does not touch** is the same. -/
theorem Burst.untouched {lo n : Nat} {a b c a' b' c' : Bytes} (h : Burst lo n (a ++ b ++ c) (a' ++ b' ++ c'))
    (ha : a.length = a'.length) (hb : b.length = b'.length)
    (hout : lo + n ≤ 8 * a.length ∨ 8 * (a.length + b.length) ≤ lo) : b = b' := by
  refine bitsOf_injective (List.ext_getElem? (fun i => ?_))
  by_cases hi : i < 8 * b.length
  · by_contra hne
    rw [← getElem?_bitsOf_part a b c hi, ← getElem?_bitsOf_part a' b' c' (hb ▸ hi), ← ha] at hne
    have := h.2 _ hne
    omega
  · rw [List.getElem?_eq_none (by rw [length_bitsOf]; omega), List.getElem?_eq_none (by rw [length_bitsOf]; omega)]

theorem Burst.untouched_front {lo n : Nat} {a c a' c' : Bytes} (h : Burst lo n (a ++ c) (a' ++ c'))
    (ha : a.length = a'.length) (hlo : 8 * a.length ≤ lo) : a = a' := by
  rw [← List.nil_append a, ← List.nil_append a'] at h
  exact h.untouched rfl ha (Or.inr (by rwa [List.length_nil, Nat.zero_add]))

theorem Burst.untouched_back {lo n : Nat} {a c a' c' : Bytes} (h : Burst lo n (a ++ c) (a' ++ c'))
    (ha : a.length = a'.length) (hlo : lo + n ≤ 8 * a.length) : c = c' := by
  have hlen := h.length_eq
  rw [← List.append_nil (a ++ c), ← List.append_nil (a' ++ c')] at h
  rw [List.length_append, List.length_append] at hlen
  exact h.untouched ha (by omega) (Or.inl hlo)

/-- A part set to the same bytes on both sides. -/
theorem Burst.replace {lo n : Nat} {a b c a' b' c' z : Bytes} (h : Burst lo n (a ++ b ++ c) (a' ++ b' ++ c'))
    (ha : a.length = a'.length) (hb : b.length = z.length) (hb' : b'.length = z.length) :
    Burst lo n (a ++ z ++ c) (a' ++ z ++ c') := by
  have hlen := h.length_eq
  simp only [List.length_append] at hlen
  refine ⟨by simp only [length_bitsOf, List.length_append]; omega, fun i hne => h.2 i (fun heq => hne ?_)⟩
  simp only [bitsOf_append, List.append_assoc, List.getElem?_append, length_bitsOf, hb, hb', ← ha] at heq ⊢
  by_cases h1 : i < 8 * a.length
  · rwa [if_pos h1, if_pos h1] at heq ⊢
  · by_cases h2 : i - 8 * a.length < 8 * z.length
    · rw [if_neg h1, if_neg h1, if_pos h2, if_pos h2]
    · rwa [if_neg h1, if_neg h1, if_neg h2, if_neg h2] at heq ⊢

/-- A burst of a part. -/
theorem Burst.front {lo n : Nat} {a c a' c' : Bytes} (h : Burst lo n (a ++ c) (a' ++ c')) (ha : a.length = a'.length) :
    Burst lo n a a' := by
  refine ⟨by rw [length_bitsOf, length_bitsOf, ha], fun i hne => h.2 i ?_⟩
  by_cases hi : i < 8 * a.length
  · have key : ∀ x y : Bytes, i < 8 * x.length → (bitsOf (x ++ y))[i]? = (bitsOf x)[i]? := fun x y hx => by
      rw [bitsOf_append, List.getElem?_append_left (by rw [length_bitsOf]; exact hx)]
    rw [key a c hi, key a' c' (ha ▸ hi)]
    exact hne
  · rw [List.getElem?_eq_none (by rw [length_bitsOf]; omega), List.getElem?_eq_none (by rw [length_bitsOf]; omega)] at hne
    exact absurd rfl hne

end Register
