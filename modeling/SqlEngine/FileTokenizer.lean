import SqlEngine.Lexemes
/-!
# FileTokenizer — a file tokenized block by block

`FTokenizer` hands one block of the file after the other to an `STokenizer`, wherever the block ends, and looks for the end
of the file only in front of a block.  What it delivers are the tokens of the blocks, and an empty token for an empty one
(`delivered_blocks`): the tokens of the file just when every block ends where a token does and the last one is not empty
(`delivered_agrees_iff`).
-/
namespace Sql
namespace Query

open Wire

/-- `MAX_BUFFER`. -/
def maxBlock : Nat := 200

def SToken.new : SToken := ⟨[], .unknown⟩

/-- The stream is what is not read yet, with its flag; the tokenizer is what is left of the block. -/
structure FTokenizer where
  file : Bytes
  eof : Bool
  stk : Bytes
  pos : BitVec 32
  blockPos : BitVec 32
  more : Bool

namespace FTokenizer

/-- `_more = get_new_block()`.  A read that comes up short sets the flag. -/
def getNewBlock (f : FTokenizer) : FTokenizer :=
  if f.eof = false then
    { f with
      file := f.file.drop (maxBlock - 1)
      eof := decide (f.file.length < maxBlock - 1)
      stk := cString (f.file.take (maxBlock - 1))
      blockPos := 0
      more := true }
  else { f with more := false }

/-- The constructor, on a file that opens. -/
def init (content : Bytes) : FTokenizer := getNewBlock ⟨content, false, [], 0, 0, false⟩

/-- `next_token`.  A tokenizer that is done leaves the token as it was made. -/
def nextToken (f : FTokenizer) : SToken × FTokenizer :=
  let extracted := match f.stk with
    | [] => (SToken.new, [])
    | t :: rest => getToken t rest
  let length := BitVec.ofNat 32 extracted.1.tokenStr.length
  let f := { f with stk := extracted.2, pos := f.pos + length, blockPos := f.blockPos + length }
  (extracted.1, if f.stk = [] then f.getNewBlock else f)

/-- `>>` while `more()`. -/
def delivered : Nat → FTokenizer → Option (List SToken)
  | 0, f => if f.more = true then none else some []
  | fuel + 1, f => if f.more = true then (delivered fuel f.nextToken.2).map (fun ts => f.nextToken.1 :: ts) else some []

end FTokenizer

/-! ## What is delivered -/

def blockAt (content : Bytes) (k : Nat) : Bytes := (content.drop (k * (maxBlock - 1))).take (maxBlock - 1)

def blockTokens (block : Bytes) : List SToken := if block = [] then [SToken.new] else tokens block

/-- The blocks that are read: the last is the first that comes up short. -/
def blockwise (content : Bytes) : List SToken :=
  (List.range (content.length / (maxBlock - 1) + 1)).flatMap (fun k => blockTokens (blockAt content k))

/-- The tokens of one block, in front of what comes behind it. -/
theorem delivered_block {file : Bytes} {eof : Bool} {ts : List SToken} {n : Nat}
    (hbehind : ∀ fuel > n, ∀ pos blockPos,
      FTokenizer.delivered fuel (FTokenizer.getNewBlock ⟨file, eof, [], pos, blockPos, true⟩) = some ts) :
    ∀ {stk : Bytes}, stk ≠ [] → ∀ fuel > n + stk.length, ∀ pos blockPos,
      FTokenizer.delivered fuel ⟨file, eof, stk, pos, blockPos, true⟩ = some (tokens stk ++ ts) := by
  intro stk
  induction hn : stk.length using Nat.strong_induction_on generalizing stk with
  | _ m ih =>
    intro hne fuel hfuel pos blockPos
    obtain ⟨t, rest, rfl⟩ := List.exists_cons_of_ne_nil hne
    obtain ⟨fuel, rfl⟩ : ∃ fuel', fuel = fuel' + 1 := ⟨fuel - 1, by omega⟩
    have hshort := getToken_length t rest
    rw [List.length_cons] at hn
    rw [FTokenizer.delivered, if_pos rfl, tokens_cons]
    unfold FTokenizer.nextToken
    dsimp only
    by_cases hdone : (getToken t rest).2 = []
    · rw [if_pos hdone, hdone, hbehind fuel (by omega)]
      rfl
    · rw [if_neg hdone, ih _ (by omega) rfl hdone fuel (by omega)]
      rfl

theorem blockAt_zero (content : Bytes) : blockAt content 0 = content.take (maxBlock - 1) := by
  rw [blockAt, Nat.zero_mul, List.drop_zero]

theorem blockAt_succ (content : Bytes) (k : Nat) : blockAt content (k + 1) = blockAt (content.drop (maxBlock - 1)) k := by
  rw [blockAt, blockAt, List.drop_drop, Nat.succ_mul, Nat.add_comm]

/-- A file that comes up short in its first block. -/
theorem blockwise_short {content : Bytes} (h : content.length < maxBlock - 1) : blockwise content = blockTokens content := by
  rw [blockwise, Nat.div_eq_of_lt h, List.range_one, List.flatMap_singleton, blockAt_zero, List.take_of_length_le (by omega)]

theorem blockwise_long {content : Bytes} (h : maxBlock - 1 ≤ content.length) :
    blockwise content = tokens (content.take (maxBlock - 1)) ++ blockwise (content.drop (maxBlock - 1)) := by
  have hne : content.take (maxBlock - 1) ≠ [] := fun hnil => by
    have hlength := congrArg List.length hnil
    rw [List.length_take, Nat.min_eq_left h] at hlength
    cases hlength
  have hcount : content.length / (maxBlock - 1) = (content.drop (maxBlock - 1)).length / (maxBlock - 1) + 1 := by
    rw [List.length_drop, Nat.div_eq_sub_div (by decide) h]
  rw [blockwise, hcount, List.range_succ_eq_map, List.flatMap_cons, blockAt_zero, blockTokens, if_neg hne, blockwise,
    List.flatMap_map]
  simp only [blockAt_succ]

/-- **What is delivered**: the tokens of every block that is read. -/
theorem delivered_blocks {content : Bytes} (hnul : 0 ∉ content) : ∀ fuel > content.length, ∀ pos blockPos more,
    FTokenizer.delivered fuel (FTokenizer.getNewBlock ⟨content, false, [], pos, blockPos, more⟩) =
      some (blockwise content) := by
  induction hn : content.length using Nat.strong_induction_on generalizing content with
  | _ n ih =>
    intro fuel hfuel pos blockPos more
    have hblocknul : cString (content.take (maxBlock - 1)) = content.take (maxBlock - 1) :=
      cString_eq (fun h => hnul (List.mem_of_mem_take h))
    rw [FTokenizer.getNewBlock, if_pos rfl]
    simp only
    rw [hblocknul]
    by_cases hshort : content.length < maxBlock - 1
    · rw [blockwise_short hshort, blockTokens, List.take_of_length_le (by omega), decide_eq_true hshort]
      have hbehind : ∀ fuel > 0, ∀ pos blockPos, FTokenizer.delivered fuel
          (FTokenizer.getNewBlock ⟨content.drop (maxBlock - 1), true, [], pos, blockPos, true⟩) = some [] := by
        intro fuel hfuel pos blockPos
        obtain ⟨fuel, rfl⟩ : ∃ fuel', fuel = fuel' + 1 := ⟨fuel - 1, by omega⟩
        rfl
      by_cases hempty : content = []
      · subst hempty
        obtain ⟨fuel, rfl⟩ : ∃ fuel', fuel = fuel' + 1 := ⟨fuel - 1, by omega⟩
        rw [if_pos rfl, FTokenizer.delivered, if_pos rfl]
        cases fuel with
        | zero => rfl
        | succ fuel => rfl
      · rw [if_neg hempty, delivered_block hbehind hempty fuel (by omega), List.append_nil]
    · have hlong : maxBlock - 1 ≤ content.length := Nat.le_of_not_lt hshort
      have hlength : (content.take (maxBlock - 1)).length = maxBlock - 1 := by rw [List.length_take, Nat.min_eq_left hlong]
      have hpos : 0 < maxBlock - 1 := by decide
      have hdrop : (content.drop (maxBlock - 1)).length = n - (maxBlock - 1) := by rw [List.length_drop, hn]
      have hbehind := ih _ (by omega) (fun h => hnul (List.mem_of_mem_drop h)) hdrop
      rw [blockwise_long hlong, decide_eq_false hshort]
      exact delivered_block (fun fuel hfuel pos blockPos => hbehind fuel hfuel pos blockPos true)
        (List.ne_nil_of_length_pos (by rw [hlength]; exact hpos)) fuel (by omega) pos 0

/-! ## Against the whole string -/

/-- The first blocks of a file. -/
def firstBlocks (content : Bytes) (k : Nat) : List SToken :=
    (List.range k).flatMap (fun i => blockTokens (blockAt content i))

theorem firstBlocks_succ (content : Bytes) (k : Nat) :
    firstBlocks content (k + 1) = firstBlocks content k ++ blockTokens (blockAt content k) := by
  rw [firstBlocks, List.range_succ, List.flatMap_append, List.flatMap_singleton]
  rfl

theorem blockTokens_texts (block : Bytes) : (blockTokens block).flatMap SToken.tokenStr = block := by
  rw [blockTokens]
  split
  · rename_i h
    rw [h]
    rfl
  · exact tokens_texts block

theorem firstBlocks_texts (content : Bytes) : ∀ k : Nat,
    (firstBlocks content k).flatMap SToken.tokenStr = content.take (k * (maxBlock - 1))
  | 0 => by rw [Nat.zero_mul]; rfl
  | k + 1 => by
    rw [firstBlocks_succ, List.flatMap_append, firstBlocks_texts content k, blockTokens_texts, Nat.succ_mul, List.take_add]
    rfl

theorem blockwise_split (content : Bytes) {k : Nat} (hk : k ≤ content.length / (maxBlock - 1) + 1) :
    ∃ back, blockwise content = firstBlocks content k ++ back := by
  obtain ⟨more, hmore⟩ := Nat.exists_eq_add_of_le hk
  exact ⟨_, by rw [blockwise, hmore, List.range_add, List.flatMap_append]; rfl⟩

/-- A file whose blocks end where tokens end is tokenized block by block up to any of them. -/
theorem tokens_firstBlocks {content : Bytes} (hnul : 0 ∉ content)
    (hends : ∀ k, k * (maxBlock - 1) < content.length → Boundary content (k * (maxBlock - 1))) : ∀ k : Nat,
    k * (maxBlock - 1) < content.length →
    tokens content = firstBlocks content k ++ tokens (content.drop (k * (maxBlock - 1)))
  | 0, _ => by rw [Nat.zero_mul]; rfl
  | k + 1, hk => by
    have hlt : k * (maxBlock - 1) < content.length := by
      rw [Nat.succ_mul] at hk
      omega
    have hcut : Boundary (content.drop (k * (maxBlock - 1))) (maxBlock - 1) :=
      (hends k hlt).drop (by rw [← Nat.succ_mul]; exact hends (k + 1) hk)
    have hne : blockAt content k ≠ [] := fun hnil => by
      have hlength := congrArg List.length hnil
      rw [blockAt, List.length_take, List.length_drop, List.length_nil] at hlength
      have hpos : 0 < maxBlock - 1 := by decide
      omega
    rw [tokens_firstBlocks hnul hends k hlt, tokens_cut hcut (fun h => hnul (List.mem_of_mem_drop h)), firstBlocks_succ,
      blockTokens, if_neg hne, List.append_assoc, List.drop_drop, ← Nat.succ_mul]
    rfl

/-- **A file is delivered as the tokens of the whole string if and only if every block ends where a token does, and the last
one is not empty**; whatever it delivers, it comes to an end. -/
theorem delivered_agrees_iff {content : Bytes} (hnul : 0 ∉ content) :
    ∃ ts, (∀ fuel > content.length, (FTokenizer.init content).delivered fuel = some ts) ∧
      (ts = tokens (cString content) ↔ content.length % (maxBlock - 1) ≠ 0 ∧
        ∀ k, k * (maxBlock - 1) < content.length → Boundary content (k * (maxBlock - 1))) := by
  refine ⟨blockwise content, fun fuel hfuel => delivered_blocks hnul fuel hfuel 0 0 false, ?_⟩
  have hpos : 0 < maxBlock - 1 := by decide
  have hdiv := Nat.div_add_mod content.length (maxBlock - 1)
  rw [Nat.mul_comm] at hdiv
  generalize hm : content.length / (maxBlock - 1) = m at hdiv
  have hwhole : blockwise content = firstBlocks content m ++ blockTokens (blockAt content m) := by
    rw [← firstBlocks_succ, firstBlocks, blockwise, hm]
  rw [cString_eq hnul]
  constructor
  · intro heq
    refine ⟨fun hmod => ?_, fun k hk => ?_⟩
    · -- the empty block at the end delivers an empty token
      have hempty : blockAt content m = [] := by
        rw [blockAt, List.drop_of_length_le (by omega), List.take_nil]
      have hnew : SToken.new ∈ tokens content := by
        rw [← heq, hwhole, blockTokens, if_pos hempty]
        exact List.mem_append_right _ (List.mem_singleton_self _)
      exact tokens_ne_empty _ hnew rfl
    · have hle : k ≤ content.length / (maxBlock - 1) + 1 :=
        Nat.le_succ_of_le ((Nat.le_div_iff_mul_le hpos).2 hk.le)
      obtain ⟨back, hback⟩ := blockwise_split content hle
      refine (boundary_iff hnul _).2 ⟨firstBlocks content k, back, heq.symm.trans hback, ?_⟩
      rw [firstBlocks_texts, List.length_take, Nat.min_eq_left hk.le]
  · rintro ⟨hmod, hends⟩
    have hlt : content.length % (maxBlock - 1) < maxBlock - 1 := Nat.mod_lt _ hpos
    have hne : blockAt content m ≠ [] := fun hnil => by
      have hlength := congrArg List.length hnil
      rw [blockAt, List.length_take, List.length_drop, List.length_nil] at hlength
      omega
    have hlast : blockAt content m = content.drop (m * (maxBlock - 1)) :=
      List.take_of_length_le (by rw [List.length_drop]; omega)
    rw [hwhole, blockTokens, if_neg hne, hlast, ← tokens_firstBlocks hnul hends m (by omega)]

/-- An empty file delivers a token, and a word of 200 letters comes in two. -/
theorem delivered_disagrees :
    (FTokenizer.init []).delivered 1 = some [⟨[], .unknown⟩] ∧ tokens (cString []) = [] ∧
    (FTokenizer.init (List.replicate 200 97)).delivered 201 =
      some [⟨List.replicate 199 97, .alpha⟩, ⟨[97], .alpha⟩] ∧
    tokens (cString (List.replicate 200 97)) = [⟨List.replicate 200 97, .alpha⟩] := by decide +kernel

/-- A file of two blocks: the first ends behind its word of 199 letters. -/
theorem delivered_agrees_blocks : (FTokenizer.init (List.replicate 199 97 ++ ascii " b 1")).delivered 204 =
    some [⟨List.replicate 199 97, .alpha⟩, ⟨[32], .space⟩, ⟨ascii "b", .alpha⟩, ⟨[32], .space⟩, ⟨ascii "1", .number⟩] := by
  have hnul : 0 ∉ List.replicate 199 97 ++ ascii " b 1" := by decide
  have htokens : tokens (List.replicate 199 97 ++ ascii " b 1") =
      [⟨List.replicate 199 97, .alpha⟩] ++ [⟨[32], .space⟩, ⟨ascii "b", .alpha⟩, ⟨[32], .space⟩, ⟨ascii "1", .number⟩] := by
    decide +kernel
  obtain ⟨ts, hts, hiff⟩ := delivered_agrees_iff hnul
  have hlength : (List.replicate 199 97 ++ ascii " b 1").length = 203 := by decide +kernel
  have hends : ∀ k, k * (maxBlock - 1) < (List.replicate 199 97 ++ ascii " b 1").length →
      Boundary (List.replicate 199 97 ++ ascii " b 1") (k * (maxBlock - 1)) := fun k hk => by
    rw [hlength, maxBlock] at hk
    obtain rfl | rfl : k = 0 ∨ k = 1 := by omega
    · exact .front _
    · exact (boundary_iff hnul _).2 ⟨_, _, htokens, by decide +kernel⟩
  rw [hts 204 (by rw [hlength]; omega), hiff.2 ⟨by rw [hlength]; decide, hends⟩, cString_eq hnul, htokens]
  rfl

end Query
end Sql
