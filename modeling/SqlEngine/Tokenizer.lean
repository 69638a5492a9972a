import Mathlib.Data.List.TakeWhile
import SqlEngine.Wire
/-!
# Tokenizer — a command cut into tokens

`STokenizer` on what is left of its buffer.  Whatever the bytes are, the texts of the tokens put together are the buffer
(`tokens_texts`), and no token reaches over a double quote (`tokens_quote`).
-/
namespace Sql
namespace Query

open Wire

/-! ## State tables -/

/-- Rows are states, and columns are bytes or token types; `none` is -1. -/
abbrev StateTable := Nat → Nat → Option Nat

def initTable : StateTable := fun _ _ => none

def markCell (row : Nat) (table : StateTable) (column state : Nat) : StateTable := fun r c =>
  if r = row ∧ c = column then some state else table r c

/-- Column 0 is the flag of success. -/
def markSuccess (table : StateTable) (state : Nat) : StateTable := markCell state table 0 1

def markFail (table : StateTable) (state : Nat) : StateTable := markCell state table 0 0

def isSuccess (table : StateTable) (state : Nat) : Bool := table state 0 = some 1

def markCells (row : Nat) (table : StateTable) (columns : Bytes) (state : Nat) : StateTable :=
  columns.foldl (fun table column => markCell row table column.toNat state) table

theorem markCells_apply (row state r c : Nat) : ∀ (columns : Bytes) (table : StateTable),
    markCells row table columns state r c = if r = row ∧ c ∈ columns.map UInt8.toNat then some state else table r c
  | [], table => by simp [markCells]
  | column :: columns, table => by
    rw [show markCells row table (column :: columns) state =
      markCells row (markCell row table column.toNat state) columns state from rfl, markCells_apply, List.map_cons]
    by_cases hrow : r = row
    · by_cases hc : c = column.toNat
      · simp [markCell, hrow, hc]
      · simp [markCell, hrow, hc]
    · simp [markCell, hrow]

/-! ## The table of the tokenizer -/

inductive TokenType where
  | number | alpha | space | operator | comma | paren | star | quote | unknown
  deriving DecidableEq, Repr

structure SToken where
  tokenStr : Bytes
  type : TokenType
  deriving DecidableEq, Repr

def alphas : Bytes := ascii "abcdefghijklmnopqrstuvwxyzABCDEFGHIJKLMNOPQRSTUVWXYZ_0123456789"
def digits : Bytes := ascii "0123456789"
def operators : Bytes := ascii "><=!"
def spaces : Bytes := [32, 9, 10]
def paren : Bytes := ascii "()"
def star : Bytes := ascii "*"
def comma : Bytes := ascii ","

/-- `make_table`. -/
def tokenTable : StateTable :=
  let table := [1, 2, 3, 4, 5, 6, 7].foldl markSuccess (markFail initTable 0)
  let table := markCells 0 table alphas 1
  let table := markCells 0 table digits 2
  let table := markCells 0 table operators 3
  let table := markCells 0 table comma 4
  let table := markCells 0 table spaces 5
  let table := markCells 0 table paren 6
  let table := markCells 0 table star 7
  let table := markCells 1 table alphas 1
  let table := markCells 2 table digits 2
  markCells 3 table operators 3

def tokenType : Nat → TokenType
  | 1 => .alpha
  | 2 => .number
  | 3 => .operator
  | 4 => .comma
  | 5 => .space
  | 6 => .paren
  | 7 => .star
  | _ => .unknown

/-! ## One token -/

/-- The inner loop of a number, at its dot: it goes on while the byte it looked at was a digit.  Behind the end of the
buffer there is a NUL. -/
def takeFraction : UInt8 → Bytes → Bytes × Bytes
  | _, [] => ([], [])
  | nextToken, t :: rest =>
    if tokenTable 2 nextToken.toNat = some 2 then
      let (taken, rest) := takeFraction (rest.headD 0) rest
      (t :: taken, rest)
    else ([], t :: rest)

/-- The outer loop: what belongs to the token, and what is left.  State 0 ends it at once. -/
def takeToken (state : Nat) : Bytes → Bytes × Bytes
  | [] => ([], [])
  | t :: rest =>
    if (state = 1 ∨ state = 2 ∨ state = 3) ∧ tokenTable state t.toNat = some state then
      let (taken, rest) := takeToken state rest
      (t :: taken, rest)
    else if state = 2 ∧ t = 46 ∧ rest ≠ [] then takeFraction (rest.headD 0) (t :: rest)
    else ([], t :: rest)

/-- `get_token` from state 0 on a buffer that is not done. -/
def getToken (t : UInt8) (rest : Bytes) : SToken × Bytes :=
  match tokenTable 0 t.toNat with
  | none => (⟨[t], .unknown⟩, rest)
  | some state =>
    if 4 ≤ state ∧ state ≤ 7 then (⟨[t], tokenType state⟩, rest)
    else
      let (taken, rest) := takeToken state rest
      (⟨t :: taken, tokenType state⟩, rest)

/-- `set_string` takes a C string. -/
def cString (str : Bytes) : Bytes := str.takeWhile (· ≠ 0)

theorem cString_eq {str : Bytes} (hnul : 0 ∉ str) : cString str = str :=
  List.takeWhile_eq_self_iff.2 (fun _ ht => decide_eq_true (fun h => hnul (h ▸ ht)))

/-- `>>` while there is more; every token takes a byte. -/
def tokensWithin : Nat → Bytes → List SToken
  | 0, _ => []
  | _ + 1, [] => []
  | fuel + 1, t :: rest => (getToken t rest).1 :: tokensWithin fuel (getToken t rest).2

def tokens (buffer : Bytes) : List SToken := tokensWithin buffer.length buffer

/-! ## No byte is lost -/

theorem takeFraction_append : ∀ (nextToken : UInt8) (buffer : Bytes),
    (takeFraction nextToken buffer).1 ++ (takeFraction nextToken buffer).2 = buffer
  | _, [] => rfl
  | nextToken, t :: rest => by
    rw [takeFraction]
    split
    · rw [List.cons_append, takeFraction_append]
    · rfl

theorem takeToken_append (state : Nat) : ∀ buffer : Bytes, (takeToken state buffer).1 ++ (takeToken state buffer).2 = buffer
  | [] => rfl
  | t :: rest => by
    rw [takeToken]
    split
    · rw [List.cons_append, takeToken_append state rest]
    · split
      · exact takeFraction_append _ _
      · rfl

theorem getToken_append (t : UInt8) (rest : Bytes) : (getToken t rest).1.tokenStr ++ (getToken t rest).2 = t :: rest := by
  rw [getToken]
  cases tokenTable 0 t.toNat with
  | none => rfl
  | some state =>
    simp only
    split
    · rfl
    · rw [List.cons_append, takeToken_append]

/-- A token has its first byte. -/
theorem getToken_cons (t : UInt8) (rest : Bytes) : ∃ taken, (getToken t rest).1.tokenStr = t :: taken := by
  rw [getToken]
  cases tokenTable 0 t.toNat with
  | none => exact ⟨[], rfl⟩
  | some state =>
    simp only
    split
    · exact ⟨[], rfl⟩
    · exact ⟨_, rfl⟩

theorem getToken_length (t : UInt8) (rest : Bytes) : (getToken t rest).2.length ≤ rest.length := by
  obtain ⟨taken, htaken⟩ := getToken_cons t rest
  have hlen := congrArg List.length (getToken_append t rest)
  rw [htaken, List.length_append, List.length_cons, List.length_cons] at hlen
  omega

/-- Fuel does not matter. -/
theorem tokensWithin_eq : ∀ {fuel fuel' : Nat} {buffer : Bytes}, buffer.length ≤ fuel → buffer.length ≤ fuel' →
    tokensWithin fuel buffer = tokensWithin fuel' buffer
  | 0, 0, _, _, _ => rfl
  | 0, _ + 1, [], _, _ => rfl
  | _ + 1, 0, [], _, _ => rfl
  | _ + 1, _ + 1, [], _, _ => rfl
  | fuel + 1, fuel' + 1, t :: rest, h, h' => by
    have hlen := getToken_length t rest
    rw [List.length_cons] at h h'
    rw [tokensWithin, tokensWithin, tokensWithin_eq (by omega : _ ≤ fuel) (by omega : _ ≤ fuel')]

@[simp] theorem tokens_nil : tokens [] = [] := rfl

theorem tokens_cons (t : UInt8) (rest : Bytes) :
    tokens (t :: rest) = (getToken t rest).1 :: tokens (getToken t rest).2 := by
  rw [tokens, List.length_cons, tokensWithin, tokens, tokensWithin_eq (getToken_length t rest) le_rfl]

/-- **The tokenizer loses no byte** and moves none. -/
theorem tokens_texts (buffer : Bytes) : (tokens buffer).flatMap SToken.tokenStr = buffer := by
  induction hn : buffer.length using Nat.strong_induction_on generalizing buffer with
  | _ n ih =>
    cases buffer with
    | nil => rfl
    | cons t rest =>
      have hlt : (getToken t rest).2.length < n := by
        rw [← hn, List.length_cons]
        exact Nat.lt_succ_of_le (getToken_length t rest)
      rw [tokens_cons, List.flatMap_cons, ih _ hlt _ rfl, getToken_append]

/-! ## Where a token ends -/

/-- `takeToken` on a run of bytes of its state. -/
theorem takeToken_run {state : Nat} (hstate : state = 1 ∨ state = 2 ∨ state = 3) {rest : Bytes}
    (hrest : ∀ t ∈ rest.head?, tokenTable state t.toNat ≠ some state ∧ t ≠ 46) : ∀ {run : Bytes},
    (∀ t ∈ run, tokenTable state t.toNat = some state) → takeToken state (run ++ rest) = (run, rest)
  | [], _ => by
    cases rest with
    | nil => rfl
    | cons t rest =>
      obtain ⟨hne, hdot⟩ := hrest t rfl
      rw [List.nil_append, takeToken, if_neg (fun h => hne h.2), if_neg (fun h => hdot h.2.1)]
  | t :: run, h => by
    rw [List.cons_append, takeToken, if_pos ⟨hstate, h t List.mem_cons_self⟩,
      takeToken_run hstate hrest (fun u hu => h u (List.mem_cons_of_mem t hu))]

/-- A double quote. -/
def quoteByte : UInt8 := 34

theorem tokenTable_quote : ∀ state < 4, tokenTable state quoteByte.toNat = none := by decide +kernel

theorem takeFraction_quote : ∀ buffer : Bytes, quoteByte ∉ (takeFraction (buffer.headD 0) buffer).1
  | [] => List.not_mem_nil
  | t :: rest => by
    rw [takeFraction, List.headD_cons]
    split
    · rename_i hdigit
      refine List.not_mem_cons_of_ne_of_not_mem (fun heq => ?_) (takeFraction_quote rest)
      rw [← heq, tokenTable_quote 2 (by decide)] at hdigit
      cases hdigit
    · exact List.not_mem_nil

theorem takeToken_quote {state : Nat} : ∀ buffer : Bytes, quoteByte ∉ (takeToken state buffer).1
  | [] => List.not_mem_nil
  | t :: rest => by
    rw [takeToken]
    split
    · rename_i h
      refine List.not_mem_cons_of_ne_of_not_mem (fun heq => ?_) (takeToken_quote rest)
      rw [← heq, tokenTable_quote state (by omega)] at h
      cases h.2
    · split
      · rename_i h
        rw [takeFraction]
        split
        · exact List.not_mem_cons_of_ne_of_not_mem (by rw [h.2.1]; decide) (takeFraction_quote rest)
        · exact List.not_mem_nil
      · exact List.not_mem_nil

theorem getToken_quote {t : UInt8} (ht : t ≠ quoteByte) (rest : Bytes) : quoteByte ∉ (getToken t rest).1.tokenStr := by
  have hone : quoteByte ∉ [t] := fun h => ht (List.mem_singleton.1 h).symm
  rw [getToken]
  cases tokenTable 0 t.toNat with
  | none => exact hone
  | some state =>
    simp only
    split
    · exact hone
    · exact List.not_mem_cons_of_ne_of_not_mem ht.symm (takeToken_quote rest)

/-- **No token reaches over a double quote**: in front of one the tokens are cut from the bytes up to it. -/
theorem tokens_quote (rest : Bytes) : ∀ {value : Bytes}, quoteByte ∉ value → ∃ ts : List SToken,
    tokens (value ++ quoteByte :: rest) = ts ++ ⟨[quoteByte], .unknown⟩ :: tokens rest ∧
      ts.flatMap SToken.tokenStr = value := by
  intro value
  induction hn : value.length using Nat.strong_induction_on generalizing value with
  | _ n ih =>
    intro hvalue
    cases value with
    | nil =>
      refine ⟨[], ?_, rfl⟩
      have hquote : getToken quoteByte rest = (⟨[quoteByte], .unknown⟩, rest) := by
        rw [getToken, tokenTable_quote 0 (by decide)]
      rw [List.nil_append, tokens_cons, hquote]
      rfl
    | cons t value =>
      have ht := List.ne_of_not_mem_cons hvalue
      have happend := getToken_append t (value ++ quoteByte :: rest)
      have hquote := getToken_quote (Ne.symm ht) (value ++ quoteByte :: rest)
      obtain ⟨taken, htaken⟩ := getToken_cons t (value ++ quoteByte :: rest)
      rw [List.cons_append, tokens_cons]
      generalize getToken t (value ++ quoteByte :: rest) = got at happend hquote htaken
      obtain ⟨token, left⟩ := got
      rw [← List.cons_append] at happend
      -- the token ends within the value
      obtain ⟨back, hback, hleft⟩ : ∃ back, t :: value = token.tokenStr ++ back ∧ left = back ++ quoteByte :: rest := by
        rcases List.append_eq_append_iff.1 happend with ⟨back, hback, hleft⟩ | ⟨extra, hextra, hleft⟩
        · exact ⟨back, hback, hleft⟩
        · cases extra with
          | nil => exact ⟨[], by rw [hextra, List.append_nil, List.append_nil], hleft.symm⟩
          | cons u extra =>
            obtain ⟨rfl, -⟩ := List.cons.inj hleft
            exact absurd (hextra ▸ List.mem_append_right _ List.mem_cons_self) hquote
      have hlen := congrArg List.length hback
      rw [List.length_append, htaken, List.length_cons, List.length_cons] at hlen
      have hbackq : quoteByte ∉ back := fun h => hvalue (hback ▸ List.mem_append_right _ h)
      obtain ⟨ts, hts, htexts⟩ := ih back.length (by rw [← hn, List.length_cons]; omega) rfl hbackq
      refine ⟨token :: ts, ?_, ?_⟩
      · rw [hleft, hts]
        rfl
      · rw [List.flatMap_cons, htexts, hback]

end Query
end Sql
