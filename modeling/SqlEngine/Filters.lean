import SqlEngine.Statements
import SqlEngine.Overloads
import SqlEngine.Legacy
/-!
# Filters — from the tokens behind `where` to the condition that is evaluated

The parser knows the type of every token, but a condition travels as strings, and `Table::select` types them again by their
texts.  An evaluation that returns has read every literal as an operand (`literals_operands`).  A filter without any text but
parentheses is no filter, and all records are returned (`command_filtered_iff`).
-/
namespace Sql

open Wire Effects Maps Languages

namespace Query

/-! ## Tokens by their types -/

/-- The text is one of its type. -/
def Typed (token : SToken × Ptype) : Prop :=
  match token.2 with
  | .where_ => token.1.tokenStr = ascii "where"
  | .parens => token.1.tokenStr = ascii "(" ∨ token.1.tokenStr = ascii ")"
  | .relational => token.1.tokenStr ∈ relationalTexts
  | .logical => token.1.tokenStr = ascii "or" ∨ token.1.tokenStr = ascii "and"
  | _ => True

/-- A token that the tokenizer calls a parenthesis is one. -/
theorem tokens_paren {buffer : Bytes} (hnul : 0 ∉ buffer) : ∀ token ∈ tokens buffer, token.type = .paren →
    token.tokenStr = ascii "(" ∨ token.tokenStr = ascii ")" := by
  have hall : ∀ {buffer ts}, Extracted buffer ts → 0 ∉ buffer → ∀ token ∈ ts, token.type = .paren →
      token.tokenStr = ascii "(" ∨ token.tokenStr = ascii ")" := by
    intro buffer ts h
    induction h with
    | done => exact fun _ token htoken => absurd htoken List.not_mem_nil
    | @more t rest ts h ih =>
      intro hnul token htoken hparen
      rcases List.mem_cons.1 htoken with rfl | htoken
      · rw [getToken_lexeme hnul] at hparen ⊢
        unfold lexeme at hparen ⊢
        split_ifs at hparen ⊢
        have hbyte : t = 40 ∨ t = 41 := by
          have hsymbol : symbol t = .paren := hparen
          unfold symbol at hsymbol
          split_ifs at hsymbol with _ _ hbyte
          exact hbyte
        rcases hbyte with rfl | rfl
        · exact Or.inl rfl
        · exact Or.inr rfl
      · refine ih (fun hmem => hnul ?_) token htoken hparen
        rw [← getToken_append t rest]
        exact List.mem_append_right _ hmem
  exact hall (extracted_tokens buffer) hnul

theorem classify_typed {token : SToken} {type : Ptype}
    (hparen : token.type = .paren → token.tokenStr = ascii "(" ∨ token.tokenStr = ascii ")")
    (h : classifyUnquotedToken token = some type) : Typed (token, type) := by
  unfold classifyUnquotedToken at h
  cases htype : token.type with
  | alpha =>
    rw [htype] at h
    simp only at h
    -- the words in front of `where` have types that say nothing about their texts
    iterate 8
      obtain ⟨-, h⟩ | ⟨-, h⟩ := ite_eq_iff.1 h
      · obtain rfl := Option.some.inj h
        exact trivial
    obtain ⟨hwhere, h⟩ | ⟨-, h⟩ := ite_eq_iff.1 h
    · obtain rfl := Option.some.inj h
      exact hwhere
    obtain ⟨hlogical, h⟩ | ⟨-, h⟩ := ite_eq_iff.1 h
    · obtain rfl := Option.some.inj h
      exact hlogical
    · obtain rfl := Option.some.inj h
      exact trivial
  | number =>
    rw [htype] at h
    obtain rfl := Option.some.inj h
    exact trivial
  | operator =>
    rw [htype] at h
    simp only at h
    split_ifs at h with hrelational
    obtain rfl := Option.some.inj h
    exact hrelational
  | paren =>
    rw [htype] at h
    obtain rfl := Option.some.inj h
    exact hparen htype
  | star =>
    rw [htype] at h
    simp only at h
    split_ifs at h
    obtain rfl := Option.some.inj h
    exact trivial
  | comma =>
    rw [htype] at h
    simp only at h
    split_ifs at h
    obtain rfl := Option.some.inj h
    exact trivial
  | space =>
    rw [htype] at h
    cases h
  | quote =>
    rw [htype] at h
    cases h
  | unknown =>
    rw [htype] at h
    cases h

theorem tokenizeLoop_typed : ∀ {ts : List SToken} {quotedLiteral : Option Bytes} {input : List (SToken × Ptype)},
    (∀ token ∈ ts, token.type = .paren → token.tokenStr = ascii "(" ∨ token.tokenStr = ascii ")") →
    tokenizeLoop quotedLiteral ts = some input → ∀ token ∈ input, Typed token
  | [], none, input, _, h => by
    obtain rfl := Option.some.inj h
    exact fun token htoken => absurd htoken List.not_mem_nil
  | [], some _, _, _, h => by cases h
  | current :: ts, some quotedLiteral, input, hparen, h => by
    have hparen' := fun token htoken => hparen token (List.mem_cons_of_mem current htoken)
    rw [tokenizeLoop] at h
    split_ifs at h
    · obtain ⟨rest, hrest, rfl⟩ := Option.map_eq_some_iff.1 h
      intro token htoken
      rcases List.mem_cons.1 htoken with rfl | htoken
      · exact trivial
      · exact tokenizeLoop_typed hparen' hrest token htoken
    · exact tokenizeLoop_typed hparen' h
  | current :: ts, none, input, hparen, h => by
    have hparen' := fun token htoken => hparen token (List.mem_cons_of_mem current htoken)
    rw [tokenizeLoop] at h
    split_ifs at h
    · exact tokenizeLoop_typed hparen' h
    · exact tokenizeLoop_typed hparen' h
    · cases htype : classifyUnquotedToken current with
      | none =>
        rw [htype] at h
        cases h
      | some type =>
        rw [htype] at h
        obtain ⟨rest, hrest, rfl⟩ := Option.map_eq_some_iff.1 h
        intro token htoken
        rcases List.mem_cons.1 htoken with rfl | htoken
        · exact classify_typed (hparen current List.mem_cons_self) htype
        · exact tokenizeLoop_typed hparen' hrest token htoken

theorem zero_not_mem_cString (str : Bytes) : 0 ∉ cString str := fun hmem => by
  have := List.mem_takeWhile_imp hmem
  simp at this

/-- **The tokens of a command** have texts of their types. -/
theorem tokenize_typed {cmd : Bytes} {input : List (SToken × Ptype)} (h : tokenize cmd = some input) :
    ∀ token ∈ input, Typed token :=
  tokenizeLoop_typed (tokens_paren (zero_not_mem_cString cmd)) h

/-! ## Where the condition comes from -/

/-- The texts between a `where` and the next `create`, or the end. -/
def filters : Bool → List (SToken × Ptype) → List Bytes
  | _, [] => []
  | inside, (token, type) :: input =>
    if type = .create then filters false input
    else if type = .where_ then filters true input
    else (if inside then [token.tokenStr] else []) ++ filters inside input

/-- The condition of a tree, by the states. -/
def conditionOf (entries : List (Bytes × Nat)) : List Bytes :=
  (textsAt conditionStates entries).filter (fun text => decide (text ≠ ascii "where"))

/-- Off column 0 a condition is entered at `where` alone, and not left. -/
theorem next_condition {state state' : Nat} (hstate : state < 25) {type : Ptype} (h : next state type = some state') :
    (type = .where_ → state ∉ conditionStates ∧ state' ∈ conditionStates) ∧
      (type ≠ .where_ → (state' ∈ conditionStates ↔ state ∈ conditionStates)) := by
  have hall : ∀ state < 25, (next state type).all (fun state' => decide
      ((type = .where_ → state ∉ conditionStates ∧ state' ∈ conditionStates) ∧
        (type ≠ .where_ → (state' ∈ conditionStates ↔ state ∈ conditionStates)))) = true := by
    cases type with
    | _ => decide
  have hnext := hall state hstate
  rw [h] at hnext
  exact of_decide_eq_true hnext

theorem conditionOf_cons (entry : Bytes × Nat) (entries : List (Bytes × Nat)) : conditionOf (entry :: entries) =
    (if entry.2 ∈ conditionStates then [entry.1] else []).filter (fun text => decide (text ≠ ascii "where")) ++
      conditionOf entries := by
  rw [conditionOf, textsAt_cons, List.filter_append, conditionOf]

/-- **The condition of a tree** is what stands behind `where`, but for the texts `where`. -/
theorem conditionOf_entered {last : Nat} : ∀ {input : List (SToken × Ptype)} {state : Nat}, state < 25 →
    (∀ token ∈ input, Typed token) → runTable state input = some last → conditionOf (entered state input) =
      (filters (decide (state ∈ conditionStates)) input).filter (fun text => decide (text ≠ ascii "where"))
  | [], _, _, _, _ => rfl
  | (token, type) :: input, state, hstate, htyped, h => by
    have htyped' := fun other hother => htyped other (List.mem_cons_of_mem (token, type) hother)
    rw [runTable_cons] at h
    obtain ⟨state', hnext, hrest⟩ := Option.bind_eq_some_iff.1 h
    rw [entered_cons hnext, conditionOf_cons, conditionOf_entered (parserTable_lt hstate hnext) htyped' hrest, filters]
    by_cases hcreate : type = .create
    · -- `create` leads to state 0 or 1
      rw [if_pos hcreate]
      rw [hcreate, parserTable_create hstate] at hnext
      have hout : state' ∉ conditionStates := by
        obtain rfl := Option.some.inj hnext
        split_ifs
        all_goals decide
      rw [if_neg hout, decide_eq_false hout]
      rfl
    rw [if_neg hcreate]
    rw [parserTable_eq hstate hcreate] at hnext
    obtain ⟨hwhere, hother⟩ := next_condition hstate hnext
    by_cases htype : type = .where_
    · have htext : token.tokenStr = ascii "where" := by
        have := htyped (token, type) List.mem_cons_self
        rw [Typed, htype] at this
        exact this
      rw [if_pos htype, if_pos (hwhere htype).2, decide_eq_true (hwhere htype).2, htext]
      rfl
    · rw [if_neg htype, List.filter_append]
      by_cases hin : state ∈ conditionStates
      · rw [if_pos ((hother htype).2 hin), decide_eq_true hin, decide_eq_true ((hother htype).2 hin)]
        rfl
      · rw [if_neg (mt (hother htype).1 hin), decide_eq_false hin, decide_eq_false (mt (hother htype).1 hin)]
        rfl

/-! ## Two literals for each comparison -/

/-- How many literals are open in the states of a condition. -/
def literalWeight (state : Nat) : Nat := if state = 21 then 3 else if state = 22 then 1 else 2

/-- The types of a condition. -/
def conditionTypes : List Ptype := [.literal, .parens, .relational, .logical]

theorem next_weight {state state' : Nat} (hstate : state ∈ conditionStates) {a : Ptype} (h : next state a = some state') :
    state' ∈ conditionStates ∧ a ∈ conditionTypes ∧ (if a = .literal then 1 else 0) + literalWeight state =
      2 * (if a = .relational then 1 else 0) + literalWeight state' := by
  have hall : ∀ state ∈ conditionStates, (next state a).all (fun state' => decide (state' ∈ conditionStates ∧
      a ∈ conditionTypes ∧ (if a = .literal then 1 else 0) + literalWeight state =
        2 * (if a = .relational then 1 else 0) + literalWeight state')) = true := by
    cases a with
    | _ => decide
  have hnext := hall state hstate
  rw [h] at hnext
  exact of_decide_eq_true hnext

theorem run_weight {last : Nat} : ∀ {w : List Ptype} {state : Nat}, state ∈ conditionStates → run next state w = some last →
    last ∈ conditionStates ∧ (∀ a ∈ w, a ∈ conditionTypes) ∧
      w.count .literal + literalWeight state = 2 * w.count .relational + literalWeight last
  | [], state, hstate, h => by
    obtain rfl := Option.some.inj h
    exact ⟨hstate, fun a ha => absurd ha List.not_mem_nil, by simp⟩
  | a :: w, state, hstate, h => by
    rw [run_cons] at h
    obtain ⟨state', hnext, hrest⟩ := Option.bind_eq_some_iff.1 h
    obtain ⟨hstate', htype, hweight⟩ := next_weight hstate hnext
    obtain ⟨hlast, htypes, hcount⟩ := run_weight hstate' hrest
    refine ⟨hlast, List.forall_mem_cons.2 ⟨htype, htypes⟩, ?_⟩
    rw [List.count_cons, List.count_cons]
    simp only [beq_iff_eq]
    omega

/-- **A condition has two literals for each operator between them.** -/
theorem condition_count {w : List Ptype} (h : w ∈ condition) :
    (∀ a ∈ w, a ∈ conditionTypes) ∧ w.count .literal = 2 * w.count .relational := by
  obtain ⟨last, hrun, hends⟩ := (run_next_iff w 19).1 (condition_eq ▸ h)
  obtain ⟨hlast, htypes, hcount⟩ := run_weight (by decide) hrun
  have hweight : ∀ last ∈ conditionStates, Ends last → literalWeight last = 2 := by decide
  rw [hweight last hlast hends] at hcount
  exact ⟨htypes, Nat.add_right_cancel hcount⟩

def Token.isRelational : Token → Bool
  | relational _ => true
  | _ => false

/-- **What shunting-yard returns from**: the parentheses pair up, and nothing but them is lost. -/
theorem toPostfix_some {queue out : List Token} (h : toPostfix queue = some out) :
    closes 0 queue = true ∧ out.Perm (content queue) := by
  rcases shuntingYard_any queue [] [] (fun t ht => by cases ht) with ⟨hnone, -⟩ | ⟨out', hrun, hcloses, hcount, -⟩
  · cases hnone.symm.trans h
  · obtain rfl := Option.some.inj (hrun.symm.trans h)
    refine ⟨hcloses, List.perm_iff_count.2 (fun t => ?_)⟩
    simpa [content] using hcount t

theorem toPostfix_closes {queue : List Token} (h : closes 0 queue = true) : ∃ out, toPostfix queue = some out := by
  rcases shuntingYard_any queue [] [] (fun t ht => by cases ht) with ⟨-, hcloses⟩ | ⟨out, hrun, -⟩
  · cases hcloses.symm.trans h
  · exact ⟨out, hrun⟩

/-- Whatever is no parenthesis is as often behind the conversion. -/
theorem toPostfix_countP {queue out : List Token} (h : toPostfix queue = some out) {p : Token → Bool}
    (hleft : p .leftParen = false) (hright : p .rightParen = false) : out.countP p = queue.countP p := by
  rw [(toPostfix_some h).2.countP_eq, content, List.countP_filter]
  refine List.countP_congr (fun t _ => ?_)
  cases t with
  | leftParen => simp [hleft]
  | rightParen => simp [hright]
  | _ => simp [Token.isParen]

end Query

namespace Storage

open Query

/-- **Two operands for each comparison**: an evaluation that returns has used them all up. -/
theorem evalLoop_count : ∀ {queue : List Token} {s : List Bytes} {indices : List (List Nat)} {table : Table} {files : Files}
    {es : List FileEffect} {result : List Nat × Table},
    Table.evalLoop queue s indices table files = ⟨es, .ok result⟩ →
    s.length + queue.countP Token.isOperand = 2 * queue.countP Token.isRelational := by
  intro queue
  induction queue with
  | nil =>
    intro s indices table files es result h
    cases s with
    | cons str s =>
      rw [Table.evalLoop] at h
      · cases (attempt_ok.1 h).1
      · simp
    | nil => rfl
  | cons token queue ih =>
    intro s indices table files es result h
    cases token with
    | tokenStr str =>
      rw [Table.evalLoop] at h
      have hcount := ih h
      rw [List.length_cons] at hcount
      rw [List.countP_cons_of_pos rfl, List.countP_cons_of_neg Bool.false_ne_true]
      omega
    | leftParen =>
      rw [Table.evalLoop] at h
      exact ih h
    | rightParen =>
      rw [Table.evalLoop] at h
      exact ih h
    | relational operation =>
      rcases s with _ | ⟨value, _ | ⟨name, s⟩⟩
      · rw [Table.evalLoop] at h
        · cases (attempt_ok.1 h).1
        · simp
      · rw [Table.evalLoop] at h
        · cases (attempt_ok.1 h).1
        · simp
      · rw [Table.evalLoop] at h
        obtain ⟨es₁, ⟨records, table₁⟩, es₂, -, hrest, -⟩ := run_bind_ok.1 h
        have hcount := ih hrest
        rw [List.countP_cons_of_neg Bool.false_ne_true, List.countP_cons_of_pos rfl, List.length_cons, List.length_cons]
        omega
    | logical operation =>
      rcases indices with _ | ⟨first, _ | ⟨second, indices⟩⟩
      · rw [Table.evalLoop] at h
        · cases (attempt_ok.1 h).1
        · simp
      · rw [Table.evalLoop] at h
        · cases (attempt_ok.1 h).1
        · simp
      · rw [Table.evalLoop] at h
        exact ih h

theorem select_count {table : Table} {files : Files} {selected : List Bytes} {queue : List Token} {es : List FileEffect}
    {result : Table × Table} (h : table.select selected queue files = ⟨es, .ok result⟩) :
    queue.countP Token.isOperand = 2 * queue.countP Token.isRelational := by
  by_cases hempty : queue = []
  · rw [hempty]
    rfl
  · unfold Table.select at h
    obtain ⟨_, -, h1⟩ := attempt_bind_ok.1 h
    rw [if_pos hempty] at h1
    obtain ⟨es₁, _, es₂, heval, -, -⟩ := run_bind_ok.1 h1
    have hcount := evalLoop_count heval
    rwa [List.length_nil, Nat.zero_add] at hcount

/-! ## Texts that are typed again -/

/-- The condition that is evaluated: without the texts `where`, and typed by the others. -/
def retyped (clause : List (SToken × Ptype)) : List Token :=
  ((clause.map (fun token => token.1.tokenStr)).filter (fun text => decide (text ≠ ascii "where"))).map Table.allocateToken

/-- What a token of a condition comes back as. -/
def retype (token : SToken × Ptype) : List Token :=
  if token.1.tokenStr = ascii "where" then [] else [Table.allocateToken token.1.tokenStr]

/-- A literal that comes back as an operand. -/
def Operand (text : Bytes) : Prop := Plain text ∧ text ≠ ascii "where"

instance (text : Bytes) : Decidable (Operand text) := inferInstanceAs (Decidable (_ ∧ _))

theorem retyped_cons (token : SToken × Ptype) (clause : List (SToken × Ptype)) :
    retyped (token :: clause) = retype token ++ retyped clause := by
  by_cases h : token.1.tokenStr = ascii "where"
  · simp [retyped, retype, h]
  · simp [retyped, retype, h]

/-- A token as its type says. -/
def tokenOf : SToken × Ptype → Token
  | (token, .relational) => .relational token.tokenStr
  | (token, .logical) => .logical token.tokenStr
  | (token, .parens) => if token.tokenStr = ascii "(" then .leftParen else .rightParen
  | (token, _) => .tokenStr token.tokenStr

/-- **Everything but a literal is typed again as it was**, and a literal if it is an operand. -/
theorem allocateToken_typed {token : SToken × Ptype} (htyped : Typed token) (htype : token.2 ∈ conditionTypes)
    (hliteral : token.2 = .literal → Operand token.1.tokenStr) :
    token.1.tokenStr ≠ ascii "where" ∧ Table.allocateToken token.1.tokenStr = tokenOf token := by
  obtain ⟨token, type⟩ := token
  have hrelational : ∀ text ∈ relationalTexts, text ≠ ascii "where" := by decide
  cases type with
  | literal => exact ⟨(hliteral rfl).2, allocateToken_plain (hliteral rfl).1⟩
  | relational => exact ⟨hrelational _ htyped, allocateToken_relational htyped⟩
  | parens =>
    rcases htyped with h | h
    · simp only at h
      simp only [h, tokenOf]
      decide
    · simp only at h
      simp only [h, tokenOf]
      decide
  | logical =>
    rcases htyped with h | h
    · simp only at h
      simp only [h, tokenOf]
      decide
    · simp only at h
      simp only [h, tokenOf]
      decide
  | _ => simp [conditionTypes] at htype

theorem retyped_eq : ∀ {clause : List (SToken × Ptype)}, (∀ token ∈ clause, Typed token) →
    (∀ token ∈ clause, token.2 ∈ conditionTypes) → (∀ token ∈ clause, token.2 = .literal → Operand token.1.tokenStr) →
    retyped clause = clause.map tokenOf
  | [], _, _, _ => rfl
  | token :: clause, htyped, htypes, hliterals => by
    obtain ⟨hwhere, halloc⟩ := allocateToken_typed (htyped token List.mem_cons_self) (htypes token List.mem_cons_self)
      (hliterals token List.mem_cons_self)
    rw [retyped_cons, retype, if_neg hwhere, halloc, retyped_eq (fun t ht => htyped t (List.mem_cons_of_mem token ht))
      (fun t ht => htypes t (List.mem_cons_of_mem token ht)) (fun t ht => hliterals t (List.mem_cons_of_mem token ht))]
    rfl

theorem allocateToken_isOperand (text : Bytes) : (Table.allocateToken text).isOperand = decide (Plain text) := by
  by_cases h : Plain text
  · rw [allocateToken_plain h, decide_eq_true h]
    rfl
  · rw [decide_eq_false h]
    unfold Table.allocateToken
    split_ifs with hrelational hleft hright hlogical
    · rfl
    · rfl
    · rfl
    · rfl
    · refine absurd ?_ h
      simp only [Plain, List.mem_append, List.mem_cons, List.not_mem_nil, or_false, not_or]
      exact ⟨hrelational, hleft, hright, not_or.1 hlogical⟩

/-- A literal that does not come back as an operand. -/
def missing (token : SToken × Ptype) : Bool := decide (token.2 = .literal ∧ ¬ Operand token.1.tokenStr)

theorem retype_counts {token : SToken × Ptype} (htyped : Typed token) (htype : token.2 ∈ conditionTypes) :
    (retype token).countP Token.isOperand + (if missing token then 1 else 0) = (if token.2 = .literal then 1 else 0) ∧
      (if token.2 = .relational then 1 else 0) ≤ (retype token).countP Token.isRelational := by
  by_cases hliteral : token.2 = .literal
  · have hrelational : token.2 ≠ .relational := fun h => absurd (hliteral.symm.trans h) (by decide)
    rw [if_pos hliteral, if_neg hrelational]
    refine ⟨?_, Nat.zero_le _⟩
    rw [missing, retype]
    by_cases hwhere : token.1.tokenStr = ascii "where"
    · simp [hwhere, hliteral, Operand]
    · by_cases hplain : Plain token.1.tokenStr
      · simp [hwhere, hliteral, Operand, allocateToken_isOperand, hplain]
      · simp [hwhere, hliteral, Operand, allocateToken_isOperand, hplain]
  · -- anything else is what it was
    obtain ⟨hwhere, halloc⟩ := allocateToken_typed htyped htype (fun h => absurd h hliteral)
    have hmissing : missing token = false := decide_eq_false (fun h => hliteral h.1)
    rw [retype, if_neg hwhere, halloc, hmissing]
    obtain ⟨token, type⟩ := token
    cases type with
    | literal => exact absurd rfl hliteral
    | relational => exact ⟨rfl, le_rfl⟩
    | logical => exact ⟨rfl, le_rfl⟩
    | parens =>
      rw [tokenOf]
      split
      · exact ⟨rfl, le_rfl⟩
      · exact ⟨rfl, le_rfl⟩
    | _ => simp [conditionTypes] at htype

/-- **Literals that are no operands are missing**, and no operator is. -/
theorem retyped_counts : ∀ {clause : List (SToken × Ptype)}, (∀ token ∈ clause, Typed token) →
    (∀ token ∈ clause, token.2 ∈ conditionTypes) →
    (retyped clause).countP Token.isOperand + clause.countP missing = (clause.map Prod.snd).count .literal ∧
      (clause.map Prod.snd).count .relational ≤ (retyped clause).countP Token.isRelational
  | [], _, _ => ⟨rfl, le_rfl⟩
  | token :: clause, htyped, htypes => by
    obtain ⟨hoperands, hoperators⟩ := retyped_counts (fun t ht => htyped t (List.mem_cons_of_mem _ ht))
      (fun t ht => htypes t (List.mem_cons_of_mem _ ht))
    obtain ⟨hone, hle⟩ := retype_counts (htyped token List.mem_cons_self) (htypes token List.mem_cons_self)
    rw [retyped_cons, List.countP_append, List.countP_append, List.countP_cons, List.map_cons, List.count_cons,
      List.count_cons]
    simp only [beq_iff_eq]
    omega

/-- **An evaluation that returns has read every literal as an operand.** -/
theorem literals_operands {clause : List (SToken × Ptype)} (htyped : ∀ token ∈ clause, Typed token)
    (hclause : clause.map Prod.snd ∈ condition) {table : Table} {files : Files} {selected : List Bytes} {queue : List Token}
    {es : List FileEffect} {result : Table × Table} (hqueue : toPostfix (retyped clause) = some queue)
    (hselect : table.select selected queue files = ⟨es, .ok result⟩) :
    ∀ token ∈ clause, token.2 = .literal → Operand token.1.tokenStr := by
  obtain ⟨htypes, hliterals⟩ := condition_count hclause
  have htypes' : ∀ token ∈ clause, token.2 ∈ conditionTypes := fun token htoken => htypes _ (List.mem_map_of_mem htoken)
  obtain ⟨hoperands, hoperators⟩ := retyped_counts htyped htypes'
  have hcount := select_count hselect
  rw [toPostfix_countP hqueue rfl rfl, toPostfix_countP hqueue rfl rfl] at hcount
  have hnone : clause.countP missing = 0 := by omega
  rw [List.countP_eq_zero] at hnone
  intro token htoken hliteral
  by_contra hoperand
  exact hnone token htoken (decide_eq_true ⟨hliteral, hoperand⟩)

/-! ## Commands that select -/

/-- The projection that a tree asks a table for. -/
def asked (tree : MMap Bytes Bytes) (table : Table) : List Bytes :=
  if (tree.get (ascii "fields")).head? = some (ascii "*") then table.fieldNames else tree.get (ascii "fields")

/-- **The call of `Table::select` that answers a command**: its table, its condition and its result. -/
def Answers (tree : MMap Bytes Bytes) (files : Files) (table : Table) (queue : List Token) (result : Table) : Prop :=
  ∃ tableName es es' table', (tree.get (ascii "table_name")).head? = some tableName ∧
    Table.load tableName files = ⟨es, .ok table⟩ ∧
    toPostfix ((tree.get (ascii "condition")).map Table.allocateToken) = some queue ∧
    table.select (asked tree table) queue (after files es) = ⟨es', .ok (result, table')⟩

/-- What a select needs apart from its condition. -/
def Selectable (tree : MMap Bytes Bytes) (files : Files) : Prop :=
  ∃ tableName es table, Names tree tableName (ascii "select") ∧ isIdentifier tableName = true ∧
    Table.load tableName files = ⟨es, .ok table⟩ ∧ tree.get (ascii "fields") ≠ [] ∧
    table.validateProjection (asked tree table) = .ok ()

theorem Names.ne_empty {tree : MMap Bytes Bytes} {tableName commandName : Bytes} (h : Names tree tableName commandName) :
    tree.items ≠ [] := fun hempty => by
  have hcommand := h.2
  rw [MMap.get, OrderedMap.lookup, hempty] at hcommand
  cases hcommand

section
variable {tree : MMap Bytes Bytes} {files : Files} {tableName : Bytes} {table result : Table} {queue : List Token}

theorem select_validates {es : List FileEffect} {selected : List Bytes} {tables : Table × Table}
    (h : table.select selected queue files = ⟨es, .ok tables⟩) : table.validateProjection selected = .ok () := by
  unfold Table.select at h
  obtain ⟨_, hvalid, -⟩ := attempt_bind_ok.1 h
  exact hvalid

/-- `select` behind the records: collecting them cannot fail. -/
theorem select_records {table' : Table} {selected : List Bytes} {indices : List Nat}
    (hvalid : table.validateProjection selected = .ok ())
    (hindices : (if queue ≠ [] then Table.eval { table with selectedFields := chosenFields table.fieldNames selected } queue
      else pure (List.range table.numRecords, { table with selectedFields := chosenFields table.fieldNames selected })) files =
        ⟨[], .ok (indices, table')⟩)
    (h : table'.Valid files) (hlt : ∀ r ∈ indices, r < table'.storedRows.length) :
    ∃ result table'', table.select selected queue files = ⟨[], .ok (result, table'')⟩ ∧ result.recordIndices = indices := by
  obtain ⟨result, table'', hrun, hresult, -⟩ := select_run hvalid hindices (collect_eq h _ hlt)
  exact ⟨result, table'', hrun, hresult⟩

/-- The branch of the empty expression returns all records. -/
theorem select_all (h : table.Valid files) {selected : List Bytes} (hvalid : table.validateProjection selected = .ok ()) :
    ∃ result table', table.select selected [] files = ⟨[], .ok (result, table')⟩ ∧
      result.recordIndices = List.range table.numRecords := by
  have hselected : ({ table with selectedFields := chosenFields table.fieldNames selected } : Table).Valid files :=
    ⟨h.nodup, h.names_at, h.arity, h.count, h.on_file, h.in_cache⟩
  refine select_records hvalid (congrFun (if_neg (not_not.2 rfl)) files) hselected (fun r hr => ?_)
  rw [← hselected.count]
  exact List.mem_range.1 hr

/-- `select` of a tree with a condition, taken apart. -/
theorem sqlSelect_ok {es : List FileEffect} (hwhere : tree.contains (ascii "where") = true)
    (hname : (tree.get (ascii "table_name")).head? = some tableName)
    (h : SQL.select tree tableName files = ⟨es, .ok (some result)⟩) :
    tree.get (ascii "fields") ≠ [] ∧ ∃ table queue, Answers tree files table queue result := by
  unfold SQL.select at h
  obtain ⟨es₁, table, es₂, hload, h1, rfl⟩ := run_bind_ok.1 h
  cases hfields : tree.get (ascii "fields") with
  | nil =>
    rw [hfields] at h1
    cases (return_ok.1 h1).1
  | cons first fields =>
    rw [hfields] at h1
    simp only at h1
    rw [if_neg (by simp [hwhere])] at h1
    obtain ⟨es₃, ⟨selected, table'⟩, es₄, hselect, hreturn, rfl⟩ := run_bind_ok.1 h1
    obtain ⟨hsome, rfl⟩ := return_ok.1 hreturn
    obtain rfl := Option.some.inj hsome
    unfold Table.selectStrings at hselect
    cases hqueue : toPostfix ((tree.get (ascii "condition")).map Table.allocateToken) with
    | none =>
      rw [hqueue] at hselect
      cases (attempt_ok.1 hselect).1
    | some queue =>
      rw [hqueue] at hselect
      refine ⟨List.cons_ne_nil _ _, table, queue, tableName, es₁, es₃, table', hname, hload, hqueue, ?_⟩
      rw [load_selected hload] at hselect
      rw [asked, hfields, List.head?_cons]
      simp only [Option.some.injEq]
      exact hselect

/-- And put together. -/
theorem sqlSelect_run (hwhere : tree.contains (ascii "where") = true)
    (hname : (tree.get (ascii "table_name")).head? = some tableName) (hfields : tree.get (ascii "fields") ≠ [])
    (h : Answers tree files table queue result) : ∃ es, SQL.select tree tableName files = ⟨es, .ok (some result)⟩ := by
  obtain ⟨tableName', es, es', table', hname', hload, hqueue, hselect⟩ := h
  obtain rfl : tableName = tableName' := Option.some.inj (hname.symm.trans hname')
  obtain ⟨first, fields, hcons⟩ := List.exists_cons_of_ne_nil hfields
  rw [asked, hcons, List.head?_cons] at hselect
  simp only [Option.some.injEq] at hselect
  refine ⟨es ++ (es' ++ []), ?_⟩
  unfold SQL.select
  refine run_bind_ok.2 ⟨es, table, es' ++ [], hload, ?_, rfl⟩
  rw [hcons]
  simp only
  rw [if_neg (by simp [hwhere]), load_selected hload]
  refine run_bind_ok.2 ⟨es', (result, table'), [], ?_, rfl, rfl⟩
  unfold Table.selectStrings
  rw [hqueue]
  exact hselect

/-- The branch a select goes through. -/
theorem run_select (h : Names tree tableName (ascii "select")) (hid : isIdentifier tableName = true) :
    SQL.run tree files = SQL.select tree tableName files := by
  rw [h.run hid, if_neg (by decide), if_neg (by decide), if_pos rfl]

end

/-- A `where` leads to state 19. -/
theorem where_state {state state' : Nat} (hstate : state < 25) (h : parserTable state Ptype.where_.code = some state') :
    state' = 19 := by
  have hall : ∀ state < 25, (next state .where_).all (fun state' => decide (state' = 19)) = true := by decide
  have hone := hall state hstate
  rw [← parserTable_eq hstate Ptype.noConfusion, h] at hone
  exact of_decide_eq_true hone

theorem where_entered {last : Nat} : ∀ {input : List (SToken × Ptype)} {state : Nat}, state < 25 →
    runTable state input = some last → .where_ ∈ input.map Prod.snd → 19 ∈ (entered state input).map Prod.snd
  | (token, type) :: input, state, hstate, h, hwhere => by
    rw [runTable_cons] at h
    obtain ⟨state', hnext, hrest⟩ := Option.bind_eq_some_iff.1 h
    rw [entered_cons hnext, List.map_cons]
    rcases List.mem_cons.1 hwhere with htype | hwhere
    · obtain rfl : type = .where_ := htype.symm
      rw [where_state hstate hnext]
      exact List.mem_cons_self
    · exact List.mem_cons_of_mem _ (where_entered (parserTable_lt hstate hnext) hrest hwhere)

section
variable {cmd : Bytes} {files : Files} {token : SToken} {rest : List (SToken × Ptype)}
  (htokens : tokenize cmd = some ((token, .select) :: rest)) (hwhere : .where_ ∈ rest.map Prod.snd)
include htokens

/-- The tree of a select that is not the empty one. -/
theorem select_parsed (hitems : (parseTree cmd).items ≠ []) : ∃ last, runTable 13 rest = some last ∧ Final last ∧
    Query.Holds (parseTree cmd) (ascii "select") (entered 13 rest) := by
  obtain ⟨input, hinput, hparse⟩ := (parseTree_items cmd).1 hitems
  obtain rfl := Option.some.inj (htokens.symm.trans hinput)
  obtain ⟨token', type, rest', name, state, last, hcons, hcommand, hrun, hfinal, hholds⟩ := parse_some hparse
  obtain ⟨hhead, rfl⟩ := List.cons.inj hcons
  obtain ⟨rfl, rfl⟩ := Prod.mk.inj hhead
  cases hcommand
  exact ⟨last, hrun, hfinal, hholds⟩

/-- **The condition of a select** is what stands in its filters, but for the texts `where`. -/
theorem select_condition (hitems : (parseTree cmd).items ≠ []) : (parseTree cmd).get (ascii "condition") =
    (filters false rest).filter (fun text => decide (text ≠ ascii "where")) := by
  obtain ⟨last, hrun, -, hholds⟩ := select_parsed htokens hitems
  have htyped := fun other hother => tokenize_typed htokens other (List.mem_cons_of_mem (token, Ptype.select) hother)
  exact hholds.condition.trans (conditionOf_entered (by decide) htyped hrun)

include hwhere

theorem select_contains_where (hitems : (parseTree cmd).items ≠ []) :
    (parseTree cmd).contains (ascii "where") = true := by
  obtain ⟨last, hrun, -, hholds⟩ := select_parsed htokens hitems
  exact hholds.contains_where.2 (where_entered (by decide) hrun hwhere)

/-- **What a select with a filter returned from.** -/
theorem command_answers {sql : SQL} {files' : Files} (h : SQL.command cmd files = some (sql, files'))
    (hok : sql.error = false) : sql.ptree = parseTree cmd ∧ (parseTree cmd).items ≠ [] ∧
      (∃ tableName, Names (parseTree cmd) tableName (ascii "select") ∧ isIdentifier tableName = true) ∧
      (parseTree cmd).get (ascii "fields") ≠ [] ∧ ∃ table queue, Answers (parseTree cmd) files table queue sql.table := by
  obtain ⟨htree, es, rfl, ⟨herror, -⟩ | ⟨-, hrun⟩⟩ := command_inv h
  · exact absurd (herror.symm.trans hok) (by decide)
  rcases run_cases (parseTree cmd) files with ⟨e, hcase⟩ | hcase | ⟨tableName, commandName, hnamed, hid, -⟩
  · cases hcase.symm.trans hrun
  · cases hcase.symm.trans hrun
  have hitems := hnamed.ne_empty
  obtain ⟨-, -, -, hholds⟩ := select_parsed htokens hitems
  obtain rfl : ascii "select" = commandName := by
    have hcommand := hnamed.2
    rw [hholds.command] at hcommand
    exact Option.some.inj hcommand
  rw [run_select hnamed hid] at hrun
  obtain ⟨hfields, hanswers⟩ := sqlSelect_ok (select_contains_where htokens hwhere hitems) hnamed.1 hrun
  exact ⟨htree, hitems, ⟨tableName, hnamed, hid⟩, hfields, hanswers⟩

/-- What a select with a filter returns. -/
theorem answers_command {tableName : Bytes} (hnamed : Names (parseTree cmd) tableName (ascii "select"))
    (hid : isIdentifier tableName = true) (hfields : (parseTree cmd).get (ascii "fields") ≠ []) {table result : Table}
    {queue : List Token} (h : Answers (parseTree cmd) files table queue result) :
    ∃ sql files', SQL.command cmd files = some (sql, files') ∧ sql.error = false ∧ sql.table = result ∧
      sql.ptree = parseTree cmd := by
  have hitems := hnamed.ne_empty
  obtain ⟨es, hrun⟩ := sqlSelect_run (select_contains_where htokens hwhere hitems) hnamed.1 hfields h
  refine ⟨⟨result, false, "", parseTree cmd⟩, after files es, ?_, rfl, rfl, rfl⟩
  rw [SQL.command, run_select hnamed hid, hrun]

end

/-! ## Filters that are empty -/

theorem allocateToken_isParen (text : Bytes) :
    (Table.allocateToken text).isParen = true ↔ text = ascii "(" ∨ text = ascii ")" := by
  have hrelational : ∀ text ∈ relationalTexts, ¬ (text = ascii "(" ∨ text = ascii ")") := by decide
  unfold Table.allocateToken
  split_ifs with h hleft hright
  · exact iff_of_false Bool.false_ne_true (hrelational text h)
  · exact iff_of_true rfl (Or.inl hleft)
  · exact iff_of_true rfl (Or.inr hright)
  · exact iff_of_false Bool.false_ne_true (not_or.2 ⟨hleft, hright⟩)
  · exact iff_of_false Bool.false_ne_true (not_or.2 ⟨hleft, hright⟩)

/-- The texts `where` open and close nothing. -/
theorem closes_filter : ∀ (texts : List Bytes) (depth : Nat),
    closes depth ((texts.filter (fun text => decide (text ≠ ascii "where"))).map Table.allocateToken) =
      closes depth (texts.map Table.allocateToken)
  | [], _ => rfl
  | text :: texts, depth => by
    rw [List.map_cons]
    by_cases hwhere : text = ascii "where"
    · have hoperand : Table.allocateToken text = .tokenStr text := allocateToken_plain (hwhere ▸ by decide)
      rw [List.filter_cons_of_neg (by simp [hwhere]), closes_filter texts, hoperand, closes_other rfl]
    · rw [List.filter_cons_of_pos (by simpa using hwhere), List.map_cons]
      cases Table.allocateToken text with
      | leftParen => rw [closes, closes, closes_filter texts]
      | rightParen =>
        cases depth with
        | zero => rw [closes, closes]
        | succ depth => rw [closes, closes, closes_filter texts]
      | tokenStr s | relational s | logical s =>
        rw [closes_other rfl, closes_other rfl, closes_filter texts]

/-- A condition comes to nothing if it has nothing but parentheses, and those pair up. -/
theorem toPostfix_nil_iff (texts : List Bytes) :
    toPostfix ((texts.filter (fun text => decide (text ≠ ascii "where"))).map Table.allocateToken) = some [] ↔
      (∀ text ∈ texts, text = ascii "where" ∨ text = ascii "(" ∨ text = ascii ")") ∧
        Balanced (texts.map Table.allocateToken) := by
  rw [← closes_balanced, ← closes_filter]
  have hparens : content ((texts.filter (fun text => decide (text ≠ ascii "where"))).map Table.allocateToken) = [] ↔
      ∀ text ∈ texts, text = ascii "where" ∨ text = ascii "(" ∨ text = ascii ")" := by
    rw [content, List.filter_eq_nil_iff, List.forall_mem_map]
    simp only [List.mem_filter, decide_eq_true_eq, Bool.not_eq_true', Bool.not_eq_false, allocateToken_isParen,
      and_imp]
    exact forall₂_congr (fun text _ => or_iff_not_imp_left.symm)
  rw [← hparens]
  constructor
  · intro h
    obtain ⟨hcloses, hperm⟩ := toPostfix_some h
    exact ⟨hperm.nil_eq.symm, hcloses⟩
  · rintro ⟨hnil, hcloses⟩
    obtain ⟨out, hout⟩ := toPostfix_closes hcloses
    have hperm := (toPostfix_some hout).2
    rw [hnil] at hperm
    rw [hout, hperm.eq_nil]

/-- **A select with a `where` is filtered, or refused, exactly if** some text of its filters is neither `where` nor a
parenthesis, or its parentheses do not pair up, or it is refused whatever its filters say. -/
theorem command_filtered_iff {cmd : Bytes} {token : SToken} {rest : List (SToken × Ptype)}
    (htokens : tokenize cmd = some ((token, .select) :: rest)) (hwhere : .where_ ∈ rest.map Prod.snd) (files : Files) :
    (∀ sql files', SQL.command cmd files = some (sql, files') → sql.error = true ∨
      ∃ table queue, Answers sql.ptree files table queue sql.table ∧ queue ≠ []) ↔
    (∃ text ∈ filters false rest, text ≠ ascii "where" ∧ text ≠ ascii "(" ∧ text ≠ ascii ")") ∨
      ¬ Balanced ((filters false rest).map Table.allocateToken) ∨ ¬ Selectable (parseTree cmd) files := by
  constructor
  · intro hfiltered
    by_contra hnot
    rw [not_or, not_or, not_not, not_not] at hnot
    obtain ⟨htexts, hbalanced, tableName, es, table, hnamed, hid, hload, hfields, hvalid⟩ := hnot
    -- the condition is empty, and nothing else is in the way
    have hempty : toPostfix (((parseTree cmd).get (ascii "condition")).map Table.allocateToken) = some [] := by
      rw [select_condition htokens hnamed.ne_empty, toPostfix_nil_iff]
      refine ⟨fun text htext => ?_, hbalanced⟩
      by_contra hother
      exact htexts ⟨text, htext, not_or.1 hother |>.imp_right not_or.1⟩
    obtain ⟨result, table', hselect, -⟩ := select_all (load_valid hload).1 hvalid
    have hanswers : Answers (parseTree cmd) files table [] result :=
      ⟨tableName, es, [], table', hnamed.1, hload, hempty, hselect⟩
    obtain ⟨sql, files', hcommand, hok, -, htree⟩ := answers_command htokens hwhere hnamed hid hfields hanswers
    rcases hfiltered sql files' hcommand with herror | ⟨table'', queue, ⟨-, -, -, -, -, -, hqueue, -⟩, hne⟩
    · exact absurd (herror.symm.trans hok) (by decide)
    · rw [htree, hempty] at hqueue
      exact hne (Option.some.inj hqueue).symm
  · intro hcondition sql files' hcommand
    by_cases herror : sql.error = true
    · exact Or.inl herror
    have hok : sql.error = false := by simpa using herror
    obtain ⟨htree, hitems, ⟨tableName, hnamed, hid⟩, hfields, table, queue, hanswers⟩ :=
      command_answers htokens hwhere hcommand hok
    refine Or.inr ⟨table, queue, htree ▸ hanswers, fun hempty => ?_⟩
    obtain ⟨tableName', es, es', table', hname, hload, hqueue, hselect⟩ := hanswers
    obtain rfl : tableName' = tableName := Option.some.inj (hname.symm.trans hnamed.1)
    rw [hempty, select_condition htokens hitems, toPostfix_nil_iff] at hqueue
    rcases hcondition with ⟨text, htext, h1, h2, h3⟩ | hunbalanced | hrefused
    · exact (hqueue.1 text htext).elim h1 (fun h => h.elim h2 h3)
    · exact hunbalanced hqueue.2
    · exact hrefused ⟨tableName', es, table, hnamed, hid, hload, hfields, select_validates hselect⟩

/-- The table with one record in the files of format v1. -/
theorem load_oneLegacy : Table.load (ascii "t") oneLegacy =
    ⟨[], .ok (Table.filled (ascii "t") [ascii "a"] [[ascii "x"]])⟩ :=
  load_legacy readLegacy_oneLegacy (legacyFiles_database _ _)

section
variable {cmd : Bytes} {queue : List Token} {es : List FileEffect} {result table' : Table}

theorem command_oneLegacy {token : SToken} {rest : List (SToken × Ptype)}
    (htokens : tokenize cmd = some ((token, .select) :: rest)) (hwhere : .where_ ∈ rest.map Prod.snd)
    (hnamed : Names (parseTree cmd) (ascii "t") (ascii "select"))
    (hfields : (parseTree cmd).get (ascii "fields") = [ascii "*"])
    (hqueue : toPostfix (((parseTree cmd).get (ascii "condition")).map Table.allocateToken) = some queue)
    (hselect : (Table.filled (ascii "t") [ascii "a"] [[ascii "x"]]).select [ascii "a"] queue oneLegacy =
      ⟨es, .ok (result, table')⟩) :
    ∃ sql files', SQL.command cmd oneLegacy = some (sql, files') ∧ sql.error = false ∧ sql.table = result ∧
      sql.ptree = parseTree cmd := by
  have hasked : asked (parseTree cmd) (Table.filled (ascii "t") [ascii "a"] [[ascii "x"]]) = [ascii "a"] := by
    rw [asked, hfields]
    rfl
  exact answers_command htokens hwhere hnamed (by decide) (by rw [hfields]; exact List.cons_ne_nil _ _)
    ⟨ascii "t", [], es, table', hnamed.1, load_oneLegacy, hqueue, by rw [hasked]; exact hselect⟩

/-- A condition of the grammar is asked of the one record. -/
theorem command_oneLegacy_where {clause : List (SToken × Ptype)}
    (htokens : tokenize cmd = some (selectInput .all ⟨ascii "t", .alpha⟩ clause)) (hclause : clause.map Prod.snd ∈ condition)
    (hqueue : toPostfix (((clause.map (fun token => token.1.tokenStr)).filter
      (fun text => decide (text ≠ ascii "where"))).map Table.allocateToken) = some queue)
    (hselect : (Table.filled (ascii "t") [ascii "a"] [[ascii "x"]]).select [ascii "a"] queue oneLegacy =
      ⟨es, .ok (result, table')⟩) :
    ∃ sql files', SQL.command cmd oneLegacy = some (sql, files') ∧ sql.error = false ∧ sql.table = result := by
  obtain ⟨hcommand, hname, hfields, hcondition, -⟩ := select_tree htokens hclause
  have hwhere : Ptype.where_ ∈ ((⟨ascii "*", .star⟩, .asterisk) :: keyword (ascii "from") .from_ ::
      (⟨ascii "t", .alpha⟩, .literal) :: keyword (ascii "where") .where_ :: clause).map Prod.snd :=
    List.mem_map_of_mem (List.mem_append_right [_, _, _] List.mem_cons_self)
  obtain ⟨sql, files', h, hok, htable, -⟩ := command_oneLegacy htokens hwhere ⟨by rw [hname]; rfl, by rw [hcommand]; rfl⟩
    hfields (by rw [hcondition]; exact hqueue) hselect
  exact ⟨sql, files', h, hok, htable⟩

end

/-- `where create`: a filter without a condition, and all records. -/
theorem command_unfiltered : ∃ rest sql files',
    tokenize (ascii "select * from t where create") = some (keyword (ascii "select") .select :: rest) ∧
    .where_ ∈ rest.map Prod.snd ∧
    SQL.command (ascii "select * from t where create") oneLegacy = some (sql, files') ∧ sql.error = false ∧
    sql.table.recordIndices = [0] ∧
    ¬ ∃ table queue, Answers sql.ptree oneLegacy table queue sql.table ∧ queue ≠ [] := by
  have htokens : tokenize (ascii "select * from t where create") = some (keyword (ascii "select") .select ::
      [(⟨ascii "*", .star⟩, .asterisk), keyword (ascii "from") .from_, keyword (ascii "t") .literal,
        keyword (ascii "where") .where_, keyword (ascii "create") .create]) := by decide +kernel
  have hitems : (parseTree (ascii "select * from t where create")).items ≠ [] := by decide +kernel
  obtain ⟨last, -, -, hholds⟩ := select_parsed htokens hitems
  have hfields : (parseTree (ascii "select * from t where create")).get (ascii "fields") = [ascii "*"] :=
    hholds.fields.trans (by decide)
  have hcondition : (parseTree (ascii "select * from t where create")).get (ascii "condition") = [] :=
    (select_condition htokens hitems).trans (by decide)
  have hnamed : Names (parseTree (ascii "select * from t where create")) (ascii "t") (ascii "select") := by
    constructor
    · rw [hholds.tableName]
      decide
    · rw [hholds.command]
      rfl
  obtain ⟨sql, files', hcommand, hok, htable, htree⟩ := command_oneLegacy htokens (by decide) hnamed hfields
    (by rw [hcondition]; rfl) (by rfl)
  refine ⟨_, sql, files', htokens, by decide, hcommand, hok, by rw [htable]; rfl, ?_⟩
  rintro ⟨table, queue, ⟨-, -, -, -, -, -, hqueue, -⟩, hne⟩
  rw [htree, hcondition] at hqueue
  exact hne (Option.some.inj hqueue).symm

theorem command_filtered_iff_equal : ∃ sql files',
    SQL.command (ascii "select * from t where a = \"x\"") oneLegacy = some (sql, files') ∧ sql.error = false ∧
    ∃ table queue, Answers sql.ptree oneLegacy table queue sql.table ∧ queue ≠ [] := by
  have htokens : tokenize (ascii "select * from t where a = \"x\"") = some (selectInput .all ⟨ascii "t", .alpha⟩
      [keyword (ascii "a") .literal, (⟨ascii "=", .operator⟩, .relational), keyword (ascii "x") .literal]) := by
    decide +kernel
  obtain ⟨sql, files', hcommand, hok, -⟩ := command_oneLegacy_where htokens
    (condition_eq ▸ (run_next_iff _ 19).2 ⟨23, by decide, by decide⟩)
    (by decide : _ = some [.tokenStr (ascii "a"), .tokenStr (ascii "x"), .relational (ascii "=")]) (by rfl)
  refine ⟨sql, files', hcommand, hok, ?_⟩
  exact ((command_filtered_iff htokens (by decide) oneLegacy).2 (Or.inl ⟨ascii "a", by decide, by decide⟩) sql files'
    hcommand).resolve_left (fun herror => absurd (herror.symm.trans hok) (by decide))

end Storage
end Sql
