import SqlEngine.Filters
/-!
# Expressions — which conditions are evaluated

The parser takes both parentheses for one type, shunting-yard pairs them up, and the evaluation counts its operands.  What
passes all three is an expression of the grammar exactly if it is one statement and every parenthesis is on its side of a
comparison (`command_expression_iff`).
-/
namespace Sql

open Wire Effects Maps Languages

namespace Query

open Storage (tokenOf)

/-! ## The grammar of conditions -/

/-- `E -> C | E and E | E or E | ( E )` and `C -> literal relational literal`. -/
inductive Expression : List (SToken × Ptype) → Prop where
  | comparison (left operation right : SToken) :
      Expression [(left, .literal), (operation, .relational), (right, .literal)]
  | logical {left right : List (SToken × Ptype)} {operation : SToken}
      (hoperation : operation.tokenStr = ascii "and" ∨ operation.tokenStr = ascii "or") (hl : Expression left)
      (hr : Expression right) : Expression (left ++ (operation, .logical) :: right)
  | paren {inner : List (SToken × Ptype)} {first last : SToken} (hfirst : first.tokenStr = ascii "(")
      (hlast : last.tokenStr = ascii ")") (h : Expression inner) :
      Expression ((first, .parens) :: inner ++ [(last, .parens)])

/-- Every opening parenthesis is in front of a comparison, and every closing one behind it.  The flag is set behind a
literal, parentheses apart. -/
def Placed : Bool → List (SToken × Ptype) → Prop
  | _, [] => True
  | behind, (token, .parens) :: clause => token.tokenStr = ascii (if behind then ")" else "(") ∧ Placed behind clause
  | _, (_, .literal) :: clause => Placed true clause
  | _, _ :: clause => Placed false clause

theorem Expression.types {clause : List (SToken × Ptype)} (h : Expression clause) :
    ∀ token ∈ clause, token.2 ∈ conditionTypes := by
  induction h with
  | comparison left operation right => simp [conditionTypes]
  | logical _ _ _ ihl ihr =>
    intro token htoken
    rcases List.mem_append.1 htoken with htoken | htoken
    · exact ihl token htoken
    · rcases List.mem_cons.1 htoken with rfl | htoken
      · simp [conditionTypes]
      · exact ihr token htoken
  | paren _ _ _ ih =>
    intro token htoken
    rcases List.mem_append.1 htoken with htoken | htoken
    · rcases List.mem_cons.1 htoken with rfl | htoken
      · simp [conditionTypes]
      · exact ih token htoken
    · rw [List.mem_singleton.1 htoken]
      simp [conditionTypes]

/-- Behind an expression the flag is set. -/
theorem Expression.placed {clause : List (SToken × Ptype)} (h : Expression clause) :
    ∀ rest : List (SToken × Ptype), Placed false (clause ++ rest) ↔ Placed true rest := by
  induction h with
  | comparison left operation right => exact fun rest => Iff.rfl
  | @logical left right operation _ _ _ ihl ihr =>
    intro rest
    rw [List.append_assoc, ihl, List.cons_append]
    exact ihr rest
  | @paren inner first last hfirst hlast _ ih =>
    intro rest
    rw [List.cons_append, List.cons_append, List.append_assoc, Placed, ih, List.singleton_append, Placed]
    simp [hfirst, hlast]

/-! ## What a front may still become -/

/-- The front ends with an expression inside some open parentheses. -/
def Inside : Nat → List (SToken × Ptype) → Prop
  | 0, front => Expression front
  | depth + 1, front => ∃ outer first inner, front = outer ++ (first, .parens) :: inner ∧ first.tokenStr = ascii "(" ∧
      Expression inner ∧ ∀ e, Expression e → Inside depth (outer ++ e)

/-- Any expression completes the front. -/
def Awaits (depth : Nat) (front : List (SToken × Ptype)) : Prop := ∀ e, Expression e → Inside depth (front ++ e)

section
variable {depth : Nat} {front : List (SToken × Ptype)}

theorem Awaits.open (h : Awaits depth front) {first : SToken} (hfirst : first.tokenStr = ascii "(") :
    Awaits (depth + 1) (front ++ [(first, .parens)]) := by
  intro e he
  rw [List.append_assoc, List.singleton_append]
  exact ⟨front, first, e, rfl, hfirst, he, h⟩

theorem Inside.close (h : Inside (depth + 1) front) {last : SToken} (hlast : last.tokenStr = ascii ")") :
    Inside depth (front ++ [(last, .parens)]) := by
  obtain ⟨outer, first, inner, rfl, hfirst, hinner, hawaits⟩ := h
  rw [List.append_assoc]
  exact hawaits _ (.paren hfirst hlast hinner)

theorem Inside.logical (h : Inside depth front) {operation : SToken}
    (hoperation : operation.tokenStr = ascii "and" ∨ operation.tokenStr = ascii "or") :
    Awaits depth (front ++ [(operation, .logical)]) := by
  intro e he
  rw [List.append_assoc, List.singleton_append]
  cases depth with
  | zero => exact .logical hoperation h he
  | succ depth =>
    obtain ⟨outer, first, inner, rfl, hfirst, hinner, hawaits⟩ := h
    refine ⟨outer, first, inner ++ (operation, .logical) :: e, ?_, hfirst, .logical hoperation hinner he, hawaits⟩
    rw [List.append_assoc, List.cons_append]

end

/-- What has been read in a state of the condition. -/
def Reads (depth : Nat) (front : List (SToken × Ptype)) (state : Nat) : Prop :=
  (state = 19 ∨ state = 20) ∧ Awaits depth front ∨
  state = 21 ∧ (∃ outer left, front = outer ++ [(left, .literal)] ∧ Awaits depth outer) ∨
  state = 22 ∧ (∃ outer left operation, front = outer ++ [(left, .literal), (operation, .relational)] ∧ Awaits depth outer) ∨
  (state = 23 ∨ state = 24) ∧ Inside depth front

/-- States behind a literal. -/
def behindLiteral (state : Nat) : Bool := state = 21 ∨ state = 23 ∨ state = 24

section
variable {depth : Nat} {front clause : List (SToken × Ptype)} {state state' : Nat} {token : SToken} {type : Ptype}

/-- **One token further**: the parser says what type comes next, and the parenthesis what it does. -/
theorem reads_step (h : Reads depth front state) (htyped : Typed (token, type)) (hnext : next state type = some state')
    (hplaced : Placed (behindLiteral state) ((token, type) :: clause))
    (hcloses : closes depth (((token, type) :: clause).map tokenOf) = true) :
    ∃ depth', Reads depth' (front ++ [(token, type)]) state' ∧ Placed (behindLiteral state') clause ∧
      closes depth' (clause.map tokenOf) = true := by
  rcases h with ⟨hstate, hawaits⟩ | ⟨rfl, outer, left, rfl, hawaits⟩ | ⟨rfl, outer, left, operation, rfl, hawaits⟩ |
    ⟨hstate, hcomplete⟩
  · -- in front of a comparison: a literal or an opening parenthesis
    have hbehind : behindLiteral state = false := by rcases hstate with rfl | rfl <;> rfl
    rw [hbehind] at hplaced
    have hcases : type = .literal ∧ state' = 21 ∨ type = .parens ∧ state' = 20 := by
      rcases hstate with rfl | rfl
      all_goals
        cases type with
        | literal => exact Or.inl ⟨rfl, (Option.some.inj hnext).symm⟩
        | parens => exact Or.inr ⟨rfl, (Option.some.inj hnext).symm⟩
        | _ => cases hnext
    rcases hcases with ⟨rfl, rfl⟩ | ⟨rfl, rfl⟩
    · exact ⟨depth, Or.inr (Or.inl ⟨rfl, front, token, rfl, hawaits⟩), hplaced, (closes_other rfl _ _).symm.trans hcloses⟩
    · have htext : token.tokenStr = ascii "(" := hplaced.1
      have htoken : tokenOf (token, .parens) = .leftParen := if_pos htext
      rw [List.map_cons, htoken, closes] at hcloses
      exact ⟨depth + 1, Or.inl ⟨Or.inr rfl, hawaits.open htext⟩, hplaced.2, hcloses⟩
  · have hcases : type = .relational ∧ state' = 22 := by
      cases type with
      | relational => exact ⟨rfl, (Option.some.inj hnext).symm⟩
      | _ => cases hnext
    obtain ⟨rfl, rfl⟩ := hcases
    exact ⟨depth, Or.inr (Or.inr (Or.inl ⟨rfl, outer, left, token, List.append_assoc _ _ _, hawaits⟩)), hplaced,
      (closes_other rfl _ _).symm.trans hcloses⟩
  · have hcases : type = .literal ∧ state' = 23 := by
      cases type with
      | literal => exact ⟨rfl, (Option.some.inj hnext).symm⟩
      | _ => cases hnext
    obtain ⟨rfl, rfl⟩ := hcases
    refine ⟨depth, Or.inr (Or.inr (Or.inr ⟨Or.inl rfl, ?_⟩)), hplaced, (closes_other rfl _ _).symm.trans hcloses⟩
    rw [List.append_assoc]
    exact hawaits _ (.comparison left operation token)
  · -- behind a comparison: a logical operator or a closing parenthesis
    have hbehind : behindLiteral state = true := by rcases hstate with rfl | rfl <;> rfl
    rw [hbehind] at hplaced
    have hcases : type = .logical ∧ state' = 19 ∨ type = .parens ∧ state' = 24 := by
      rcases hstate with rfl | rfl
      all_goals
        cases type with
        | logical => exact Or.inl ⟨rfl, (Option.some.inj hnext).symm⟩
        | parens => exact Or.inr ⟨rfl, (Option.some.inj hnext).symm⟩
        | _ => cases hnext
    rcases hcases with ⟨rfl, rfl⟩ | ⟨rfl, rfl⟩
    · exact ⟨depth, Or.inl ⟨Or.inl rfl, hcomplete.logical (Or.symm htyped)⟩, hplaced,
        (closes_other rfl _ _).symm.trans hcloses⟩
    · have htext : token.tokenStr = ascii ")" := hplaced.1
      have htoken : tokenOf (token, .parens) = .rightParen := if_neg (by rw [htext]; decide)
      rw [List.map_cons, htoken] at hcloses
      cases depth with
      | zero =>
        rw [closes] at hcloses
        cases hcloses
      | succ depth =>
        rw [closes] at hcloses
        exact ⟨depth, Or.inr (Or.inr (Or.inr ⟨Or.inr rfl, hcomplete.close htext⟩)), hplaced.2, hcloses⟩

end

/-- **A run with its parentheses in place reads an expression**: the front grows, and the depth is what is open in it. -/
theorem expression_of_run {last : Nat} (hends : Ends last) : ∀ {clause front : List (SToken × Ptype)} {depth state : Nat},
    Reads depth front state → (∀ token ∈ clause, Typed token) → run next state (clause.map Prod.snd) = some last →
    Placed (behindLiteral state) clause → closes depth (clause.map tokenOf) = true → Expression (front ++ clause)
  | [], front, depth, state, h, _, hrun, _, hcloses => by
    obtain rfl : state = last := Option.some.inj hrun
    obtain rfl : depth = 0 := of_decide_eq_true hcloses
    rw [List.append_nil]
    rcases h with ⟨rfl | rfl, -⟩ | ⟨rfl, -⟩ | ⟨rfl, -⟩ | ⟨-, hcomplete⟩
    · exact absurd hends (by decide)
    · exact absurd hends (by decide)
    · exact absurd hends (by decide)
    · exact absurd hends (by decide)
    · exact hcomplete
  | (token, type) :: clause, front, depth, state, h, htyped, hrun, hplaced, hcloses => by
    rw [List.map_cons, run_cons] at hrun
    obtain ⟨state', hnext, hrest⟩ := Option.bind_eq_some_iff.1 hrun
    obtain ⟨depth', h', hplaced', hcloses'⟩ := reads_step h (htyped _ List.mem_cons_self) hnext hplaced hcloses
    have hexpression := expression_of_run hends h' (fun t ht => htyped t (List.mem_cons_of_mem _ ht)) hrest hplaced' hcloses'
    rwa [List.append_assoc, List.singleton_append] at hexpression

/-! ## The clause of a select -/

/-- In front of the first `where` there is no filter. -/
theorem filters_front (back : List (SToken × Ptype)) : ∀ {front : List (SToken × Ptype)},
    .where_ ∉ front.map Prod.snd → filters false (front ++ back) = filters false back
  | [], _ => rfl
  | (token, type) :: front, hfront => by
    obtain ⟨hne, hrest⟩ := List.ne_and_not_mem_of_not_mem_cons hfront
    rw [List.cons_append, filters, if_neg (Ne.symm hne), filters_front back hrest]
    split
    · rfl
    · rfl

/-- A clause without keywords is one filter. -/
theorem filters_clause : ∀ {clause : List (SToken × Ptype)}, (∀ token ∈ clause, token.2 ∈ conditionTypes) →
    filters true clause = clause.map (fun token => token.1.tokenStr)
  | [], _ => rfl
  | (token, type) :: clause, htypes => by
    have htype : type ∈ conditionTypes := htypes _ List.mem_cons_self
    have hcreate : type ≠ .create := fun h => by rw [h] at htype; revert htype; decide
    have hwhere : type ≠ .where_ := fun h => by rw [h] at htype; revert htype; decide
    rw [filters, if_neg hcreate, if_neg hwhere, if_pos rfl,
      filters_clause (fun t ht => htypes t (List.mem_cons_of_mem _ ht))]
    rfl

end Query

namespace Storage

open Query

section
variable {cmd : Bytes} {token keyword : SToken} {front clause : List (SToken × Ptype)}
  (htokens : tokenize cmd = some ((token, .select) :: (front ++ (keyword, .where_) :: clause)))
  {files files' : Files} {sql : SQL} (hcommand : SQL.command cmd files = some (sql, files')) (hok : sql.error = false)
include htokens hcommand hok

/-- Without a `create` behind it, the clause of a command that returns is a condition. -/
theorem command_condition (hcreate : .create ∉ clause.map Prod.snd) : clause.map Prod.snd ∈ condition := by
  have hwhere : .where_ ∈ (front ++ (keyword, .where_) :: clause).map Prod.snd :=
    List.mem_map_of_mem (List.mem_append_right front List.mem_cons_self)
  obtain ⟨-, hitems, -⟩ := command_answers htokens hwhere hcommand hok
  obtain ⟨last, hrun, hfinal, -⟩ := select_parsed htokens hitems
  rw [runTable_append] at hrun
  obtain ⟨state, hstate, hrun⟩ := Option.bind_eq_some_iff.1 hrun
  rw [runTable_cons] at hrun
  obtain ⟨state', hnext, hrun⟩ := Option.bind_eq_some_iff.1 hrun
  -- behind `where` the parser is in state 19, and does not leave the condition
  obtain rfl := where_state (runTable_lt (by decide) hstate) hnext
  rw [runTable_types, run_tableStep (by decide) hcreate] at hrun
  have hends : ∀ last ∈ conditionStates, Final last → Ends last := by decide
  exact condition_eq ▸ (run_next_iff _ 19).2 ⟨last, hrun, hends last (run_weight (by decide) hrun).1 hfinal⟩

/-- **What a command that returns has evaluated**: its literals as operands, and with its parentheses paired up. -/
theorem command_evaluated (hfront : .where_ ∉ front.map Prod.snd) (hclause : clause.map Prod.snd ∈ condition) :
    (∀ token ∈ clause, token.2 = .literal → Operand token.1.tokenStr) ∧ closes 0 (clause.map tokenOf) = true := by
  have hwhere : .where_ ∈ (front ++ (keyword, .where_) :: clause).map Prod.snd :=
    List.mem_map_of_mem (List.mem_append_right front List.mem_cons_self)
  obtain ⟨-, hitems, -, -, table, queue, _, _, _, _, -, -, hqueue, hselect⟩ := command_answers htokens hwhere hcommand hok
  have htyped : ∀ other ∈ clause, Typed other := fun other hother => tokenize_typed htokens other
    (List.mem_cons_of_mem _ (List.mem_append_right front (List.mem_cons_of_mem _ hother)))
  have htypes : ∀ other ∈ clause, other.2 ∈ conditionTypes := fun other hother =>
    (condition_count hclause).1 _ (List.mem_map_of_mem hother)
  have hretyped : ((parseTree cmd).get (ascii "condition")).map Table.allocateToken = retyped clause := by
    rw [select_condition htokens hitems, filters_front _ hfront, filters, if_neg (by decide), if_pos rfl,
      filters_clause htypes]
    rfl
  rw [hretyped] at hqueue
  have hoperands := literals_operands htyped hclause hqueue hselect
  rw [retyped_eq htyped htypes hoperands] at hqueue
  exact ⟨hoperands, (toPostfix_some hqueue).1⟩

end

/-- **What a select evaluates is an expression exactly if** its clause is not cut by a `create`, and every opening parenthesis
is in front of a comparison and every closing one behind it. -/
theorem command_expression_iff {cmd : Bytes} {token keyword : SToken} {front clause : List (SToken × Ptype)}
    (htokens : tokenize cmd = some ((token, .select) :: (front ++ (keyword, .where_) :: clause)))
    (hfront : .where_ ∉ front.map Prod.snd) {files files' : Files} {sql : SQL}
    (hcommand : SQL.command cmd files = some (sql, files')) (hok : sql.error = false) :
    Expression clause ↔ .create ∉ clause.map Prod.snd ∧ Placed false clause := by
  constructor
  · intro h
    constructor
    · intro hcreate
      obtain ⟨other, hother, htype⟩ := List.mem_map.1 hcreate
      have hmem := h.types other hother
      rw [htype] at hmem
      exact absurd hmem (by decide)
    · have hplaced := (h.placed []).2 trivial
      rwa [List.append_nil] at hplaced
  · rintro ⟨hcreate, hplaced⟩
    have hclause := command_condition htokens hcommand hok hcreate
    obtain ⟨-, hcloses⟩ := command_evaluated htokens hcommand hok hfront hclause
    obtain ⟨last, hrun, hends⟩ := (run_next_iff _ 19).1 (condition_eq ▸ hclause)
    have htyped : ∀ other ∈ clause, Typed other := fun other hother => tokenize_typed htokens other
      (List.mem_cons_of_mem _ (List.mem_append_right front (List.mem_cons_of_mem _ hother)))
    have hstart : Reads 0 [] 19 := Or.inl ⟨Or.inl rfl, fun e he => he⟩
    exact expression_of_run hends hstart htyped hrun hplaced hcloses

/-- `where ( ) a = "x"` is evaluated as if the parentheses were not there. -/
theorem command_misplaced : ∃ front clause sql files',
    tokenize (ascii "select * from t where ( ) a = \"x\"") = some (keyword (ascii "select") .select ::
      (front ++ keyword (ascii "where") .where_ :: clause)) ∧ .where_ ∉ front.map Prod.snd ∧
    SQL.command (ascii "select * from t where ( ) a = \"x\"") oneLegacy = some (sql, files') ∧ sql.error = false ∧
    sql.table.recordIndices = [0] ∧ ¬ Expression clause := by
  have htokens : tokenize (ascii "select * from t where ( ) a = \"x\"") = some (keyword (ascii "select") .select ::
      ([(⟨ascii "*", .star⟩, .asterisk), keyword (ascii "from") .from_, keyword (ascii "t") .literal] ++
        keyword (ascii "where") .where_ :: [(⟨ascii "(", .paren⟩, .parens), (⟨ascii ")", .paren⟩, .parens),
          keyword (ascii "a") .literal, (⟨ascii "=", .operator⟩, .relational), keyword (ascii "x") .literal])) := by
    decide +kernel
  obtain ⟨sql, files', hcommand, hok, htable⟩ := command_oneLegacy_where htokens
    (condition_eq ▸ (run_next_iff _ 19).2 ⟨23, by decide, by decide⟩)
    (by decide : _ = some [.tokenStr (ascii "a"), .tokenStr (ascii "x"), .relational (ascii "=")]) (by rfl)
  refine ⟨_, _, sql, files', htokens, by decide, hcommand, hok, by rw [htable]; rfl, fun h => ?_⟩
  have hplaced := (h.placed []).2 trivial
  rw [List.append_nil] at hplaced
  exact absurd hplaced.2.1 (by decide)

theorem command_expression_iff_paren : ∃ clause sql files',
    tokenize (ascii "select * from t where (a = \"x\")") = some (selectInput .all ⟨ascii "t", .alpha⟩ clause) ∧
    SQL.command (ascii "select * from t where (a = \"x\")") oneLegacy = some (sql, files') ∧ sql.error = false ∧
    Expression clause := by
  have htokens : tokenize (ascii "select * from t where (a = \"x\")") = some (selectInput .all ⟨ascii "t", .alpha⟩
      [(⟨ascii "(", .paren⟩, .parens), keyword (ascii "a") .literal, (⟨ascii "=", .operator⟩, .relational),
        keyword (ascii "x") .literal, (⟨ascii ")", .paren⟩, .parens)]) := by decide +kernel
  obtain ⟨sql, files', hcommand, hok, -⟩ := command_oneLegacy_where htokens
    (condition_eq ▸ (run_next_iff _ 19).2 ⟨24, by decide, by decide⟩)
    (by decide : _ = some [.tokenStr (ascii "a"), .tokenStr (ascii "x"), .relational (ascii "=")]) (by rfl)
  refine ⟨_, sql, files', htokens, hcommand, hok, (command_expression_iff htokens ?_ hcommand hok).2 ⟨by decide, ?_⟩⟩
  · decide
  · exact ⟨rfl, rfl, trivial⟩

end Storage
end Sql
