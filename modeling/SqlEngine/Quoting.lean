import SqlEngine.Expressions
/-!
# Quoting — values between quotes

A command is written with blanks between its words (`Spelled`), and is cut into the tokens it was written with.  A value in
quotes reaches the parser as a literal, whatever its text; the condition has the text alone.  A select with a well-formed
condition returns the records that satisfy it exactly if no value reads like an operator, a parenthesis or `where`
(`command_quoted_iff`).
-/
namespace Sql

open Wire Effects Maps Languages

namespace Query

open Storage (tokenOf isIdentifier)

/-! ## Spelled commands -/

/-- The tokens that a text is written with: words, values in quotes, operators and symbols, with any blanks in front.  A word
ends in front of a byte that is not of a word, and an operator alike. -/
inductive Spelled : Bytes → List (SToken × Ptype) → Prop where
  | done : Spelled [] []
  | blank {b : UInt8} {rest : Bytes} {input : List (SToken × Ptype)} (hb : b ∈ spaces) (h : Spelled rest input) :
      Spelled (b :: rest) input
  | word {word rest : Bytes} {type : Ptype} {input : List (SToken × Ptype)} (hid : isIdentifier word = true)
      (htype : classifyUnquotedToken ⟨word, .alpha⟩ = some type) (hrest : ∀ b ∈ rest.head?, isWord b = false)
      (h : Spelled rest input) : Spelled (word ++ rest) ((⟨word, .alpha⟩, type) :: input)
  | quoted {value rest : Bytes} {input : List (SToken × Ptype)} (hquote : quoteByte ∉ value) (hnul : 0 ∉ value)
      (h : Spelled rest input) : Spelled (quoted value ++ rest) ((⟨value, .alpha⟩, .literal) :: input)
  | operator {operation rest : Bytes} {input : List (SToken × Ptype)} (hoperation : operation ∈ relationalTexts)
      (hrest : ∀ b ∈ rest.head?, isOperator b = false) (h : Spelled rest input) :
      Spelled (operation ++ rest) ((⟨operation, .operator⟩, .relational) :: input)
  | paren {b : UInt8} {rest : Bytes} {input : List (SToken × Ptype)} (hb : b ∈ paren) (h : Spelled rest input) :
      Spelled (b :: rest) ((⟨[b], .paren⟩, .parens) :: input)
  | comma {rest : Bytes} {input : List (SToken × Ptype)} (h : Spelled rest input) :
      Spelled (44 :: rest) ((⟨ascii ",", .comma⟩, .commas) :: input)
  | star {rest : Bytes} {input : List (SToken × Ptype)} (h : Spelled rest input) :
      Spelled (42 :: rest) ((⟨ascii "*", .star⟩, .asterisk) :: input)

theorem Spelled.nul {text : Bytes} {input : List (SToken × Ptype)} (h : Spelled text input) : 0 ∉ text := by
  have hoperators : ∀ operation ∈ relationalTexts, 0 ∉ operation := by decide
  induction h with
  | done => exact List.not_mem_nil
  | blank hb _ ih => exact List.not_mem_cons_of_ne_of_not_mem (fun h => absurd (h ▸ hb) (by decide)) ih
  | word hid _ _ _ ih =>
    exact fun hmem => (List.mem_append.1 hmem).elim (fun h => isWord_ne_zero (isIdentifier_bytes hid 0 h) rfl) ih
  | quoted _ hnul _ ih =>
    intro hmem
    rcases List.mem_append.1 hmem with hmem | hmem
    · rcases List.mem_append.1 ((List.mem_cons.1 hmem).resolve_left (by decide)) with hmem | hmem
      · exact hnul hmem
      · exact absurd (List.mem_singleton.1 hmem) (by decide)
    · exact ih hmem
  | operator hoperation _ _ ih => exact fun hmem => (List.mem_append.1 hmem).elim (hoperators _ hoperation) ih
  | paren hb _ ih => exact List.not_mem_cons_of_ne_of_not_mem (fun h => absurd (h ▸ hb) (by decide)) ih
  | comma _ ih => exact List.not_mem_cons_of_ne_of_not_mem (by decide) ih
  | star _ ih => exact List.not_mem_cons_of_ne_of_not_mem (by decide) ih

/-- A run of a class up to a byte of another. -/
theorem takeWhile_run {p : UInt8 → Bool} {run rest : Bytes} (hrun : ∀ b ∈ run, p b = true)
    (hrest : ∀ b ∈ rest.head?, p b = false) : (run ++ rest).takeWhile p = run := by
  rw [List.takeWhile_append_of_pos hrun]
  cases rest with
  | nil => exact List.append_nil run
  | cons b rest => rw [List.takeWhile_cons_of_neg (by simp [hrest b rfl]), List.append_nil]

/-- A token of its own text, in front of anything. -/
theorem tokenizeLoop_lexeme {t : UInt8} {run rest : Bytes} {tokenType : TokenType} {type : Ptype}
    (hnul : 0 ∉ t :: run ++ rest)
    (hlexeme : lexeme t (run ++ rest) = ⟨t :: run, tokenType⟩)
    (htype : classifyUnquotedToken ⟨t :: run, tokenType⟩ = some type) :
    tokenizeLoop none (tokens (t :: run ++ rest)) =
      (tokenizeLoop none (tokens rest)).map (fun input => (⟨t :: run, tokenType⟩, type) :: input) := by
  have hquote : t :: run ≠ [quoteByte] := fun h => by
    obtain ⟨rfl, rfl⟩ := List.cons.inj h
    have hunknown : lexeme quoteByte ([] ++ rest) = ⟨[quoteByte], .unknown⟩ := by
      rw [lexeme, if_neg (by decide), if_neg (by decide), if_neg (by decide)]
      decide
    rw [hunknown] at hlexeme
    cases hlexeme
    cases htype
  have hcut : tokens (t :: run ++ rest) = ⟨t :: run, tokenType⟩ :: tokens rest := by
    have htext : t :: (run ++ rest) = (lexeme t (run ++ rest)).tokenStr ++ rest := by
      rw [hlexeme]
      rfl
    rw [← hlexeme]
    exact tokens_lexeme hnul htext
  rw [hcut, tokenizeLoop_cons hquote htype]

/-- **A written command is cut into the tokens it was written with.** -/
theorem Spelled.tokenize {text : Bytes} {input : List (SToken × Ptype)} (h : Spelled text input) :
    Query.tokenize text = some input := by
  rw [Query.tokenize, cString_eq h.nul]
  induction h with
  | done => rfl
  | @blank b rest input hb h ih =>
    have hlexeme : lexeme b rest = ⟨[b], .space⟩ := by
      have hall : ∀ b ∈ spaces, isLetter b = false ∧ isDigit b = false ∧ isOperator b = false ∧ symbol b = .space := by
        decide +kernel
      obtain ⟨hletter, hdigit, hoperator, hsymbol⟩ := hall b hb
      rw [lexeme, if_neg (by simp [hletter]), if_neg (by simp [hdigit]), if_neg (by simp [hoperator]), hsymbol]
    have hquote : [b] ≠ [quoteByte] := fun h => absurd ((List.cons.inj h).1 ▸ hb) (by decide)
    rw [tokens_lexeme (Spelled.blank hb h).nul (by rw [hlexeme]; rfl), hlexeme, tokenizeLoop, if_neg hquote, if_pos rfl, ih]
  | @word word rest type input hid htype hrest h ih =>
    have hnul := (Spelled.word hid htype hrest h).nul
    cases word with
    | nil => cases hid
    | cons first word =>
      have hfirst := hid
      rw [isIdentifier, decide_eq_true_eq] at hfirst
      have hlexeme : lexeme first (word ++ rest) = ⟨first :: word, .alpha⟩ := by
        rw [lexeme, if_pos (isLetter_of_isAlpha hfirst.1),
          takeWhile_run (fun b hb => isIdentifier_bytes hid b (List.mem_cons_of_mem first hb)) hrest]
      rw [tokenizeLoop_lexeme hnul hlexeme htype, ih]
      rfl
  | quoted hquote _ h ih =>
    rw [tokenizeLoop_quoted hquote, ih]
    rfl
  | @operator operation rest input hoperation hrest h ih =>
    have hnul := (Spelled.operator hoperation hrest h).nul
    have hall : ∀ operation ∈ relationalTexts, ∀ b ∈ operation,
        isOperator b = true ∧ isLetter b = false ∧ isDigit b = false := by
      decide +kernel
    cases operation with
    | nil => exact absurd hoperation (by decide)
    | cons first run =>
      obtain ⟨hoperator, hletter, hdigit⟩ := hall _ hoperation first List.mem_cons_self
      have hlexeme : lexeme first (run ++ rest) = ⟨first :: run, .operator⟩ := by
        rw [lexeme, if_neg (by simp [hletter]), if_neg (by simp [hdigit]), if_pos hoperator,
          takeWhile_run (fun b hb => (hall _ hoperation b (List.mem_cons_of_mem first hb)).1) hrest]
      rw [tokenizeLoop_lexeme hnul hlexeme (if_pos hoperation), ih]
      rfl
  | @paren b rest input hb h ih =>
    have hlexeme : lexeme b ([] ++ rest) = ⟨[b], .paren⟩ := by
      have hall : ∀ b ∈ Query.paren, isLetter b = false ∧ isDigit b = false ∧ isOperator b = false ∧ symbol b = .paren := by
        decide +kernel
      obtain ⟨hletter, hdigit, hoperator, hsymbol⟩ := hall b hb
      rw [lexeme, if_neg (by simp [hletter]), if_neg (by simp [hdigit]), if_neg (by simp [hoperator]), hsymbol]
    have hstep := @tokenizeLoop_lexeme b [] rest .paren .parens (Spelled.paren hb h).nul hlexeme rfl
    rw [ih] at hstep
    exact hstep
  | @comma rest input h ih =>
    have hstep := @tokenizeLoop_lexeme 44 [] rest .comma .commas (Spelled.comma h).nul (by rfl) (by decide)
    rw [ih] at hstep
    exact hstep
  | @star rest input h ih =>
    have hstep := @tokenizeLoop_lexeme 42 [] rest .star .asterisk (Spelled.star h).nul (by rfl) (by decide)
    rw [ih] at hstep
    exact hstep

/-! ## Well-formed conditions -/

/-- The token that the parser has for a token of a condition. -/
def parsed : Token → SToken × Ptype
  | .tokenStr s => (⟨s, .alpha⟩, .literal)
  | .relational s => (⟨s, .operator⟩, .relational)
  | .logical s => (⟨s, .alpha⟩, .logical)
  | .leftParen => (⟨ascii "(", .paren⟩, .parens)
  | .rightParen => (⟨ascii ")", .paren⟩, .parens)

theorem tokenOf_parsed (queue : List Token) : (queue.map parsed).map tokenOf = queue := by
  rw [List.map_map]
  refine (List.map_congr_left (fun token _ => ?_)).trans (List.map_id queue)
  cases token with
  | _ => rfl

/-- The values that are compared with. -/
def Formula.values : Formula → List Bytes
  | compare _ _ value => [value]
  | and left right | or left right => left.values ++ right.values

theorem Derives.operand {level : Level} {queue : List Token} {φ : Formula} (h : Derives level queue φ) (s : Bytes) :
    Token.tokenStr s ∈ queue ↔ s ∈ φ.fields ∨ s ∈ φ.values := by
  induction h with
  | compare field value h => simp [Formula.fields, Formula.values]
  | paren _ ih => simpa using ih
  | factor _ ih => exact ih
  | term _ ih => exact ih
  | and _ _ ihl ihr | or _ _ ihl ihr =>
    simp only [List.mem_append, List.mem_cons, reduceCtorEq, false_or, ihl, ihr, Formula.fields, Formula.values]
    exact or_or_or_comm

/-- The parser reads a well-formed condition from `where` on, and from an opening parenthesis. -/
theorem Derives.run {level : Level} {queue : List Token} {φ : Formula} (h : Derives level queue φ) : ∀ state,
    state = 19 ∨ state = 20 → ∃ last, (last = 23 ∨ last = 24) ∧
      Languages.run next state ((queue.map parsed).map Prod.snd) = some last := by
  induction h with
  | compare field value h =>
    rintro state (rfl | rfl)
    · exact ⟨23, Or.inl rfl, rfl⟩
    · exact ⟨23, Or.inl rfl, rfl⟩
  | @paren queue φ _ ih =>
    intro state hstate
    obtain ⟨last, hlast, hrun⟩ := ih 20 (Or.inr rfl)
    have hopen : next state .parens = some 20 := by rcases hstate with rfl | rfl <;> rfl
    have hclose : next last .parens = some 24 := by rcases hlast with rfl | rfl <;> rfl
    refine ⟨24, Or.inr rfl, ?_⟩
    rw [List.map_append, List.map_append, run_append, List.map_cons, List.map_cons, run_cons]
    simp only [parsed, hopen, Option.bind_some, hrun, List.map_cons, List.map_nil, run_cons, hclose, run_nil]
  | factor _ ih => exact ih
  | term _ ih => exact ih
  | and _ _ ihl ihr | or _ _ ihl ihr =>
    intro state hstate
    obtain ⟨middle, hmiddle, hleft⟩ := ihl state hstate
    obtain ⟨last, hlast, hright⟩ := ihr 19 (Or.inl rfl)
    have hlogical : next middle .logical = some 19 := by rcases hmiddle with rfl | rfl <;> rfl
    refine ⟨last, hlast, ?_⟩
    rw [List.map_append, List.map_append, run_append, hleft, List.map_cons, List.map_cons, Option.bind_some, run_cons]
    simp only [parsed, hlogical, Option.bind_some, hright]

theorem Derives.condition {queue : List Token} {φ : Formula} (h : Derives .expression queue φ) :
    (queue.map parsed).map Prod.snd ∈ Query.condition := by
  obtain ⟨last, hlast, hrun⟩ := h.run 19 (Or.inl rfl)
  refine condition_eq ▸ (run_next_iff _ 19).2 ⟨last, hrun, ?_⟩
  rcases hlast with rfl | rfl
  · decide
  · decide

end Query

namespace Storage

open Query

/-- Identifiers other than keywords are operands. -/
theorem operand_of_identifier {word : Bytes} (hid : isIdentifier word = true) (hword : word ∉ keywords) : Operand word := by
  have hnone : ∀ text ∈ relationalTexts ++ [ascii "(", ascii ")"], isIdentifier text = false := by decide
  have hkeywords : ∀ text ∈ [ascii "and", ascii "or", ascii "where"], text ∈ keywords := by decide
  constructor
  · intro hmem
    simp only [List.mem_append, List.mem_cons, List.not_mem_nil, or_false] at hmem
    rcases hmem with hmem | rfl | rfl | rfl | rfl
    · exact absurd (hid.symm.trans (hnone word (List.mem_append_left _ hmem))) (by decide)
    · exact absurd (hid.symm.trans (hnone _ (by decide))) (by decide)
    · exact absurd (hid.symm.trans (hnone _ (by decide))) (by decide)
    · exact hword (hkeywords _ (by decide))
    · exact hword (hkeywords _ (by decide))
  · rintro rfl
    exact hword (hkeywords _ (by decide))

theorem forM_of_all {α : Type} {f : α → Except StorageError Unit} : ∀ {l : List α}, (∀ a ∈ l, f a = .ok ()) →
    l.forM f = .ok ()
  | [], _ => rfl
  | a :: l, h => by
    have hrest := forM_of_all (fun b hb => h b (List.mem_cons_of_mem a hb))
    exact except_bind_ok.2 ⟨(), h a List.mem_cons_self, hrest⟩

theorem validateProjection_known {table : Table} {files : Files} (h : table.Valid files) {fields : List Bytes}
    (hknown : ∀ name ∈ fields, name ∈ table.fieldNames) : table.validateProjection fields = .ok () := by
  unfold Table.validateProjection
  split_ifs
  · rfl
  · exact forM_of_all (fun name hname => throwIf_neg (by simp [(h.contains name).2 (hknown name hname)]))

/-- **A select by the postfix form of a formula** returns the records that satisfy it. -/
theorem select_formula {table : Table} {files : Files} (h : table.Valid files) {selected : List Bytes}
    (hvalid : table.validateProjection selected = .ok ()) {φ : Formula} (hover : φ.Over table.fieldNames) :
    ∃ result table', table.select selected φ.toPostfix files = ⟨[], .ok (result, table')⟩ ∧
      ∀ record, record ∈ result.recordIndices ↔
        ∃ row, table.storedRows[record]? = some row ∧ φ.holds table.fieldNames row = true := by
  have hselected : ({ table with selectedFields := chosenFields table.fieldNames selected } : Table).Valid files :=
    ⟨h.nodup, h.names_at, h.arity, h.count, h.on_file, h.in_cache⟩
  have hne : φ.toPostfix ≠ [] := by
    cases φ with
    | compare field operation value => exact List.cons_ne_nil _ _
    | and left right => simp [Formula.toPostfix]
    | or left right => simp [Formula.toPostfix]
  obtain ⟨records, cache, hselects, hcached, hrun⟩ := evalLoop_formula hselected hover [] [] []
  have heval : Table.eval { table with selectedFields := chosenFields table.fieldNames selected } φ.toPostfix files =
      ⟨[], .ok (records, { table with selectedFields := chosenFields table.fieldNames selected, cache := cache })⟩ := by
    rw [List.append_nil] at hrun
    rw [Table.eval, hrun, Table.evalLoop]
    rfl
  obtain ⟨result, table', hresult, hrecords⟩ := select_records hvalid ((congrFun (if_pos hne) files).trans heval) hcached
    (fun r hr => by
      obtain ⟨row, hrow, -⟩ := (hselects.mem r).1 hr
      exact lt_of_getElem?_some hrow)
  exact ⟨result, table', hresult, hrecords ▸ hselects.mem⟩

/-- The texts that no value may have: the condition takes them for something else. -/
def reserved : List Bytes := relationalTexts ++ [ascii "(", ascii ")", ascii "and", ascii "or"] ++ [ascii "where"]

theorem operand_iff (text : Bytes) : Operand text ↔ text ∉ reserved := by
  rw [Operand, Plain, reserved, List.mem_append (t := [ascii "where"]), List.mem_singleton, not_or]

section
variable {cmd : Bytes} {selected : Selected} {tableName : SToken} {queue : List Token} {φ : Formula}
  (htokens : tokenize cmd = some (selectInput selected tableName (queue.map parsed)))
  (hqueue : Derives .expression queue φ)
include htokens hqueue

/-- A select that returns has read its values as operands. -/
theorem values_operands {files files' : Files} {sql : SQL} (hcommand : SQL.command cmd files = some (sql, files'))
    (hok : sql.error = false) : ∀ value ∈ φ.values, Operand value := by
  intro value hvalue
  have hfront : .where_ ∉ (selected.tokens ++ [keyword (ascii "from") .from_, (tableName, .literal)]).map Prod.snd := by
    cases selected with
    | all => simp [Selected.tokens, keyword]
    | names first rest =>
      rw [Selected.tokens, separated, List.map_append, List.map_cons, List.map_flatMap]
      simp [keyword]
  obtain ⟨hoperands, -⟩ := command_evaluated htokens hcommand hok hfront hqueue.condition
  exact hoperands _ (List.mem_map_of_mem ((hqueue.operand value).2 (Or.inr hvalue))) rfl

/-- A select whose literals are operands returns the records that satisfy its condition. -/
theorem operands_answered (hid : isIdentifier tableName.tokenStr = true) {files : Files} {es : List FileEffect}
    {table : Table}
    (hload : Table.load tableName.tokenStr files = ⟨es, .ok table⟩)
    (hselected : selected = .all ∨ ∀ name ∈ selected.texts, name ∈ table.fieldNames)
    (hfields : ∀ field ∈ φ.fields, field ∈ table.fieldNames)
    (hoperands : ∀ text, Token.tokenStr text ∈ queue → Operand text) :
    ∃ sql files', SQL.command cmd files = some (sql, files') ∧ sql.error = false ∧ ∀ record,
      record ∈ sql.table.recordIndices ↔
        ∃ row, table.storedRows[record]? = some row ∧ φ.holds table.fieldNames row = true := by
  have hclause := hqueue.condition
  have hvalid := (load_valid hload).1
  obtain ⟨hcommand, hname, htexts, hcondition, -⟩ := select_tree htokens hclause
  have htyped : ∀ token ∈ queue.map parsed, Typed token := fun token htoken => tokenize_typed htokens token
    (List.mem_append_right _ (List.mem_cons_of_mem _ htoken))
  have htypes : ∀ token ∈ queue.map parsed, token.2 ∈ conditionTypes := fun token htoken =>
    (condition_count hclause).1 _ (List.mem_map_of_mem htoken)
  have hliterals : ∀ token ∈ queue.map parsed, token.2 = .literal → Operand token.1.tokenStr := by
    intro token htoken htype
    obtain ⟨operand, hoperand, rfl⟩ := List.mem_map.1 htoken
    cases operand with
    | tokenStr s => exact hoperands s hoperand
    | _ => cases htype
  have hretyped : ((parseTree cmd).get (ascii "condition")).map Table.allocateToken = queue := by
    rw [hcondition]
    exact (retyped_eq htyped htypes hliterals).trans (tokenOf_parsed queue)
  have hnamed : Names (parseTree cmd) tableName.tokenStr (ascii "select") := ⟨by rw [hname]; rfl, by rw [hcommand]; rfl⟩
  have hne : (parseTree cmd).get (ascii "fields") ≠ [] := by
    rw [htexts]
    cases selected with
    | all => exact List.cons_ne_nil _ _
    | names first rest => exact List.cons_ne_nil _ _
  have hasked : ∀ name ∈ asked (parseTree cmd) table, name ∈ table.fieldNames := by
    rw [asked, htexts]
    split_ifs with hstar
    · exact fun name hname => hname
    · rcases hselected with rfl | hknown
      · exact absurd rfl hstar
      · exact hknown
  obtain ⟨result, table', hresult, hrecords⟩ := select_formula hvalid (validateProjection_known hvalid hasked)
    (hqueue.over hfields)
  have hanswers : Answers (parseTree cmd) files table φ.toPostfix result :=
    ⟨tableName.tokenStr, es, [], table', hnamed.1, hload, by rw [hretyped]; exact toPostfix_derives hqueue, hresult⟩
  have hwhere : .where_ ∈ (selected.tokens ++ [keyword (ascii "from") .from_, (tableName, .literal)] ++
      keyword (ascii "where") .where_ :: queue.map parsed).map Prod.snd :=
    List.mem_map_of_mem (List.mem_append_right _ List.mem_cons_self)
  obtain ⟨sql, files', hsql, hok, htable, -⟩ := answers_command htokens hwhere hnamed hid hne hanswers
  exact ⟨sql, files', hsql, hok, fun record => by rw [htable]; exact hrecords record⟩

end

/-- **Quoted values are data, unless** their texts are those of an operator, a parenthesis or `where`: any other select with a
well-formed condition over the fields of its table returns the records that satisfy it, and one with such a value does
not. -/
theorem command_quoted_iff {cmd : Bytes} {selected : Selected} {tableName : SToken} {queue : List Token} {φ : Formula}
    (htext : Spelled cmd (selectInput selected tableName (queue.map parsed))) (hqueue : Derives .expression queue φ)
    (hid : isIdentifier tableName.tokenStr = true) {files : Files} {es : List FileEffect} {table : Table}
    (hload : Table.load tableName.tokenStr files = ⟨es, .ok table⟩)
    (hselected : selected = .all ∨ ∀ name ∈ selected.texts, name ∈ table.fieldNames)
    (hfields : ∀ field ∈ φ.fields, field ∈ table.fieldNames ∧ isIdentifier field = true ∧ field ∉ keywords) :
    (∃ sql files', SQL.command cmd files = some (sql, files') ∧ sql.error = false ∧ ∀ record,
      record ∈ sql.table.recordIndices ↔
        ∃ row, table.storedRows[record]? = some row ∧ φ.holds table.fieldNames row = true) ↔
    ∀ value ∈ φ.values, value ∉ reserved := by
  have htokens := htext.tokenize
  constructor
  · rintro ⟨sql, files', hcommand, hok, -⟩ value hvalue
    exact (operand_iff value).1 (values_operands htokens hqueue hcommand hok value hvalue)
  · intro hvalues
    refine operands_answered htokens hqueue hid hload hselected (fun field hfield => (hfields field hfield).1)
      (fun s hs => ?_)
    rcases (hqueue.operand s).1 hs with hfield | hvalue
    · exact operand_of_identifier (hfields s hfield).2.1 (hfields s hfield).2.2
    · exact (operand_iff s).2 (hvalues s hvalue)

/-- `select * from t where a = "…"`. -/
theorem spelled_equal {value : Bytes} (hquote : quoteByte ∉ value) (hnul : 0 ∉ value) :
    Spelled (ascii "select * from t where a = " ++ quoted value) (selectInput .all ⟨ascii "t", .alpha⟩
      ([.tokenStr (ascii "a"), .relational (ascii "="), .tokenStr value].map parsed)) := by
  have htext : ascii "select * from t where a = " ++ quoted value = ascii "select" ++
    32 :: 42 :: 32 :: (ascii "from" ++ 32 ::
      (ascii "t" ++ 32 :: (ascii "where" ++ 32 :: (ascii "a" ++ 32 :: (ascii "=" ++ 32 :: (quoted value ++ [])))))) := by
    have hfront : ascii "select * from t where a = " = ascii "select" ++ 32 :: 42 :: 32 :: (ascii "from" ++ 32 ::
      (ascii "t" ++ 32 :: (ascii "where" ++ 32 :: (ascii "a" ++ 32 :: (ascii "=" ++ [32]))))) := by decide
    rw [hfront, List.append_nil]
    simp only [List.append_assoc, List.cons_append, List.nil_append]
  have hspace : ∀ rest : Bytes, ∀ b ∈ (32 :: rest).head?, isWord b = false := fun rest b hb => by
    obtain rfl := Option.some.inj hb
    decide
  have hspace' : ∀ rest : Bytes, ∀ b ∈ (32 :: rest).head?, isOperator b = false := fun rest b hb => by
    obtain rfl := Option.some.inj hb
    decide
  rw [htext]
  refine .word (by decide) (by decide) (hspace _) (.blank (by decide) (.star (.blank (by decide) ?_)))
  refine .word (by decide) (by decide) (hspace _) (.blank (by decide) ?_)
  refine .word (by decide) (by decide) (hspace _) (.blank (by decide) ?_)
  refine .word (by decide) (by decide) (hspace _) (.blank (by decide) ?_)
  refine .word (by decide) (by decide) (hspace _) (.blank (by decide) ?_)
  exact .operator (by decide) (hspace' _) (.blank (by decide) (.quoted hquote hnul .done))

theorem derives_equal (value : Bytes) : Derives .expression [.tokenStr (ascii "a"), .relational (ascii "="), .tokenStr value]
    (.compare (ascii "a") (ascii "=") value) := .term (.factor (.compare _ _ (by decide)))

/-- `where a = "and"` is refused. -/
theorem command_reserved : ∃ queue φ, Spelled (ascii "select * from t where a = " ++ quoted (ascii "and"))
      (selectInput .all ⟨ascii "t", .alpha⟩ (queue.map parsed)) ∧ Derives .expression queue φ ∧
    Table.load (ascii "t") oneLegacy = ⟨[], .ok (Table.filled (ascii "t") [ascii "a"] [[ascii "x"]])⟩ ∧
    (∀ field ∈ φ.fields, field ∈ [ascii "a"]) ∧
    ¬ ∃ sql files', SQL.command (ascii "select * from t where a = " ++ quoted (ascii "and")) oneLegacy = some (sql, files') ∧
      sql.error = false := by
  have hspelled := spelled_equal (by decide : quoteByte ∉ ascii "and") (by decide)
  refine ⟨_, _, hspelled, derives_equal (ascii "and"), load_oneLegacy, by decide, ?_⟩
  rintro ⟨sql, files', hcommand, hok⟩
  exact absurd (values_operands hspelled.tokenize (derives_equal _) hcommand hok (ascii "and") (by decide)) (by decide)

/-- An operator between words is no operator. -/
theorem command_quoted_iff_words : ∃ sql files',
    SQL.command (ascii "select * from t where a = " ++ quoted (ascii "x and (y)")) oneLegacy = some (sql, files') ∧
    sql.error = false ∧ ∀ record, record ∈ sql.table.recordIndices ↔ ∃ row, [[ascii "x"]][record]? = some row ∧
      (Formula.compare (ascii "a") (ascii "=") (ascii "x and (y)")).holds [ascii "a"] row = true :=
  (command_quoted_iff (spelled_equal (by decide) (by decide)) (derives_equal (ascii "x and (y)")) (by decide)
    load_oneLegacy (Or.inl rfl) (by decide)).2 (by decide)

end Storage
end Sql
