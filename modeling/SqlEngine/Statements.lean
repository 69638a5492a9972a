import SqlEngine.Lexemes
import SqlEngine.Grammar
import SqlEngine.Command
/-!
# Statements — from the text of a statement to its tree

What quoted values come through as: an insert keeps every one of them (`insert_roundTrip`), and the condition of a select
keeps all its tokens unless one of them has the text `where` (`select_condition_iff`).
-/
namespace Sql
namespace Query

open Wire Maps Languages

/-! ## Words and quoted values -/

def keywords : List Bytes :=
  [ascii "create", ascii "table", ascii "fields", ascii "insert", ascii "into", ascii "values", ascii "select", ascii "from",
    ascii "where", ascii "or", ascii "and"]

/-- A value in double quotes. -/
def quoted (value : Bytes) : Bytes := quoteByte :: (value ++ [quoteByte])

section
open Storage (isAlpha isAlnum isIdentifier)

theorem isLetter_of_isAlpha {t : UInt8} (h : isAlpha t = true ∨ t = 95) : isLetter t = true := by
  simpa only [isAlpha, isLetter, decide_eq_true_eq, or_assoc] using h

theorem isWord_of_isAlnum {t : UInt8} (h : isAlnum t = true ∨ t = 95) : isWord t = true := by
  simp only [isAlnum, isAlpha, decide_eq_true_eq] at h
  simp only [isWord, isLetter, isDigit, Bool.or_eq_true, decide_eq_true_eq]
  rcases h with (h | h) | h
  · exact Or.inl (h.imp_right Or.inl)
  · exact Or.inr h
  · exact Or.inl (Or.inr (Or.inr h))

theorem isWord_ne_zero {t : UInt8} (h : isWord t = true) : t ≠ 0 := by
  rintro rfl
  revert h
  decide

theorem isIdentifier_bytes {word : Bytes} (hid : isIdentifier word = true) : ∀ t ∈ word, isWord t = true := by
  intro t ht
  cases word with
  | nil => cases ht
  | cons first rest =>
    rw [isIdentifier, decide_eq_true_eq] at hid
    exact isWord_of_isAlnum (of_decide_eq_true (List.all_eq_true.1 hid.2 t ht))

theorem tokens_space (rest : Bytes) : tokens (32 :: rest) = ⟨[32], .space⟩ :: tokens rest := by
  have hblank : getToken 32 rest = (⟨[32], .space⟩, rest) := by
    rw [getToken, tokenTable_start (by decide)]
    rfl
  rw [tokens_cons, hblank]

/-- In front of a space an identifier is one token. -/
theorem tokens_word {word : Bytes} (hid : isIdentifier word = true) (rest : Bytes) :
    tokens (word ++ 32 :: rest) = ⟨word, .alpha⟩ :: ⟨[32], .space⟩ :: tokens rest := by
  have hbytes := isIdentifier_bytes hid
  cases word with
  | nil => cases hid
  | cons first word =>
    rw [isIdentifier, decide_eq_true_eq] at hid
    have hfirst : tokenTable 0 first.toNat = some 1 := by
      rw [tokenTable_start (isWord_ne_zero (hbytes first List.mem_cons_self)), if_pos (isLetter_of_isAlpha hid.1)]
    have hspace : tokenTable 1 (32 : UInt8).toNat ≠ some 1 := mt (tokenTable_word (by decide)).1 (by decide)
    have hrun : takeToken 1 (word ++ 32 :: rest) = (word, 32 :: rest) :=
      takeToken_run (Or.inl rfl) (fun t ht => by
        obtain rfl := Option.some.inj ht
        exact ⟨hspace, by decide⟩) (fun t ht => by
          have hword := hbytes t (List.mem_cons_of_mem first ht)
          exact (tokenTable_word (isWord_ne_zero hword)).2 hword)
    have htoken : getToken first (word ++ 32 :: rest) = (⟨first :: word, .alpha⟩, 32 :: rest) := by
      rw [getToken, hfirst]
      simp only
      rw [if_neg (by decide), hrun]
      rfl
    rw [List.cons_append, tokens_cons, htoken, tokens_space]

/-- Outside quotes a token is read as its type. -/
theorem tokenizeLoop_cons {current : SToken} {type : Ptype} (hquote : current.tokenStr ≠ [quoteByte])
    (htype : classifyUnquotedToken current = some type) (ts : List SToken) : tokenizeLoop none (current :: ts) =
      (tokenizeLoop none ts).map (fun input => (current, type) :: input) := by
  have hspace : current.type ≠ .space := fun h => by
    rw [classifyUnquotedToken, h] at htype
    cases htype
  rw [tokenizeLoop, if_neg hquote, if_neg hspace, htype]

/-- A word is read as its type. -/
theorem tokenizeLoop_word {word : Bytes} (hid : isIdentifier word = true) {type : Ptype}
    (htype : classifyUnquotedToken ⟨word, .alpha⟩ = some type) (rest : Bytes) :
    tokenizeLoop none (tokens (word ++ 32 :: rest)) =
      (tokenizeLoop none (tokens rest)).map (fun input => (⟨word, .alpha⟩, type) :: input) := by
  have hquote : word ≠ [quoteByte] := fun h => by
    rw [h] at hid
    revert hid
    decide
  rw [tokens_word hid, tokenizeLoop_cons hquote htype, tokenizeLoop, if_neg (by decide), if_pos rfl]

/-- What is no keyword is a literal. -/
theorem classify_literal {word : Bytes} (h : word ∉ keywords) :
    classifyUnquotedToken ⟨word, .alpha⟩ = some .literal := by
  simp only [keywords, List.mem_cons, List.not_mem_nil, or_false, not_or] at h
  obtain ⟨hcreate, htable, hfields, hinsert, hinto, hvalues, hselect, hfrom, hwhere, hor, hand⟩ := h
  rw [classifyUnquotedToken]
  simp only
  rw [if_neg hcreate, if_neg htable, if_neg hfields, if_neg hinsert, if_neg hinto, if_neg hvalues, if_neg hselect,
    if_neg hfrom, if_neg hwhere, if_neg (not_or.2 ⟨hor, hand⟩)]

end

/-- Inside quotes the texts are put together. -/
theorem tokenizeLoop_open (rest : List SToken) : ∀ {ts : List SToken} {quotedLiteral : Bytes},
    (∀ current ∈ ts, current.tokenStr ≠ [quoteByte]) →
    tokenizeLoop (some quotedLiteral) (ts ++ ⟨[quoteByte], .unknown⟩ :: rest) = (tokenizeLoop none rest).map (fun input =>
      (⟨quotedLiteral ++ ts.flatMap SToken.tokenStr, .alpha⟩, .literal) :: input)
  | [], quotedLiteral, _ => by
    rw [List.nil_append, tokenizeLoop, if_pos rfl, List.flatMap_nil, List.append_nil]
  | current :: ts, quotedLiteral, h => by
    rw [List.cons_append, tokenizeLoop, if_neg (h current List.mem_cons_self),
      tokenizeLoop_open rest (fun u hu => h u (List.mem_cons_of_mem current hu)), List.flatMap_cons, List.append_assoc]

/-- **A quoted value is one literal**, however the tokenizer cuts it. -/
theorem tokenizeLoop_quoted {value : Bytes} (hvalue : quoteByte ∉ value) (rest : Bytes) :
    tokenizeLoop none (tokens (quoted value ++ rest)) =
      (tokenizeLoop none (tokens rest)).map (fun input => (⟨value, .alpha⟩, .literal) :: input) := by
  obtain ⟨ts, hts, htexts⟩ := tokens_quote rest hvalue
  have hopen : tokens (quoted value ++ rest) = ⟨[quoteByte], .unknown⟩ ::
    (ts ++ ⟨[quoteByte], .unknown⟩ :: tokens rest) := by
    rw [quoted, List.cons_append, List.append_assoc, tokens_cons, getToken, tokenTable_quote 0 (by decide)]
    simp only
    rw [List.singleton_append, hts]
  have hinside : ∀ current ∈ ts, current.tokenStr ≠ [quoteByte] := fun current hcurrent heq => hvalue (by
    rw [← htexts, List.mem_flatMap]
    exact ⟨current, hcurrent, heq ▸ List.mem_singleton_self _⟩)
  rw [hopen, tokenizeLoop, if_pos rfl, tokenizeLoop_open _ hinside, htexts, List.nil_append]

theorem tokenizeLoop_comma (rest : Bytes) : tokenizeLoop none (tokens (ascii ", " ++ rest)) =
    (tokenizeLoop none (tokens rest)).map (fun input => (⟨ascii ",", .comma⟩, .commas) :: input) := by
  have hcomma : getToken 44 (32 :: rest) = (⟨ascii ",", .comma⟩, 32 :: rest) := by
    rw [getToken, tokenTable_start (by decide)]
    rfl
  have htext : ascii ", " ++ rest = 44 :: 32 :: rest := rfl
  have hquote : ascii "," ≠ [quoteByte] := by decide
  have htype : classifyUnquotedToken ⟨ascii ",", .comma⟩ = some .commas := by decide
  rw [htext, tokens_cons, hcomma, tokens_space, tokenizeLoop_cons hquote htype, tokenizeLoop, if_neg (by decide), if_pos rfl]

/-! ## Lists and their states -/

/-- `L (, L)*`. -/
def separated (first : SToken) (rest : List SToken) : List (SToken × Ptype) :=
  (first, .literal) :: rest.flatMap (fun token => [(⟨ascii ",", .comma⟩, .commas), (token, .literal)])

section
variable {start item comma : Nat} (hitem : parserTable item Ptype.commas.code = some comma)
  (hcomma : parserTable comma Ptype.literal.code = some item)
include hitem hcomma

theorem separated_rest : ∀ rest : List SToken,
    runTable item (rest.flatMap (fun token => [(⟨ascii ",", .comma⟩, .commas), (token, .literal)])) = some item ∧
      entered item (rest.flatMap (fun token => [(⟨ascii ",", .comma⟩, .commas), (token, .literal)])) =
        rest.flatMap (fun token => [(ascii ",", comma), (token.tokenStr, item)])
  | [] => ⟨rfl, rfl⟩
  | token :: rest => by
    obtain ⟨hrun, hentered⟩ := separated_rest rest
    rw [List.flatMap_cons, List.flatMap_cons]
    constructor
    · rw [List.cons_append, List.cons_append, List.nil_append, runTable_cons, hitem, Option.bind_some, runTable_cons, hcomma,
        Option.bind_some, hrun]
    · rw [List.cons_append, List.cons_append, List.nil_append, entered_cons hitem, entered_cons hcomma, hentered]
      rfl

/-- A list goes to and fro between two states. -/
theorem separated_run (hstart : parserTable start Ptype.literal.code = some item) (first : SToken) (rest : List SToken) :
    runTable start (separated first rest) = some item ∧ entered start (separated first rest) =
      (first.tokenStr, item) :: rest.flatMap (fun token => [(ascii ",", comma), (token.tokenStr, item)]) := by
  obtain ⟨hrun, hentered⟩ := separated_rest hitem hcomma rest
  rw [separated, runTable_cons, hstart, entered_cons hstart, hentered]
  exact ⟨hrun, rfl⟩

end

theorem textsAt_list {states : List Nat} {item comma : Nat} (hcomma : comma ∉ states) (first : Bytes) (rest : List SToken) :
    textsAt states ((first, item) :: rest.flatMap (fun token => [(ascii ",", comma), (token.tokenStr, item)])) =
      if item ∈ states then first :: rest.map SToken.tokenStr else [] := by
  have hrest : textsAt states (rest.flatMap (fun token => [(ascii ",", comma), (token.tokenStr, item)])) =
      if item ∈ states then rest.map SToken.tokenStr else [] := by
    induction rest with
    | nil => rw [List.map_nil, ite_self]; rfl
    | cons token rest ih =>
      rw [List.flatMap_cons, textsAt_append, ih, textsAt_cons, if_neg hcomma, textsAt_cons]
      by_cases hitem : item ∈ states
      · simp [hitem, textsAt]
      · simp [hitem, textsAt]
  rw [textsAt_cons, hrest]
  by_cases hitem : item ∈ states
  · simp [hitem]
  · simp [hitem]

theorem textsAt_all {states : List Nat} {entries : List (Bytes × Nat)} (h : ∀ entry ∈ entries, entry.2 ∈ states) :
    textsAt states entries = entries.map Prod.fst := by
  rw [textsAt, List.filter_eq_self.2 (fun entry he => decide_eq_true (h entry he))]

theorem textsAt_none {states : List Nat} {entries : List (Bytes × Nat)} (h : ∀ entry ∈ entries, entry.2 ∉ states) :
    textsAt states entries = [] := by
  rw [textsAt, List.filter_eq_nil_iff.2 (fun entry he hc => h entry he (of_decide_eq_true hc)), List.map_nil]

theorem entered_texts {last : Nat} : ∀ {input : List (SToken × Ptype)} {state : Nat}, runTable state input = some last →
    (entered state input).map Prod.fst = input.map (fun token => token.1.tokenStr)
  | [], _, _ => rfl
  | (token, type) :: input, state, h => by
    rw [runTable_cons] at h
    obtain ⟨next, hnext, hrest⟩ := Option.bind_eq_some_iff.1 h
    rw [entered_cons hnext, List.map_cons, List.map_cons, entered_texts hrest]

/-- A condition stays in its states. -/
theorem entered_condition : ∀ {input : List (SToken × Ptype)} {state : Nat}, state ∈ conditionStates →
    .create ∉ input.map Prod.snd → ∀ entry ∈ entered state input, entry.2 ∈ conditionStates
  | [], _, _, _, _, he => by cases he
  | (token, a) :: input, state, hstate, hplain, entry, he => by
    have hplain' := List.ne_and_not_mem_of_not_mem_cons hplain
    have hlt : state < 25 := by
      have := (mem_conditionStates state).1 hstate
      omega
    rw [entered] at he
    cases hnext : parserTable state a.code with
    | none =>
      rw [hnext] at he
      cases he
    | some t =>
      rw [hnext] at he
      have hall : ∀ state < 25, state ∈ conditionStates →
        (next state a).all (fun t => decide (t ∈ conditionStates)) = true := by
        cases a with
        | _ => decide
      have ht := hall state hlt hstate
      rw [← parserTable_eq hlt hplain'.1.symm, hnext] at ht
      rcases List.mem_cons.1 he with rfl | he
      · exact of_decide_eq_true ht
      · exact entered_condition (of_decide_eq_true ht) hplain'.2 entry he

/-! ## Inserts -/

def keyword (text : Bytes) (type : Ptype) : SToken × Ptype := (⟨text, .alpha⟩, type)

/-- `insert into t values "v", "v", …`. -/
def insertText (tableName : Bytes) (values : List Bytes) : Bytes :=
  ascii "insert into " ++ tableName ++ ascii " values " ++ (ascii ", ").intercalate (values.map quoted)

/-- Its tokens. -/
def insertInput (tableName first : Bytes) (rest : List Bytes) : List (SToken × Ptype) :=
  keyword (ascii "insert") .insert :: keyword (ascii "into") .into :: keyword tableName .literal ::
    keyword (ascii "values") .values :: separated ⟨first, .alpha⟩ (rest.map (fun value => ⟨value, .alpha⟩))

theorem tokenizeLoop_values : ∀ {first : Bytes} {rest : List Bytes}, (∀ value ∈ first :: rest, quoteByte ∉ value) →
    tokenizeLoop none (tokens ((ascii ", ").intercalate ((first :: rest).map quoted))) =
      some (separated ⟨first, .alpha⟩ (rest.map (fun value => ⟨value, .alpha⟩)))
  | first, [], h => by
    rw [List.map_singleton, List.intercalate_singleton, ← List.append_nil (quoted first),
      tokenizeLoop_quoted (h first List.mem_cons_self)]
    rfl
  | first, second :: rest, h => by
    rw [List.map_cons, List.map_cons, List.intercalate_cons_cons, List.append_assoc,
      tokenizeLoop_quoted (h first List.mem_cons_self), tokenizeLoop_comma, ← List.map_cons,
      tokenizeLoop_values (fun value hvalue => h value (List.mem_cons_of_mem first hvalue))]
    rfl

/-- Bytes other than quotes, commas and spaces come from the values. -/
theorem mem_quotedList {b : UInt8} (hquote : b ≠ quoteByte) (hseparator : b ∉ ascii ", ") : ∀ {values : List Bytes},
    b ∈ (ascii ", ").intercalate (values.map quoted) → ∃ value ∈ values, b ∈ value
  | [], h => by cases h
  | first :: rest, h => by
    have hfirst : b ∈ quoted first → ∃ value ∈ first :: rest, b ∈ value := fun hmem => by
      rcases List.mem_append.1 ((List.mem_cons.1 hmem).resolve_left hquote) with hmem | hmem
      · exact ⟨first, List.mem_cons_self, hmem⟩
      · exact absurd (List.mem_singleton.1 hmem) hquote
    cases rest with
    | nil =>
      rw [List.map_singleton, List.intercalate_singleton] at h
      exact hfirst h
    | cons second rest =>
      rw [List.map_cons, List.map_cons, List.intercalate_cons_cons, ← List.map_cons, List.append_assoc, List.mem_append,
        List.mem_append] at h
      rcases h with hmem | hmem | hmem
      · exact hfirst hmem
      · exact absurd hmem hseparator
      · obtain ⟨value, hvalue, hb⟩ := mem_quotedList hquote hseparator hmem
        exact ⟨value, List.mem_cons_of_mem first hvalue, hb⟩

/-- There is no NUL in an insert. -/
theorem cString_insertText {tableName : Bytes} (hid : Storage.isIdentifier tableName = true) {values : List Bytes}
    (hvalues : ∀ value ∈ values, 0 ∉ value) : cString (insertText tableName values) = insertText tableName values := by
  refine cString_eq (fun ht => ?_)
  rw [insertText, List.mem_append, List.mem_append, List.mem_append] at ht
  rcases ht with ((ht | ht) | ht) | ht
  · exact absurd ht (by decide)
  · exact isWord_ne_zero (isIdentifier_bytes hid 0 ht) rfl
  · exact absurd ht (by decide)
  · obtain ⟨value, hvalue, hmem⟩ := mem_quotedList (by decide) (by decide) ht
    exact hvalues value hvalue hmem

theorem tokenize_insertText {tableName : Bytes} (hid : Storage.isIdentifier tableName = true)
    (hname : tableName ∉ keywords) {first : Bytes} {rest : List Bytes}
    (hvalues : ∀ value ∈ first :: rest, quoteByte ∉ value ∧ 0 ∉ value) :
    tokenize (insertText tableName (first :: rest)) = some (insertInput tableName first rest) := by
  have htext : insertText tableName (first :: rest) = ascii "insert" ++ 32 :: (ascii "into" ++ 32 :: (tableName ++ 32 ::
      (ascii "values" ++ 32 :: (ascii ", ").intercalate ((first :: rest).map quoted)))) := by
    have hfront : ascii "insert into " = ascii "insert" ++ 32 :: (ascii "into" ++ [32]) := by decide
    have hback : ascii " values " = 32 :: (ascii "values" ++ [32]) := by decide
    rw [insertText, hfront, hback]
    simp only [List.append_assoc, List.cons_append, List.nil_append]
  rw [tokenize, cString_insertText hid (fun value hvalue => (hvalues value hvalue).2), htext,
    tokenizeLoop_word (by decide) (by decide : _ = some Ptype.insert),
    tokenizeLoop_word (by decide) (by decide : _ = some Ptype.into), tokenizeLoop_word hid (classify_literal hname),
    tokenizeLoop_word (by decide) (by decide : _ = some Ptype.values),
    tokenizeLoop_values (fun value hvalue => (hvalues value hvalue).1)]
  rfl

/-- **An insert keeps its values**: whatever is between the quotes, the tree has it back, in order. -/
theorem insert_roundTrip {tableName : Bytes} (hid : Storage.isIdentifier tableName = true) (hname : tableName ∉ keywords)
    {values : List Bytes} (hne : values ≠ []) (hvalues : ∀ value ∈ values, quoteByte ∉ value ∧ 0 ∉ value) :
    (parseTree (insertText tableName values)).get (ascii "command") = [ascii "insert"] ∧
    (parseTree (insertText tableName values)).get (ascii "table_name") = [tableName] ∧
    (parseTree (insertText tableName values)).get (ascii "values") = values := by
  cases values with
  | nil => exact absurd rfl hne
  | cons first rest =>
    obtain ⟨tree, hholds, hparse⟩ := parse_cons (by rfl : commandOf .insert = some (ascii "insert", 7))
      ⟨ascii "insert", .alpha⟩ (keyword (ascii "into") .into :: keyword tableName .literal ::
        keyword (ascii "values") .values :: separated ⟨first, .alpha⟩ (rest.map (fun value => ⟨value, .alpha⟩)))
    have hinto : parserTable 7 Ptype.into.code = some 8 := by decide
    have hliteral : parserTable 8 Ptype.literal.code = some 9 := by decide
    have hkeyword : parserTable 9 Ptype.values.code = some 10 := by decide
    obtain ⟨hrun, hentered⟩ := @separated_run 10 11 12 (by decide) (by decide) (by decide)
      ⟨first, .alpha⟩ (rest.map (fun value => ⟨value, .alpha⟩))
    have htree : parseTree (insertText tableName (first :: rest)) = tree := by
      rw [parseTree, tokenize_insertText hid hname hvalues, Option.bind_some, insertInput, keyword, hparse, runTable_cons,
        keyword, hinto, Option.bind_some, runTable_cons, keyword, hliteral, Option.bind_some, runTable_cons, keyword,
          hkeyword,
        Option.bind_some, hrun, Option.bind_some, if_pos (by decide)]
      rfl
    rw [keyword, entered_cons hinto, keyword, entered_cons hliteral, keyword, entered_cons hkeyword, hentered] at hholds
    rw [htree]
    refine ⟨hholds.command, ?_, ?_⟩
    · rw [hholds.tableName, textsAt_cons, textsAt_cons, textsAt_cons, textsAt_list (by decide)]
      rfl
    · rw [hholds.values, textsAt_cons, textsAt_cons, textsAt_cons, textsAt_list (by decide),
        List.map_map]
      exact congrArg (List.cons first) (List.map_id rest)

/-- Empty, a keyword with a comma, an operator, digits with dots and what is no ASCII. -/
theorem insert_roundTrip_rooms :
    (parseTree (insertText (ascii "rooms") [[], ascii "where, (and)", ascii ">=", ascii "1.2.", [195, 169]])).get
      (ascii "values") = [[], ascii "where, (and)", ascii ">=", ascii "1.2.", [195, 169]] :=
  (insert_roundTrip (by decide) (by decide) (by decide) (by decide)).2.2

/-! ## Selects -/

/-- `*` or names. -/
inductive Selected where
  | all
  | names (first : SToken) (rest : List SToken)

def Selected.tokens : Selected → List (SToken × Ptype)
  | all => [(⟨ascii "*", .star⟩, .asterisk)]
  | names first rest => separated first rest

def Selected.texts : Selected → List Bytes
  | all => [ascii "*"]
  | names first rest => first.tokenStr :: rest.map SToken.tokenStr

/-- The tokens of a select up to the name of its table. -/
def selectFront (selected : Selected) (tableName : SToken) : List (SToken × Ptype) :=
  keyword (ascii "select") .select :: (selected.tokens ++ [keyword (ascii "from") .from_, (tableName, .literal)])

/-- The tokens of a select with a condition. -/
def selectInput (selected : Selected) (tableName : SToken) (clause : List (SToken × Ptype)) : List (SToken × Ptype) :=
  selectFront selected tableName ++ keyword (ascii "where") .where_ :: clause

theorem selected_run (selected : Selected) : ∃ last, runTable 13 selected.tokens = some last ∧
    parserTable last Ptype.from_.code = some 17 ∧
    textsAt [3, 9, 18] (entered 13 selected.tokens) = [] ∧ textsAt [5, 16, 14]
      (entered 13 selected.tokens) = selected.texts ∧
    textsAt [11] (entered 13 selected.tokens) = [] ∧ textsAt conditionStates (entered 13 selected.tokens) = [] := by
  cases selected with
  | all => exact ⟨16, by decide, by decide, by decide, by decide, by decide,
      by decide⟩
  | names first rest =>
    obtain ⟨hrun, hentered⟩ := @separated_run 13 14 15 (by decide) (by decide) (by decide) first rest
    refine ⟨14, hrun, by decide, ?_⟩
    rw [Selected.tokens, hentered, textsAt_list (by decide), textsAt_list (by decide), textsAt_list (by decide),
      textsAt_list (by decide)]
    exact ⟨rfl, rfl, rfl, rfl⟩

/-- The run of a select up to its condition. -/
theorem selectFront_run (selected : Selected) (tableName : SToken) (rest : List (SToken × Ptype)) :
    ∃ entries, textsAt [3, 9, 18] entries = [tableName.tokenStr] ∧ textsAt [5, 16, 14] entries = selected.texts ∧
      textsAt [11] entries = [] ∧ textsAt conditionStates entries = [] ∧
      runTable 13 (selected.tokens ++ [keyword (ascii "from") .from_, (tableName, .literal)] ++ rest) = runTable 18 rest ∧
      entered 13 (selected.tokens ++ [keyword (ascii "from") .from_, (tableName, .literal)] ++ rest) =
        entries ++ entered 18 rest := by
  obtain ⟨last, hrun, hfrom, hnames, hfields, hvalues, hcondition⟩ := selected_run selected
  have hname : parserTable 17 Ptype.literal.code = some 18 := by decide
  have hrun17 : runTable last [keyword (ascii "from") .from_, (tableName, .literal)] = some 18 := by
    rw [runTable_cons, keyword, hfrom, Option.bind_some, runTable_cons, hname]
    rfl
  have hfront : runTable 13 (selected.tokens ++ [keyword (ascii "from") .from_, (tableName, .literal)]) = some 18 := by
    rw [runTable_append, hrun, Option.bind_some, hrun17]
  refine ⟨entered 13 selected.tokens ++ [(ascii "from", 17), (tableName.tokenStr, 18)], ?_, ?_, ?_, ?_, ?_, ?_⟩
  · rw [textsAt_append, hnames]
    rfl
  · rw [textsAt_append, hfields]
    exact List.append_nil _
  · rw [textsAt_append, hvalues]
    rfl
  · rw [textsAt_append, hcondition]
    rfl
  · rw [runTable_append, hfront, Option.bind_some]
  · rw [entered_append _ hfront, entered_append _ hrun, keyword, entered_cons hfrom, entered_cons hname]
    rfl

/-- The tree of a select with a condition. -/
theorem select_tree {cmd : Bytes} {selected : Selected} {tableName : SToken} {clause : List (SToken × Ptype)}
    (htokens : tokenize cmd = some (selectInput selected tableName clause))
    (hclause : clause.map Prod.snd ∈ condition) :
    (parseTree cmd).get (ascii "command") = [ascii "select"] ∧
    (parseTree cmd).get (ascii "table_name") = [tableName.tokenStr] ∧
    (parseTree cmd).get (ascii "fields") = selected.texts ∧
    (parseTree cmd).get (ascii "condition") =
      (clause.map (fun token => token.1.tokenStr)).filter (fun text => decide (text ≠ ascii "where")) ∧
    (parseTree cmd).contains (ascii "where") = true := by
  have hwhere : parserTable 18 Ptype.where_.code = some 19 := by decide
  have hmem : clause.map Prod.snd ∈ follows 19 := condition_eq ▸ hclause
  have hplain := create_not_mem_follows hmem
  obtain ⟨last, hrun, hends⟩ := (run_next_iff _ _).1 hmem
  rw [← run_tableStep (by decide) hplain, ← runTable_types] at hrun
  obtain ⟨entries, hnames, hfields, hvalues, hcondition, hfront, hentered⟩ :=
    selectFront_run selected tableName (keyword (ascii "where") .where_ :: clause)
  have hrest : runTable 18 (keyword (ascii "where") .where_ :: clause) = some last := by
    rw [runTable_cons, keyword, hwhere, Option.bind_some, hrun]
  have hstates := entered_condition (by decide : 19 ∈ conditionStates) hplain
  have hother : ∀ states : List Nat, (∀ s ∈ conditionStates, s ∉ states) →
      textsAt states ((ascii "where", 19) :: entered 19 clause) = [] := fun states h => textsAt_none (fun entry he => by
    rcases List.mem_cons.1 he with rfl | he
    · exact h 19 (by decide)
    · exact h _ (hstates entry he))
  obtain ⟨tree, hholds, hparse⟩ := parse_cons (by rfl : commandOf .select = some (ascii "select", 13))
    ⟨ascii "select", .alpha⟩ (selected.tokens ++ [keyword (ascii "from") .from_, (tableName, .literal)] ++
      keyword (ascii "where") .where_ :: clause)
  have hfinal : Final last := List.mem_cons_of_mem 0 hends
  have htree : parseTree cmd = tree := by
    rw [parseTree, htokens, Option.bind_some, selectInput, selectFront, List.cons_append, keyword, hparse, hfront, hrest,
      Option.bind_some, if_pos hfinal]
    rfl
  rw [hentered, keyword, entered_cons hwhere] at hholds
  rw [htree]
  refine ⟨hholds.command, ?_, ?_, ?_, ?_⟩
  · rw [hholds.tableName, textsAt_append, hnames, hother _ (by decide), List.append_nil]
  · rw [hholds.fields, textsAt_append, hfields, hother _ (by decide), List.append_nil]
  · rw [hholds.condition, textsAt_append, hcondition, List.nil_append, textsAt_cons, if_pos (by decide),
      textsAt_all hstates, entered_texts hrun]
    rfl
  · rw [hholds.contains_where, List.map_append]
    exact List.mem_append_right _ List.mem_cons_self

/-- **The tree of a select keeps every token of its condition, unless one of them has the text `where`.** -/
theorem select_condition_iff {cmd : Bytes} {selected : Selected} {tableName : SToken} {clause : List (SToken × Ptype)}
    (htokens : tokenize cmd = some (selectInput selected tableName clause))
    (hclause : clause.map Prod.snd ∈ condition) :
    ((parseTree cmd).get (ascii "condition") = clause.map (fun token => token.1.tokenStr) ∧
      (parseTree cmd).get (ascii "fields") = selected.texts ∧
      (parseTree cmd).get (ascii "table_name") = [tableName.tokenStr]) ↔
    ∀ token ∈ clause, token.1.tokenStr ≠ ascii "where" := by
  obtain ⟨-, hname, hfields, hcondition, -⟩ := select_tree htokens hclause
  rw [hname, hfields, hcondition, List.filter_eq_self, List.forall_mem_map]
  simp only [decide_eq_true_eq, and_true]

/-- `where a = "where"` loses its value. -/
theorem select_condition_where : ∃ clause, tokenize (ascii "select * from t where a = \"where\"") =
      some (selectInput .all ⟨ascii "t", .alpha⟩ clause) ∧ clause.map Prod.snd ∈ condition ∧
    clause.map (fun token => token.1.tokenStr) = [ascii "a", ascii "=", ascii "where"] ∧
    (parseTree (ascii "select * from t where a = \"where\"")).get (ascii "condition") = [ascii "a", ascii "="] := by
  refine ⟨[(⟨ascii "a", .alpha⟩, .literal), (⟨ascii "=", .operator⟩, .relational), (⟨ascii "where", .alpha⟩, .literal)],
    by decide +kernel, ?_, rfl, by decide +kernel⟩
  rw [condition_eq, run_next_iff]
  exact ⟨23, by decide, by decide⟩

theorem select_condition_iff_label :
    (parseTree (ascii "select name from rooms where (label = \"Room 101, West\")")).get (ascii "condition") =
      [ascii "(", ascii "label", ascii "=", ascii "Room 101, West", ascii ")"] := by
  have htokens : tokenize (ascii "select name from rooms where (label = \"Room 101, West\")") =
      some (selectInput (.names ⟨ascii "name", .alpha⟩ []) ⟨ascii "rooms", .alpha⟩ [(⟨ascii "(", .paren⟩, .parens),
        (⟨ascii "label", .alpha⟩, .literal), (⟨ascii "=", .operator⟩, .relational),
        (⟨ascii "Room 101, West", .alpha⟩, .literal), (⟨ascii ")", .paren⟩, .parens)]) := by decide +kernel
  refine ((select_condition_iff htokens ?_).2 (by decide)).1
  rw [condition_eq, run_next_iff]
  exact ⟨24, by decide, by decide⟩

end Query
end Sql
