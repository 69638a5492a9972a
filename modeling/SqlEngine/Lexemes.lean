import SqlEngine.Tokenizer
/-!
# Lexemes — how far a token reaches

The token at the front of a text, said by classes of bytes and without the tables (`lexeme`): it is what `get_token` takes
(`getToken_lexeme`), at every position of every text (`tokens_maximal`).  A token that ends where a text is cut is not
changed by the cut (`tokens_cut`).
-/
namespace Sql
namespace Query

open Wire

/-! ## Classes of bytes -/

/-- A letter or an underscore. -/
def isLetter (b : UInt8) : Bool := (65 ≤ b ∧ b ≤ 90) ∨ (97 ≤ b ∧ b ≤ 122) ∨ b = 95

def isDigit (b : UInt8) : Bool := 48 ≤ b ∧ b ≤ 57

def isOperator (b : UInt8) : Bool := b = 62 ∨ b = 60 ∨ b = 61 ∨ b = 33

def isWord (b : UInt8) : Bool := isLetter b || isDigit b

/-- The type of a byte that is a token of its own. -/
def symbol (b : UInt8) : TokenType :=
  if b = 44 then .comma
  else if b = 32 ∨ b = 9 ∨ b = 10 then .space
  else if b = 40 ∨ b = 41 then .paren
  else if b = 42 then .star
  else .unknown

/-- A dot with digits behind it. -/
def fraction : Bytes → Bytes
  | dot :: digit :: rest => if dot = 46 ∧ isDigit digit then dot :: digit :: rest.takeWhile isDigit else []
  | _ => []

/-- The token at the front of a text. -/
def lexeme (t : UInt8) (rest : Bytes) : SToken :=
  if isLetter t then ⟨t :: rest.takeWhile isWord, .alpha⟩
  else if isDigit t then ⟨t :: (rest.takeWhile isDigit ++ fraction (rest.dropWhile isDigit)), .number⟩
  else if isOperator t then ⟨t :: rest.takeWhile isOperator, .operator⟩
  else ⟨[t], symbol t⟩

/-! ## The tables by classes

Column 0 has the flags of success, and that of state 1 reads like a letter: a NUL has no class. -/

theorem toNat_ne_zero {t : UInt8} (hne : t ≠ 0) : t.toNat ≠ 0 := fun h => hne (UInt8.toNat_inj.1 h)

theorem tokenTable_eq (state : Nat) {t : UInt8} (hne : t ≠ 0) : tokenTable state t.toNat =
    if state = 3 ∧ t ∈ operators then some 3
    else if state = 2 ∧ t ∈ digits then some 2
    else if state = 1 ∧ t ∈ alphas then some 1
    else if state = 0 ∧ t ∈ star then some 7
    else if state = 0 ∧ t ∈ paren then some 6
    else if state = 0 ∧ t ∈ spaces then some 5
    else if state = 0 ∧ t ∈ comma then some 4
    else if state = 0 ∧ t ∈ operators then some 3
    else if state = 0 ∧ t ∈ digits then some 2
    else if state = 0 ∧ t ∈ alphas then some 1
    else none := by
  have hflags : [1, 2, 3, 4, 5, 6, 7].foldl markSuccess (markFail initTable 0) state t.toNat = none := by
    simp [markSuccess, markFail, markCell, initTable, toNat_ne_zero hne]
  have hmem : ∀ columns : Bytes, t.toNat ∈ columns.map UInt8.toNat ↔ t ∈ columns :=
    fun columns => List.mem_map_of_injective (fun _ _ h => UInt8.toNat_inj.1 h)
  unfold tokenTable
  simp only [markCells_apply, hflags, hmem]

theorem mem_digits (t : UInt8) : t ∈ digits ↔ isDigit t = true := by
  have hcodes : digits.map UInt8.toNat = List.range' 48 10 := by decide
  rw [← List.mem_map_of_injective (fun _ _ h => UInt8.toNat_inj.1 h), hcodes]
  simp only [List.mem_range'_1, isDigit, decide_eq_true_eq, UInt8.le_iff_toNat_le, UInt8.reduceToNat]
  omega

theorem mem_alphas (t : UInt8) : t ∈ alphas ↔ isWord t = true := by
  have hcodes : alphas.map UInt8.toNat = List.range' 97 26 ++ List.range' 65 26 ++ [95] ++ List.range' 48 10 := by
    decide
  rw [← List.mem_map_of_injective (fun _ _ h => UInt8.toNat_inj.1 h), hcodes]
  simp only [List.mem_append, List.mem_range'_1, List.mem_singleton, isWord, isLetter, isDigit, Bool.or_eq_true,
    decide_eq_true_eq, UInt8.le_iff_toNat_le, ← UInt8.toNat_inj, UInt8.reduceToNat]
  omega

theorem mem_operators (t : UInt8) : t ∈ operators ↔ isOperator t = true := by
  have hcodes : operators = [62, 60, 61, 33] := by decide
  simp only [hcodes, List.mem_cons, List.not_mem_nil, or_false, isOperator, decide_eq_true_eq]

theorem tokenTable_word {t : UInt8} (hne : t ≠ 0) : tokenTable 1 t.toNat = some 1 ↔ isWord t = true := by
  rw [tokenTable_eq 1 hne, ← mem_alphas]
  simp

theorem tokenTable_digit {t : UInt8} (hne : t ≠ 0) : tokenTable 2 t.toNat = some 2 ↔ isDigit t = true := by
  rw [tokenTable_eq 2 hne, ← mem_digits]
  simp

theorem tokenTable_operator {t : UInt8} (hne : t ≠ 0) : tokenTable 3 t.toNat = some 3 ↔ isOperator t = true := by
  rw [tokenTable_eq 3 hne, ← mem_operators]
  simp

theorem isLetter_not_digit {t : UInt8} (h : isDigit t = true) : isLetter t = false := by
  simp only [isDigit, isLetter, decide_eq_true_eq, decide_eq_false_iff_not, UInt8.le_iff_toNat_le, ← UInt8.toNat_inj,
    UInt8.reduceToNat] at h ⊢
  omega

theorem tokenTable_start {t : UInt8} (hne : t ≠ 0) : tokenTable 0 t.toNat =
    if isLetter t then some 1 else if isDigit t then some 2 else if isOperator t then some 3
    else match symbol t with
      | .comma => some 4
      | .space => some 5
      | .paren => some 6
      | .star => some 7
      | _ => none := by
  by_cases hone : t ∈ star ++ paren ++ spaces ++ comma ++ operators
  · have hall : star ++ paren ++ spaces ++ comma ++ operators = [42, 40, 41, 32, 9, 10, 44, 62, 60, 61, 33] := by decide
    rw [hall] at hone
    simp only [List.mem_cons, List.not_mem_nil, or_false] at hone
    rcases hone with rfl | rfl | rfl | rfl | rfl | rfl | rfl | rfl | rfl | rfl | rfl
    all_goals
      rw [tokenTable_eq 0 hne]
      decide
  · simp only [List.mem_append, not_or] at hone
    obtain ⟨⟨⟨⟨hstar, hparen⟩, hspaces⟩, hcomma⟩, hoperators⟩ := hone
    have hsymbol : symbol t = .unknown := by
      have hcommaByte : t ≠ 44 := fun h => hcomma (by rw [h]; decide)
      have hspaceBytes : ¬ (t = 32 ∨ t = 9 ∨ t = 10) := fun h => hspaces (by rcases h with rfl | rfl | rfl <;> decide)
      have hparenBytes : ¬ (t = 40 ∨ t = 41) := fun h => hparen (by rcases h with rfl | rfl <;> decide)
      have hstarByte : t ≠ 42 := fun h => hstar (by rw [h]; decide)
      rw [symbol, if_neg hcommaByte, if_neg hspaceBytes, if_neg hparenBytes, if_neg hstarByte]
    rw [tokenTable_eq 0 hne, hsymbol]
    simp only [hstar, hparen, hspaces, hcomma, hoperators, and_false, if_false, mem_digits, mem_alphas, true_and,
      ← mem_operators, isWord, Bool.or_eq_true]
    by_cases hdigit : isDigit t = true
    · simp [hdigit, isLetter_not_digit hdigit]
    · simp [hdigit]

/-! ## What `get_token` takes -/

theorem takeToken_span {state : Nat} (hstate : state = 1 ∨ state = 3) {p : UInt8 → Bool}
    (hp : ∀ {t : UInt8}, t ≠ 0 → (tokenTable state t.toNat = some state ↔ p t = true)) : ∀ {buffer : Bytes}, 0 ∉ buffer →
    (takeToken state buffer).1 = buffer.takeWhile p
  | [], _ => rfl
  | t :: rest, hnul => by
    obtain ⟨hne, hrest⟩ := List.ne_and_not_mem_of_not_mem_cons hnul
    have hp' := hp hne.symm
    rw [takeToken]
    by_cases ht : p t = true
    · rw [if_pos ⟨by omega, hp'.2 ht⟩, List.takeWhile_cons_of_pos ht]
      simp only
      rw [takeToken_span hstate hp hrest]
    · rw [if_neg (fun h => ht (hp'.1 h.2)), if_neg (by omega), List.takeWhile_cons_of_neg ht]

/-- The inner loop on digits: its lookahead is the byte it stands on. -/
theorem takeFraction_digits : ∀ {buffer : Bytes}, 0 ∉ buffer →
    (takeFraction (buffer.headD 0) buffer).1 = buffer.takeWhile isDigit
  | [], _ => rfl
  | t :: rest, hnul => by
    obtain ⟨hne, hrest⟩ := List.ne_and_not_mem_of_not_mem_cons hnul
    have hdigit := tokenTable_digit hne.symm
    rw [takeFraction, List.headD_cons]
    by_cases ht : isDigit t = true
    · rw [if_pos (hdigit.2 ht), List.takeWhile_cons_of_pos ht]
      simp only
      rw [takeFraction_digits hrest]
    · rw [if_neg (mt hdigit.1 ht), List.takeWhile_cons_of_neg ht]

/-- At the dot the lookahead is the byte behind it. -/
theorem takeFraction_dot {rest : Bytes} (hnul : 0 ∉ rest) (hne : rest ≠ []) :
    (takeFraction (rest.headD 0) (46 :: rest)).1 = fraction (46 :: rest) := by
  cases rest with
  | nil => exact absurd rfl hne
  | cons digit rest =>
    have hclass := tokenTable_digit (List.ne_of_not_mem_cons hnul).symm
    rw [takeFraction, List.headD_cons, fraction]
    by_cases hdigit : isDigit digit = true
    · have hdigits := takeFraction_digits hnul
      rw [List.headD_cons, List.takeWhile_cons_of_pos hdigit] at hdigits
      rw [if_pos (hclass.2 hdigit), if_pos ⟨rfl, hdigit⟩]
      exact congrArg (List.cons 46) hdigits
    · rw [if_neg (mt hclass.1 hdigit), if_neg (fun h => hdigit h.2)]

theorem takeToken_number : ∀ {buffer : Bytes}, 0 ∉ buffer →
    (takeToken 2 buffer).1 = buffer.takeWhile isDigit ++ fraction (buffer.dropWhile isDigit)
  | [], _ => rfl
  | t :: rest, hnul => by
    obtain ⟨hne, hrest⟩ := List.ne_and_not_mem_of_not_mem_cons hnul
    have hdigit := tokenTable_digit hne.symm
    rw [takeToken]
    by_cases ht : isDigit t = true
    · rw [if_pos ⟨by omega, hdigit.2 ht⟩, List.takeWhile_cons_of_pos ht, List.dropWhile_cons_of_pos ht]
      simp only
      rw [takeToken_number hrest, List.cons_append]
    · rw [if_neg (fun h => ht (hdigit.1 h.2)), List.takeWhile_cons_of_neg ht, List.dropWhile_cons_of_neg ht,
        List.nil_append]
      by_cases hdot : t = 46 ∧ rest ≠ []
      · obtain ⟨rfl, hmore⟩ := hdot
        rw [if_pos ⟨rfl, rfl, hmore⟩, takeFraction_dot hrest hmore]
      · rw [if_neg (fun h => hdot h.2)]
        -- neither a dot nor a byte behind it
        cases rest with
        | nil => rfl
        | cons digit rest => rw [fraction, if_neg (fun h => hdot ⟨h.1, List.cons_ne_nil _ _⟩)]

/-- **`get_token` takes the lexeme**, with its type. -/
theorem getToken_lexeme {t : UInt8} {rest : Bytes} (hnul : 0 ∉ t :: rest) : (getToken t rest).1 = lexeme t rest := by
  obtain ⟨hne, hrest⟩ := List.ne_and_not_mem_of_not_mem_cons hnul
  rw [getToken, tokenTable_start hne.symm, lexeme]
  by_cases hletter : isLetter t = true
  · rw [if_pos hletter, if_pos hletter]
    simp only
    rw [if_neg (by decide), takeToken_span (Or.inl rfl) tokenTable_word hrest]
    rfl
  rw [if_neg hletter, if_neg hletter]
  by_cases hdigit : isDigit t = true
  · rw [if_pos hdigit, if_pos hdigit]
    simp only
    rw [if_neg (by decide), takeToken_number hrest]
    rfl
  rw [if_neg hdigit, if_neg hdigit]
  by_cases hoperator : isOperator t = true
  · rw [if_pos hoperator, if_pos hoperator]
    simp only
    rw [if_neg (by decide), takeToken_span (Or.inr rfl) tokenTable_operator hrest]
    rfl
  rw [if_neg hoperator, if_neg hoperator]
  have hclass : symbol t ∈ [TokenType.comma, .space, .paren, .star, .unknown] := by
    unfold symbol
    split_ifs
    all_goals decide
  simp only [List.mem_cons, List.not_mem_nil, or_false] at hclass
  rcases hclass with h | h | h | h | h
  · rw [h]
    rfl
  · rw [h]
    rfl
  · rw [h]
    rfl
  · rw [h]
    rfl
  · rw [h]

/-! ## The loop -/

/-- `>>` until `done()`: what a run of the loop extracts. -/
inductive Extracted : Bytes → List SToken → Prop where
  | done : Extracted [] []
  | more {t : UInt8} {rest : Bytes} {ts : List SToken} (h : Extracted (getToken t rest).2 ts) :
      Extracted (t :: rest) ((getToken t rest).1 :: ts)

/-- **The loop ends**: every token takes a byte. -/
theorem extracted_tokens (buffer : Bytes) : Extracted buffer (tokens buffer) := by
  induction hn : buffer.length using Nat.strong_induction_on generalizing buffer with
  | _ n ih =>
    cases buffer with
    | nil => exact .done
    | cons t rest =>
      have hlt : (getToken t rest).2.length < n := by
        rw [← hn, List.length_cons]
        exact Nat.lt_succ_of_le (getToken_length t rest)
      rw [tokens_cons]
      exact .more (ih _ hlt _ rfl)

theorem Extracted.eq_tokens {buffer : Bytes} {ts : List SToken} (h : Extracted buffer ts) : ts = tokens buffer := by
  induction h with
  | done => rfl
  | more h ih => rw [tokens_cons, ih]

theorem tokens_ne_empty {buffer : Bytes} : ∀ token ∈ tokens buffer, token.tokenStr ≠ [] := by
  have hall : ∀ {buffer ts}, Extracted buffer ts → ∀ token ∈ ts, token.tokenStr ≠ [] := by
    intro buffer ts h
    induction h with
    | done => exact fun token htoken => absurd htoken List.not_mem_nil
    | @more t rest ts h ih =>
      intro token htoken
      rcases List.mem_cons.1 htoken with rfl | htoken
      · obtain ⟨taken, htaken⟩ := getToken_cons t rest
        rw [htaken]
        exact List.cons_ne_nil _ _
      · exact ih token htoken
  exact hall (extracted_tokens buffer)

/-- What is behind some tokens is tokenized as if it stood alone. -/
theorem tokens_behind : ∀ {front back : List SToken} {buffer : Bytes}, tokens buffer = front ++ back →
    tokens (back.flatMap SToken.tokenStr) = back
  | [], back, buffer, h => by
    rw [List.nil_append] at h
    rw [← h, tokens_texts]
  | token :: front, back, buffer, h => by
    cases buffer with
    | nil => cases h
    | cons t rest =>
      rw [tokens_cons, List.cons_append] at h
      exact tokens_behind (List.cons.inj h).2

/-- **Tokenization is lossless and its tokens are maximal**: the loop ends in one way, no token is empty, together the tokens
are the string, and at every position the token is the lexeme of what is left. -/
theorem tokens_maximal {str : Bytes} (hnul : 0 ∉ str) : ∃ ts, Extracted (cString str) ts ∧
    (∀ ts', Extracted (cString str) ts' → ts' = ts) ∧ (∀ token ∈ ts, token.tokenStr ≠ []) ∧
    ts.flatMap SToken.tokenStr = str ∧
    ∀ front token back, ts = front ++ token :: back → ∃ t rest,
      (token :: back).flatMap SToken.tokenStr = t :: rest ∧ token = lexeme t rest := by
  refine ⟨tokens (cString str), extracted_tokens _, fun ts' h => h.eq_tokens, tokens_ne_empty, ?_, ?_⟩
  · rw [cString_eq hnul, tokens_texts]
  · intro front token back hts
    rw [cString_eq hnul] at hts
    have htexts := tokens_texts str
    have hbehind := tokens_behind hts
    rw [hts, List.flatMap_append] at htexts
    cases hrest : (token :: back).flatMap SToken.tokenStr with
    | nil =>
      rw [hrest] at hbehind
      cases hbehind
    | cons t rest =>
      rw [hrest] at hbehind htexts
      rw [tokens_cons] at hbehind
      have hclean : 0 ∉ t :: rest := fun h => hnul (htexts ▸ List.mem_append_right _ h)
      exact ⟨t, rest, rfl, (List.cons.inj hbehind).1.symm.trans (getToken_lexeme hclean)⟩

/-- `1.5.x>=` is a number, a dot, a word and an operator. -/
theorem tokens_maximal_number : ∃ ts, Extracted (ascii "1.5.x>=") ts ∧
    ts.flatMap SToken.tokenStr = ascii "1.5.x>=" ∧
    ts.map SToken.tokenStr = [ascii "1.5", ascii ".", ascii "x", ascii ">="] := by
  obtain ⟨ts, hts, hunique, -, htexts, -⟩ := tokens_maximal (by decide : 0 ∉ ascii "1.5.x>=")
  refine ⟨ts, hts, htexts, ?_⟩
  rw [hts.eq_tokens]
  decide +kernel

/-! ## Cuts -/

/-- The positions of a text at which a token ends, and its front. -/
inductive Boundary : Bytes → Nat → Prop where
  | front (text : Bytes) : Boundary text 0
  | behind {t : UInt8} {rest left : Bytes} {position : Nat} (hleft : t :: rest = (lexeme t rest).tokenStr ++ left)
      (h : Boundary left position) : Boundary (t :: rest) ((lexeme t rest).tokenStr.length + position)

/-- A run of a class that ends in front of a text ends there in front of less of it. -/
theorem takeWhile_cut {p : UInt8 → Bool} {run left left' : Bytes} (hrun : (run ++ left).takeWhile p = run)
    (hcut : left' <+: left) : (run ++ left').takeWhile p = run ∧ (run ++ left').dropWhile p = left' := by
  have hall : ∀ b ∈ run, p b = true := fun b hb => List.mem_takeWhile_imp (hrun ▸ hb)
  rw [List.takeWhile_append_of_pos hall, List.append_right_eq_self] at hrun
  rw [List.takeWhile_append_of_pos hall, List.dropWhile_append_of_pos hall, List.append_right_eq_self]
  obtain ⟨more, rfl⟩ := hcut
  cases left' with
  | nil => exact ⟨rfl, rfl⟩
  | cons b left' =>
    have hb : ¬ p b = true := fun hb => by
      rw [List.cons_append, List.takeWhile_cons_of_pos hb] at hrun
      cases hrun
    exact ⟨List.takeWhile_cons_of_neg hb, List.dropWhile_cons_of_neg hb⟩

theorem fraction_cut {taken left left' : Bytes} (htaken : fraction (taken ++ left) = taken) (hcut : left' <+: left) :
    fraction (taken ++ left') = taken := by
  rcases taken with _ | ⟨dot, _ | ⟨digit, run⟩⟩
  · rw [List.nil_append] at htaken ⊢
    obtain ⟨more, rfl⟩ := hcut
    rcases left' with _ | ⟨dot, _ | ⟨digit, left'⟩⟩
    · rfl
    · rfl
    · rw [List.cons_append, List.cons_append, fraction] at htaken
      by_cases hdot : dot = 46 ∧ isDigit digit = true
      · rw [if_pos hdot] at htaken
        cases htaken
      · rw [fraction, if_neg hdot]
  · -- a fraction has two bytes or more
    cases left with
    | nil => cases htaken
    | cons digit left =>
      rw [List.singleton_append, fraction] at htaken
      by_cases hdot : dot = 46 ∧ isDigit digit = true
      · rw [if_pos hdot] at htaken
        cases htaken
      · rw [if_neg hdot] at htaken
        cases htaken
  · rw [List.cons_append, List.cons_append, fraction] at htaken ⊢
    by_cases hdot : dot = 46 ∧ isDigit digit = true
    · rw [if_pos hdot] at htaken ⊢
      have hrun := (List.cons.inj (List.cons.inj htaken).2).2
      rw [(takeWhile_cut hrun hcut).1]
    · rw [if_neg hdot] at htaken
      cases htaken

/-- **What is cut off behind a token does not change it.** -/
theorem lexeme_cut {t : UInt8} {rest rest' left left' : Bytes} (hleft : t :: rest = (lexeme t rest).tokenStr ++ left)
    (hleft' : t :: rest' = (lexeme t rest).tokenStr ++ left') (hcut : left' <+: left) : lexeme t rest' = lexeme t rest := by
  -- a token of one class
  have hclass : ∀ {p : UInt8 → Bool}, rest = rest.takeWhile p ++ left → rest' = rest.takeWhile p ++ left' →
      rest'.takeWhile p = rest.takeWhile p := fun {p} h h' => by
    have hrun : (rest.takeWhile p ++ left).takeWhile p = rest.takeWhile p := by rw [← h]
    rw [h']
    exact (takeWhile_cut hrun hcut).1
  unfold lexeme at hleft hleft' ⊢
  by_cases hletter : isLetter t = true
  · simp only [if_pos hletter, List.cons_append] at hleft hleft' ⊢
    rw [hclass (List.cons.inj hleft).2 (List.cons.inj hleft').2]
  simp only [if_neg hletter] at hleft hleft' ⊢
  by_cases hdigit : isDigit t = true
  · simp only [if_pos hdigit, List.cons_append, List.append_assoc] at hleft hleft' ⊢
    replace hleft := (List.cons.inj hleft).2
    replace hleft' := (List.cons.inj hleft').2
    have hsplit := List.takeWhile_append_dropWhile (p := isDigit) (l := rest)
    have hbehind : fraction (rest.dropWhile isDigit) ++ left = rest.dropWhile isDigit :=
      List.append_cancel_left (hleft.symm.trans hsplit.symm)
    -- the digits end in front of the fraction, and the fraction ends in front of what is left
    obtain ⟨htake, hdrop⟩ := @takeWhile_cut isDigit (rest.takeWhile isDigit) (fraction (rest.dropWhile isDigit) ++ left)
      (fraction (rest.dropWhile isDigit) ++ left') (by rw [← hleft]) ((List.prefix_append_right_inj _).2 hcut)
    have hfraction := @fraction_cut (fraction (rest.dropWhile isDigit)) left left' (by rw [hbehind]) hcut
    rw [hleft', htake, hdrop, hfraction]
  simp only [if_neg hdigit] at hleft hleft' ⊢
  by_cases hoperator : isOperator t = true
  · simp only [if_pos hoperator, List.cons_append] at hleft hleft' ⊢
    rw [hclass (List.cons.inj hleft).2 (List.cons.inj hleft').2]
  · rw [if_neg hoperator, if_neg hoperator]

/-! ## Texts that are cut -/

theorem lexeme_ne_nil (t : UInt8) (rest : Bytes) : (lexeme t rest).tokenStr ≠ [] := by
  unfold lexeme
  split_ifs
  all_goals exact List.cons_ne_nil _ _

/-- The tokens of a text by its lexeme. -/
theorem tokens_lexeme {t : UInt8} {rest left : Bytes} (hnul : 0 ∉ t :: rest)
    (hleft : t :: rest = (lexeme t rest).tokenStr ++ left) : tokens (t :: rest) = lexeme t rest :: tokens left := by
  have happend := getToken_append t rest
  rw [tokens_cons]
  rw [getToken_lexeme hnul] at happend ⊢
  rw [List.append_cancel_left (happend.trans hleft)]

/-- **A text may be cut where a token ends.** -/
theorem tokens_cut {text : Bytes} {position : Nat} (h : Boundary text position) (hnul : 0 ∉ text) :
    tokens text = tokens (text.take position) ++ tokens (text.drop position) := by
  induction h with
  | front text => rfl
  | @behind t rest left position hleft h ih =>
    have hleftnul : 0 ∉ left := fun hmem => hnul (hleft ▸ List.mem_append_right _ hmem)
    obtain ⟨taken, htaken⟩ : ∃ taken, (lexeme t rest).tokenStr = t :: taken := by
      cases hstr : (lexeme t rest).tokenStr with
      | nil => exact absurd hstr (lexeme_ne_nil t rest)
      | cons u taken =>
        rw [hstr] at hleft
        exact ⟨taken, by rw [(List.cons.inj hleft).1]⟩
    have hfront : (t :: rest).take ((lexeme t rest).tokenStr.length + position) =
        t :: (taken ++ left.take position) := by
      rw [hleft, List.take_length_add_append, htaken]
      rfl
    have hback : (t :: rest).drop ((lexeme t rest).tokenStr.length + position) = left.drop position := by
      rw [hleft, List.drop_length_add_append]
    have hcut : lexeme t (taken ++ left.take position) = lexeme t rest :=
      lexeme_cut hleft (by rw [htaken]; rfl) (List.take_prefix position left)
    have hfrontnul : 0 ∉ t :: (taken ++ left.take position) := fun hmem => hnul (List.mem_of_mem_take (hfront ▸ hmem))
    have hshort : t :: (taken ++ left.take position) =
        (lexeme t (taken ++ left.take position)).tokenStr ++ left.take position := by
      rw [hcut, htaken]
      rfl
    rw [hback, hfront, tokens_lexeme hnul hleft, ih hleftnul, tokens_lexeme hfrontnul hshort, hcut, List.cons_append]

theorem boundary_cons {t : UInt8} {rest : Bytes} {position : Nat} (h : Boundary (t :: rest) position) : position = 0 ∨
    ∃ left behind, t :: rest = (lexeme t rest).tokenStr ++ left ∧ Boundary left behind ∧
      position = (lexeme t rest).tokenStr.length + behind := by
  cases h with
  | front => exact Or.inl rfl
  | behind hleft h => exact Or.inr ⟨_, _, hleft, h, rfl⟩

/-- Behind a boundary the boundaries are those of what is left. -/
theorem Boundary.drop {text : Bytes} {position : Nat} (h : Boundary text position) : ∀ {more : Nat},
    Boundary text (position + more) → Boundary (text.drop position) more := by
  induction h with
  | front text => exact fun h => by rwa [Nat.zero_add] at h
  | @behind t rest left position hleft h ih =>
    intro more hmore
    have hpos := List.length_pos_iff.2 (lexeme_ne_nil t rest)
    rcases boundary_cons hmore with hzero | ⟨left', behind, hleft', hbehind, hsum⟩
    · omega
    · obtain rfl := List.append_cancel_left (hleft.symm.trans hleft')
      obtain rfl : behind = position + more := by omega
      have hdrop : (t :: rest).drop ((lexeme t rest).tokenStr.length + position) = left.drop position := by
        rw [hleft, List.drop_length_add_append]
      rw [hdrop]
      exact ih hbehind

/-- Where tokens end, and there alone, are the boundaries. -/
theorem boundary_iff {text : Bytes} (hnul : 0 ∉ text) (position : Nat) : Boundary text position ↔
    ∃ front back, tokens text = front ++ back ∧ (front.flatMap SToken.tokenStr).length = position := by
  constructor
  · intro h
    induction h with
    | front text => exact ⟨[], tokens text, rfl, rfl⟩
    | @behind t rest left position hleft h ih =>
      obtain ⟨front, back, htokens, hlength⟩ := ih (fun hmem => hnul (hleft ▸ List.mem_append_right _ hmem))
      refine ⟨lexeme t rest :: front, back, ?_, ?_⟩
      · rw [tokens_lexeme hnul hleft, htokens, List.cons_append]
      · rw [List.flatMap_cons, List.length_append, hlength]
  · rintro ⟨front, back, htokens, rfl⟩
    induction front generalizing text with
    | nil => exact .front text
    | cons token front ih =>
      cases text with
      | nil => cases htokens
      | cons t rest =>
        have happend := getToken_append t rest
        rw [tokens_cons, List.cons_append] at htokens
        rw [getToken_lexeme hnul] at htokens happend
        obtain ⟨rfl, hback⟩ := List.cons.inj htokens
        rw [List.flatMap_cons, List.length_append]
        exact .behind happend.symm (ih (fun hmem => hnul (happend ▸ List.mem_append_right _ hmem)) hback)

end Query
end Sql
