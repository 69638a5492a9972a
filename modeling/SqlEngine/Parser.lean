import SqlEngine.Tokenizer
import SqlEngine.ShuntingYard
import SqlEngine.OrderedMap
/-!
# Parser — a tree from a command

`Parser`: the tokens with their types, and the run of the state table that fills the tree.  Column 0 of the table is both
the flag of success and the type `CREATE`, so that every state goes on from there (`parserTable_create`); elsewhere the
table is what `init_` draws (`parserTable_eq`).  What the tree holds depends on the states that the tokens lead to
(`parseLoop_ok`).
-/
namespace Sql
namespace Query

open Wire Maps

/-! ## Types of tokens -/

inductive Ptype where
  | create | table | fields | insert | into | values | select | asterisk | from_ | where_ | literal | commas | parens
  | relational | logical | quote
  deriving DecidableEq, Repr

/-- The value of the enumerator: its column. -/
def Ptype.code : Ptype → Nat
  | create => 0
  | table => 1
  | fields => 2
  | insert => 3
  | into => 4
  | values => 5
  | select => 6
  | asterisk => 7
  | from_ => 8
  | where_ => 9
  | literal => 10
  | commas => 11
  | parens => 12
  | relational => 13
  | logical => 14
  | quote => 15

def classifyUnquotedToken (token : SToken) : Option Ptype :=
  match token.type with
  | .alpha =>
    if token.tokenStr = ascii "create" then some .create
    else if token.tokenStr = ascii "table" then some .table
    else if token.tokenStr = ascii "fields" then some .fields
    else if token.tokenStr = ascii "insert" then some .insert
    else if token.tokenStr = ascii "into" then some .into
    else if token.tokenStr = ascii "values" then some .values
    else if token.tokenStr = ascii "select" then some .select
    else if token.tokenStr = ascii "from" then some .from_
    else if token.tokenStr = ascii "where" then some .where_
    else if token.tokenStr = ascii "or" ∨ token.tokenStr = ascii "and" then some .logical
    else some .literal
  | .number => some .literal
  | .operator => if token.tokenStr ∈ relationalTexts then some .relational else none
  | .paren => some .parens
  | .star => if token.tokenStr = ascii "*" then some .asterisk else none
  | .comma => if token.tokenStr = ascii "," then some .commas else none
  | _ => none

/-- The loop of `tokenize` and the text of an open quote.  The tokens and their types are two vectors that grow together;
`none` is where both are cleared. -/
def tokenizeLoop : Option Bytes → List SToken → Option (List (SToken × Ptype))
  | none, [] => some []
  | some _, [] => none
  | some quotedLiteral, current :: ts =>
    if current.tokenStr = [quoteByte] then
      (tokenizeLoop none ts).map (fun input => (⟨quotedLiteral, .alpha⟩, .literal) :: input)
    else tokenizeLoop (some (quotedLiteral ++ current.tokenStr)) ts
  | none, current :: ts =>
    if current.tokenStr = [quoteByte] then tokenizeLoop (some []) ts
    else if current.type = .space then tokenizeLoop none ts
    else
      match classifyUnquotedToken current with
      | none => none
      | some type => (tokenizeLoop none ts).map (fun input => (current, type) :: input)

def tokenize (str : Bytes) : Option (List (SToken × Ptype)) := tokenizeLoop none (tokens (cString str))

/-! ## The state table -/

/-- The cells of `init_`, in its order. -/
def parserCells : List (Nat × Ptype × Nat) :=
  [(0, .create, 1), (1, .table, 2), (2, .literal, 3), (3, .fields, 4), (4, .literal, 5), (5, .commas, 6), (6, .literal, 5),
    (0, .insert, 7), (7, .into, 8), (8, .literal, 9), (9, .values, 10), (10, .literal, 11), (11, .commas, 12),
    (12, .literal, 11),
    (0, .select, 13), (13, .asterisk, 16), (16, .from_, 17), (13, .literal, 14), (14, .commas, 15), (15, .literal, 14),
    (14, .from_, 17), (17, .literal, 18), (18, .where_, 19), (19, .literal, 21), (19, .parens, 20), (20, .literal, 21),
    (20, .parens, 20), (21, .relational, 22), (22, .literal, 23), (23, .logical, 19), (23, .parens, 24), (24, .logical, 19),
    (24, .parens, 24)]

/-- `init_`. -/
def parserTable : StateTable :=
  let table := (List.range 25).foldl (fun table i =>
    if i = 5 ∨ i = 11 ∨ i = 18 ∨ i = 23 ∨ i = 24 then markSuccess table i else markFail table i) initTable
  parserCells.foldl (fun table cell => markCell cell.1 table cell.2.1.code cell.2.2) table

/-! ## The tree -/

/-- What a token adds to the tree on its way into a state. -/
def record (state : Nat) (didWhere : Bool) (text : Bytes) (tree : MMap Bytes Bytes) : MMap Bytes Bytes :=
  let tree := if state = 3 ∨ state = 9 ∨ state = 18 then tree.push (ascii "table_name") text else tree
  let tree := if state = 5 ∨ state = 16 ∨ state = 14 then tree.push (ascii "fields") text else tree
  let tree := if state = 11 then tree.push (ascii "values") text else tree
  let tree := if state = 19 ∧ didWhere = false then tree.push (ascii "where") (ascii "yes") else tree
  if state ≥ 19 ∧ state ≤ 24 ∧ text ≠ ascii "where" then tree.push (ascii "condition") text else tree

/-- The loop of `parse`: the last state and the tree. -/
def parseLoop : Nat → Bool → MMap Bytes Bytes → List (SToken × Ptype) → Option (Nat × MMap Bytes Bytes)
  | state, _, tree, [] => some (state, tree)
  | state, didWhere, tree, (token, type) :: input =>
    match parserTable state type.code with
    | none => none
    | some next => parseLoop next (didWhere || next = 19) (record next didWhere token.tokenStr tree) input

/-- The keys of a command, from its first token. -/
def startTree : Ptype → Option (MMap Bytes Bytes)
  | .create => some ((((MMap.insert .empty (ascii "command") (ascii "create")).insertKey (ascii "fields"))).insertKey
      (ascii "table_name"))
  | .insert => some ((((MMap.insert .empty (ascii "command") (ascii "insert")).insertKey (ascii "values"))).insertKey
      (ascii "table_name"))
  | .select => some ((((((MMap.insert .empty (ascii "command") (ascii "select")).insertKey (ascii "condition")).insertKey
      (ascii "fields"))).insertKey (ascii "table_name")).insertKey (ascii "where"))
  | _ => none

/-- `if (tree[key].empty()) tree.erase(key)`: reading inserts the key. -/
def dropEmpty (key : Bytes) (tree : MMap Bytes Bytes) : MMap Bytes Bytes :=
  if tree.get key = [] then (tree.touch key).erase key else tree.touch key

/-- `parse`: the tree, where it returns true. -/
def parse : List (SToken × Ptype) → Option (MMap Bytes Bytes)
  | [] => none
  | (_, type) :: input =>
    match startTree type, parserTable 0 type.code with
    | some tree, some state =>
      match parseLoop state false tree input with
      | none => none
      | some (state, tree) =>
        let tree := dropEmpty (ascii "where") (dropEmpty (ascii "condition") tree)
        if isSuccess parserTable state then some tree else none
    | _, _ => none

/-- `set_string` and `parse_tree`: without success the tree is cleared. -/
def parseTree (str : Bytes) : MMap Bytes Bytes := (((tokenize str).bind parse).getD .empty)

/-! ## What the table says -/

/-- The transitions that `init_` draws off column 0. -/
def next : Nat → Ptype → Option Nat
  | 0, .insert => some 7
  | 0, .select => some 13
  | 1, .table => some 2
  | 2, .literal => some 3
  | 3, .fields => some 4
  | 4, .literal => some 5
  | 5, .commas => some 6
  | 6, .literal => some 5
  | 7, .into => some 8
  | 8, .literal => some 9
  | 9, .values => some 10
  | 10, .literal => some 11
  | 11, .commas => some 12
  | 12, .literal => some 11
  | 13, .asterisk => some 16
  | 13, .literal => some 14
  | 14, .commas => some 15
  | 14, .from_ => some 17
  | 15, .literal => some 14
  | 16, .from_ => some 17
  | 17, .literal => some 18
  | 18, .where_ => some 19
  | 19, .literal => some 21
  | 19, .parens => some 20
  | 20, .literal => some 21
  | 20, .parens => some 20
  | 21, .relational => some 22
  | 22, .literal => some 23
  | 23, .logical => some 19
  | 23, .parens => some 24
  | 24, .logical => some 19
  | 24, .parens => some 24
  | _, _ => none

theorem parserTable_eq {state : Nat} (hstate : state < 25) {type : Ptype} (htype : type ≠ .create) :
    parserTable state type.code = next state type := by
  revert state
  cases type with
  | create => exact absurd rfl htype
  | _ => decide +kernel

/-- States in which a statement may end, and state 0: its flag is the cell of `CREATE`. -/
def Final (state : Nat) : Prop := state ∈ [0, 5, 11, 18, 23, 24]

instance (state : Nat) : Decidable (Final state) := inferInstanceAs (Decidable (_ ∈ _))

/-- **Every state goes on at `CREATE`**: a final one to state 1, as if the command began there, and the others to state 0. -/
theorem parserTable_create {state : Nat} (hstate : state < 25) :
    parserTable state Ptype.create.code = some (if Final state then 1 else 0) := by
  revert state
  decide

theorem isSuccess_iff {state : Nat} (hstate : state < 25) : isSuccess parserTable state = true ↔ Final state := by
  rw [isSuccess, show (0 : Nat) = Ptype.create.code from rfl, parserTable_create hstate, decide_eq_true_eq]
  split
  · simpa
  · simpa

theorem next_lt {state state' : Nat} (hstate : state < 25) {type : Ptype} (h : next state type = some state') :
    state' < 25 := by
  have hall : ∀ state < 25, (next state type).all (fun state' => decide (state' < 25)) = true := by
    cases type with
    | _ => decide
  have hnext := hall state hstate
  rw [h] at hnext
  exact of_decide_eq_true hnext

theorem parserTable_lt {state state' : Nat} (hstate : state < 25) {type : Ptype}
    (h : parserTable state type.code = some state') : state' < 25 := by
  by_cases htype : type = .create
  · rw [htype, parserTable_create hstate] at h
    cases h
    split
    · decide
    · decide
  · rw [parserTable_eq hstate htype] at h
    exact next_lt hstate h

/-! ## Runs of the table -/

/-- The state behind some tokens. -/
def runTable (state : Nat) (input : List (SToken × Ptype)) : Option Nat :=
  input.foldlM (fun state token => parserTable state token.2.code) state

/-- The texts with the states that they lead to. -/
def entered : Nat → List (SToken × Ptype) → List (Bytes × Nat)
  | _, [] => []
  | state, (token, type) :: input =>
    match parserTable state type.code with
    | none => []
    | some next => (token.tokenStr, next) :: entered next input

@[simp] theorem runTable_nil (state : Nat) : runTable state [] = some state := rfl

theorem runTable_cons (state : Nat) (token : SToken × Ptype) (input : List (SToken × Ptype)) :
    runTable state (token :: input) = (parserTable state token.2.code).bind (fun next => runTable next input) := rfl

theorem runTable_append (state : Nat) (front back : List (SToken × Ptype)) :
    runTable state (front ++ back) = (runTable state front).bind (fun next => runTable next back) := List.foldlM_append

theorem entered_cons {state next : Nat} {token : SToken} {type : Ptype} (h : parserTable state type.code = some next)
    (input : List (SToken × Ptype)) : entered state ((token, type) :: input) =
      (token.tokenStr, next) :: entered next input := by
  rw [entered, h]

theorem entered_append {next : Nat} (back : List (SToken × Ptype)) : ∀ {front : List (SToken × Ptype)} {state : Nat},
    runTable state front = some next → entered state (front ++ back) = entered state front ++ entered next back
  | [], state, h => by
    obtain rfl := Option.some.inj h
    rfl
  | (token, type) :: front, state, h => by
    rw [runTable_cons] at h
    obtain ⟨state', hstate, hrest⟩ := Option.bind_eq_some_iff.1 h
    rw [List.cons_append, entered_cons hstate, entered_cons hstate, entered_append back hrest, List.cons_append]

theorem runTable_lt {state' : Nat} : ∀ {input : List (SToken × Ptype)} {state : Nat}, state < 25 →
    runTable state input = some state' → state' < 25
  | [], state, hstate, h => Option.some.inj h ▸ hstate
  | token :: input, state, hstate, h => by
    rw [runTable_cons] at h
    obtain ⟨next, hnext, hrest⟩ := Option.bind_eq_some_iff.1 h
    exact runTable_lt (parserTable_lt hstate hnext) hrest

/-! ## What the tree holds -/

/-- What a token adds at a key. -/
def added (key : Bytes) (didWhere : Bool) (entry : Bytes × Nat) : List Bytes :=
  (if (entry.2 = 3 ∨ entry.2 = 9 ∨ entry.2 = 18) ∧ key = ascii "table_name" then [entry.1] else []) ++
  (if (entry.2 = 5 ∨ entry.2 = 16 ∨ entry.2 = 14) ∧ key = ascii "fields" then [entry.1] else []) ++
  (if entry.2 = 11 ∧ key = ascii "values" then [entry.1] else []) ++
  (if (entry.2 = 19 ∧ didWhere = false) ∧ key = ascii "where" then [ascii "yes"] else []) ++
  if (entry.2 ≥ 19 ∧ entry.2 ≤ 24 ∧ entry.1 ≠ ascii "where") ∧ key = ascii "condition" then [entry.1] else []

/-- What the tokens add at a key. -/
def addedAll (key : Bytes) : Bool → List (Bytes × Nat) → List Bytes
  | _, [] => []
  | didWhere, entry :: entries => added key didWhere entry ++ addedAll key (didWhere || entry.2 = 19) entries

theorem get_push_if (c : Prop) [Decidable c] (tree : MMap Bytes Bytes) (key key' value : Bytes) :
    (if c then tree.push key value else tree).get key' = tree.get key' ++ if c ∧ key' = key then [value] else [] := by
  by_cases hc : c
  · by_cases hkey : key' = key
    · simp [hc, hkey]
    · simp [hc, hkey]
  · simp [hc]

theorem record_get (state : Nat) (didWhere : Bool) (text : Bytes) (tree : MMap Bytes Bytes) (key : Bytes) :
    (record state didWhere text tree).get key = tree.get key ++ added key didWhere (text, state) := by
  unfold record added
  simp only [get_push_if, List.append_assoc]

/-- **The loop of `parse`**: it ends where the table ends, and adds texts by their states. -/
theorem parseLoop_ok : ∀ {input : List (SToken × Ptype)} {state : Nat} {didWhere : Bool} {tree : MMap Bytes Bytes},
    ∃ tree' : MMap Bytes Bytes, parseLoop state didWhere tree input =
      (runTable state input).map (fun last => (last, tree')) ∧
      ∀ key, tree'.get key = tree.get key ++ addedAll key didWhere (entered state input)
  | [], state, didWhere, tree => ⟨tree, rfl, fun key => (List.append_nil _).symm⟩
  | (token, type) :: input, state, didWhere, tree => by
    rw [parseLoop, runTable_cons, entered]
    cases hnext : parserTable state type.code with
    | none => exact ⟨tree, rfl, fun key => (List.append_nil _).symm⟩
    | some next =>
      obtain ⟨tree', hloop, hget⟩ := @parseLoop_ok input next (didWhere || next = 19)
        (record next didWhere token.tokenStr tree)
      exact ⟨tree', hloop, fun key => by rw [hget, record_get, addedAll, List.append_assoc]⟩

theorem get_dropEmpty (tree : MMap Bytes Bytes) (key key' : Bytes) : (dropEmpty key tree).get key' = tree.get key' := by
  unfold dropEmpty
  by_cases h : tree.get key = []
  · rw [if_pos h, MMap.get_erase, MMap.get_touch]
    split
    · rename_i hkey
      rw [hkey, h]
    · rfl
  · rw [if_neg h, MMap.get_touch]

theorem contains_dropEmpty (tree : MMap Bytes Bytes) (key : Bytes) :
    (dropEmpty key tree).contains key = true ↔ tree.get key ≠ [] := by
  unfold dropEmpty OrderedMap.contains
  by_cases h : tree.get key = []
  · rw [if_pos h, OrderedMap.lookup_erase, if_pos rfl]
    simp [h]
  · rw [if_neg h, MMap.touch, OrderedMap.lookup_alter, if_pos rfl]
    simp [h]

/-- The texts that lead to some states. -/
def textsAt (states : List Nat) (entries : List (Bytes × Nat)) : List Bytes :=
  (entries.filter (fun entry => decide (entry.2 ∈ states))).map Prod.fst

theorem textsAt_cons (states : List Nat) (entry : Bytes × Nat) (entries : List (Bytes × Nat)) :
    textsAt states (entry :: entries) = (if entry.2 ∈ states then [entry.1] else []) ++ textsAt states entries := by
  unfold textsAt
  by_cases h : entry.2 ∈ states
  · simp [h]
  · simp [h]

theorem textsAt_append (states : List Nat) (front back : List (Bytes × Nat)) :
    textsAt states (front ++ back) = textsAt states front ++ textsAt states back := by
  rw [textsAt, List.filter_append, List.map_append, textsAt, textsAt]

section
variable (didWhere : Bool) (entries : List (Bytes × Nat))

theorem addedAll_command : addedAll (ascii "command") didWhere entries = [] := by
  induction entries generalizing didWhere with
  | nil => rfl
  | cons entry entries ih =>
    rw [addedAll, ih]
    simp +decide [added]

theorem addedAll_tableName : addedAll (ascii "table_name") didWhere entries = textsAt [3, 9, 18] entries := by
  induction entries generalizing didWhere with
  | nil => rfl
  | cons entry entries ih =>
    rw [addedAll, ih, textsAt_cons]
    simp +decide [added]

theorem addedAll_fields : addedAll (ascii "fields") didWhere entries = textsAt [5, 16, 14] entries := by
  induction entries generalizing didWhere with
  | nil => rfl
  | cons entry entries ih =>
    rw [addedAll, ih, textsAt_cons]
    simp +decide [added]

theorem addedAll_values : addedAll (ascii "values") didWhere entries = textsAt [11] entries := by
  induction entries generalizing didWhere with
  | nil => rfl
  | cons entry entries ih =>
    rw [addedAll, ih, textsAt_cons]
    simp +decide [added]

/-- The states of a condition. -/
def conditionStates : List Nat := [19, 20, 21, 22, 23, 24]

theorem mem_conditionStates (state : Nat) : state ∈ conditionStates ↔ state ≥ 19 ∧ state ≤ 24 := by
  simp only [conditionStates, List.mem_cons, List.not_mem_nil, or_false]
  omega

theorem addedAll_condition : addedAll (ascii "condition") didWhere entries =
    (textsAt conditionStates entries).filter (fun text => decide (text ≠ ascii "where")) := by
  induction entries generalizing didWhere with
  | nil => rfl
  | cons entry entries ih =>
    rw [addedAll, ih, textsAt_cons, List.filter_append]
    congr 1
    by_cases hstate : entry.2 ∈ conditionStates
    · have hrange := (mem_conditionStates entry.2).1 hstate
      by_cases htext : entry.1 = ascii "where"
      · simp +decide [added, hstate, htext]
      · simp +decide [added, hstate, htext, hrange]
    · have hrange := mt (mem_conditionStates entry.2).2 hstate
      rw [if_neg hstate]
      simp +decide [added]
      omega

theorem addedAll_where : addedAll (ascii "where") didWhere entries =
    if didWhere = false ∧ 19 ∈ entries.map Prod.snd then [ascii "yes"] else [] := by
  induction entries generalizing didWhere with
  | nil => simp [addedAll]
  | cons entry entries ih =>
    rw [addedAll, ih]
    by_cases hstate : entry.2 = 19
    · cases didWhere with
      | true => simp +decide [added, hstate]
      | false => simp +decide [added, hstate]
    · have hnone : added (ascii "where") didWhere entry = [] := by simp +decide [added, hstate]
      rw [hnone, List.nil_append, decide_eq_false hstate, Bool.or_false]
      simp only [List.map_cons, List.mem_cons, Ne.symm hstate, false_or]

end

/-! ## What `parse` returns -/

/-- The commands with their names and their first states. -/
def commandOf : Ptype → Option (Bytes × Nat)
  | .create => some (ascii "create", 1)
  | .insert => some (ascii "insert", 7)
  | .select => some (ascii "select", 13)
  | _ => none

/-- The tree of a command behind the tokens that led to some states. -/
structure Holds (tree : MMap Bytes Bytes) (name : Bytes) (entries : List (Bytes × Nat)) : Prop where
  command : tree.get (ascii "command") = [name]
  tableName : tree.get (ascii "table_name") = textsAt [3, 9, 18] entries
  fields : tree.get (ascii "fields") = textsAt [5, 16, 14] entries
  values : tree.get (ascii "values") = textsAt [11] entries
  condition : tree.get (ascii "condition") =
    (textsAt conditionStates entries).filter (fun text => decide (text ≠ ascii "where"))
  contains_where : tree.contains (ascii "where") = true ↔ 19 ∈ entries.map Prod.snd

theorem Holds.ne_empty {tree : MMap Bytes Bytes} {name : Bytes} {entries : List (Bytes × Nat)}
    (h : Holds tree name entries) :
    tree.items ≠ [] := fun hempty => by
  have hcommand := h.command
  rw [MMap.get, OrderedMap.lookup, hempty] at hcommand
  cases hcommand

theorem startTree_get {type : Ptype} {name : Bytes} {state : Nat} (h : commandOf type = some (name, state)) :
    parserTable 0 type.code = some state ∧ state < 25 ∧ ∃ tree, startTree type = some tree ∧
      ∀ key, tree.get key = if key = ascii "command" then [name] else [] := by
  cases type with
  | create =>
    cases h
    refine ⟨by decide, by decide, _, rfl, fun key => ?_⟩
    by_cases hkey : key = ascii "command"
    · rw [hkey]
      decide
    · simp [hkey]
  | insert =>
    cases h
    refine ⟨by decide, by decide, _, rfl, fun key => ?_⟩
    by_cases hkey : key = ascii "command"
    · rw [hkey]
      decide
    · simp [hkey]
  | select =>
    cases h
    refine ⟨by decide, by decide, _, rfl, fun key => ?_⟩
    by_cases hkey : key = ascii "command"
    · rw [hkey]
      decide
    · simp [hkey]
  | _ => cases h

theorem startTree_none {type : Ptype} (h : commandOf type = none) : startTree type = none := by
  cases type with
  | create => cases h
  | insert => cases h
  | select => cases h
  | _ => rfl

/-- **What `parse` does** with a command: the run of the table decides, and the tree is what the states say. -/
theorem parse_cons {type : Ptype} {name : Bytes} {state : Nat} (h : commandOf type = some (name, state)) (token : SToken)
    (input : List (SToken × Ptype)) : ∃ tree, Holds tree name (entered state input) ∧
      parse ((token, type) :: input) =
        (runTable state input).bind (fun last => if Final last then some tree else none) := by
  obtain ⟨hstate, hlt, start, hstart, hget⟩ := startTree_get h
  obtain ⟨tree, hloop, htree⟩ := @parseLoop_ok input state false start
  have hholds : ∀ key, (dropEmpty (ascii "where") (dropEmpty (ascii "condition") tree)).get key =
      (if key = ascii "command" then [name] else []) ++ addedAll key false (entered state input) := fun key => by
    rw [get_dropEmpty, get_dropEmpty, htree, hget]
  refine ⟨dropEmpty (ascii "where") (dropEmpty (ascii "condition") tree), ⟨?_, ?_, ?_, ?_, ?_, ?_⟩, ?_⟩
  · rw [hholds, addedAll_command, if_pos rfl, List.append_nil]
  · rw [hholds, addedAll_tableName, if_neg (by decide), List.nil_append]
  · rw [hholds, addedAll_fields, if_neg (by decide), List.nil_append]
  · rw [hholds, addedAll_values, if_neg (by decide), List.nil_append]
  · rw [hholds, addedAll_condition, if_neg (by decide), List.nil_append]
  · rw [contains_dropEmpty, get_dropEmpty, htree, hget, addedAll_where, if_neg (by decide)]
    simp
  · rw [parse, hstart, hstate]
    simp only [hloop]
    cases hrun : runTable state input with
    | none => rfl
    | some last =>
      simp only [Option.map_some, Option.bind_some, isSuccess_iff (runTable_lt hlt hrun)]

/-- A tree comes from a run that ends in a final state. -/
theorem parse_some {input : List (SToken × Ptype)} {tree : MMap Bytes Bytes} (h : parse input = some tree) :
    ∃ token type rest name state last, input = (token, type) :: rest ∧ commandOf type = some (name, state) ∧
      runTable state rest = some last ∧ Final last ∧ Holds tree name (entered state rest) := by
  rcases input with _ | ⟨⟨token, type⟩, rest⟩
  · cases h
  cases hcommand : commandOf type with
  | none =>
    rw [parse, startTree_none hcommand] at h
    cases h
  | some command =>
    obtain ⟨name, state⟩ := command
    obtain ⟨tree', hholds, hparse⟩ := parse_cons hcommand token rest
    obtain ⟨last, hrun, hlast⟩ := Option.bind_eq_some_iff.1 (hparse.symm.trans h)
    by_cases hfinal : Final last
    · rw [if_pos hfinal] at hlast
      obtain rfl := Option.some.inj hlast
      exact ⟨token, type, rest, name, state, last, rfl, hcommand, hrun, hfinal, hholds⟩
    · rw [if_neg hfinal] at hlast
      cases hlast

end Query
end Sql
