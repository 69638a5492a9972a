import SqlEngine.Languages
import SqlEngine.Parser
/-!
# Grammar — the commands that `parse` accepts

Off column 0 the state table accepts the documented grammar (`run_next_iff`).  Column 0 adds the chains of statements that
a stray `create` joins (`Spliced`): `parse` accepts both (`accepted_iff_chain`), and a tree of the grammar is complete.
-/
namespace Sql
namespace Query

open Wire Maps Languages Computability

/-! ## The grammar -/

/-- `L (, L)*`. -/
def literals : Language Ptype := letter .literal * (letter .commas * letter .literal)∗

/-- `P* L R L P*`. -/
def comparison : Language Ptype :=
  (letter .parens)∗ * letter .literal * letter .relational * letter .literal * (letter .parens)∗

/-- `P* L R L P* (G P* L R L P*)*`. -/
def condition : Language Ptype := comparison * (letter .logical * comparison)∗

def createGrammar : Language Ptype := letter .create * letter .table * letter .literal * letter .fields * literals

def insertGrammar : Language Ptype := letter .insert * letter .into * letter .literal * letter .values * literals

def selectGrammar : Language Ptype := letter .select * (letter .asterisk + literals) * letter .from_ * letter .literal *
  (1 + letter .where_ * condition)

def grammar : Language Ptype := createGrammar + insertGrammar + selectGrammar

/-! ## The language of a state -/

/-- Behind a field or a value of a list. -/
def afterItem : Language Ptype := (letter .commas * letter .literal)∗ * 1

/-- Behind a comparison. -/
def afterComparison : Language Ptype := (letter .parens)∗ * ((letter .logical * comparison)∗ * 1)

/-- Behind `where` or a logical operator. -/
def afterWhere : Language Ptype :=
  (letter .parens)∗ * (letter .literal * (letter .relational * (letter .literal * afterComparison)))

/-- Behind `from`. -/
def afterFrom : Language Ptype := letter .literal * (1 + letter .where_ * afterWhere)

/-- Behind a name of a projection. -/
def afterField : Language Ptype := (letter .commas * letter .literal)∗ * (letter .from_ * afterFrom)

/-- What may follow a state, column 0 left out. -/
def follows : Nat → Language Ptype
  | 0 => letter .insert * (letter .into * (letter .literal * (letter .values * (letter .literal * afterItem)))) +
      letter .select * (letter .asterisk * (letter .from_ * afterFrom) + letter .literal * afterField)
  | 1 => letter .table * (letter .literal * (letter .fields * (letter .literal * afterItem)))
  | 2 => letter .literal * (letter .fields * (letter .literal * afterItem))
  | 3 => letter .fields * (letter .literal * afterItem)
  | 4 => letter .literal * afterItem
  | 5 => afterItem
  | 6 => letter .literal * afterItem
  | 7 => letter .into * (letter .literal * (letter .values * (letter .literal * afterItem)))
  | 8 => letter .literal * (letter .values * (letter .literal * afterItem))
  | 9 => letter .values * (letter .literal * afterItem)
  | 10 => letter .literal * afterItem
  | 11 => afterItem
  | 12 => letter .literal * afterItem
  | 13 => letter .asterisk * (letter .from_ * afterFrom) + letter .literal * afterField
  | 14 => afterField
  | 15 => letter .literal * afterField
  | 16 => letter .from_ * afterFrom
  | 17 => afterFrom
  | 18 => 1 + letter .where_ * afterWhere
  | 19 => afterWhere
  | 20 => afterWhere
  | 21 => letter .relational * (letter .literal * afterComparison)
  | 22 => letter .literal * afterComparison
  | 23 => afterComparison
  | 24 => afterComparison
  | _ => 0

/-- States in which a statement may end. -/
def Ends (state : Nat) : Prop := state ∈ [5, 11, 18, 23, 24]

instance (state : Nat) : Decidable (Ends state) := inferInstanceAs (Decidable (_ ∈ _))

section
variable (a : Ptype) (w : List Ptype)

theorem cons_mem_afterItem : a :: w ∈ afterItem ↔ a = .commas ∧ w ∈ letter .literal * afterItem := by
  rw [afterItem, cons_mem_kstar_letter_mul]
  simp [Language.mem_one]

theorem comparison_mul (l : Language Ptype) : comparison * l =
    (letter .parens)∗ * (letter .literal * (letter .relational * (letter .literal * ((letter .parens)∗ * l)))) := by
  simp only [comparison, mul_assoc]

theorem cons_mem_afterComparison : a :: w ∈ afterComparison ↔
    a = .logical ∧ w ∈ afterWhere ∨ a = .parens ∧ w ∈ afterComparison := by
  rw [afterComparison, cons_mem_kstar_letter, cons_mem_kstar_letter_mul, comparison_mul, afterWhere, afterComparison]
  simp [Language.mem_one]

theorem cons_mem_afterWhere : a :: w ∈ afterWhere ↔
    (a = .literal ∧ w ∈ letter .relational * (letter .literal * afterComparison)) ∨ a = .parens ∧ w ∈ afterWhere := by
  rw [afterWhere, cons_mem_kstar_letter, cons_mem_letter_mul]

theorem cons_mem_afterField : a :: w ∈ afterField ↔
    a = .from_ ∧ w ∈ afterFrom ∨ a = .commas ∧ w ∈ letter .literal * afterField := by
  rw [afterField, cons_mem_kstar_letter_mul, cons_mem_letter_mul]

theorem cons_mem_afterTable : a :: w ∈ 1 + letter .where_ * afterWhere ↔ a = .where_ ∧ w ∈ afterWhere := by
  rw [Language.mem_add, cons_mem_letter_mul]
  simp [Language.mem_one]

end

theorem nil_mem_afterItem : [] ∈ afterItem := (nil_mem_kstar_letter_mul _ _ _).2 rfl

theorem nil_mem_afterComparison : [] ∈ afterComparison :=
  (nil_mem_kstar_letter _ _).2 ((nil_mem_kstar_letter_mul _ _ _).2 rfl)

theorem nil_mem_follows : ∀ state : Nat, [] ∈ follows state ↔ Ends state
  | 0 => iff_of_false (fun h => h.elim (nil_mem_letter_mul _ _) (nil_mem_letter_mul _ _)) (by decide)
  | 1 => iff_of_false (nil_mem_letter_mul _ _) (by decide)
  | 2 => iff_of_false (nil_mem_letter_mul _ _) (by decide)
  | 3 => iff_of_false (nil_mem_letter_mul _ _) (by decide)
  | 4 => iff_of_false (nil_mem_letter_mul _ _) (by decide)
  | 5 => iff_of_true nil_mem_afterItem (by decide)
  | 6 => iff_of_false (nil_mem_letter_mul _ _) (by decide)
  | 7 => iff_of_false (nil_mem_letter_mul _ _) (by decide)
  | 8 => iff_of_false (nil_mem_letter_mul _ _) (by decide)
  | 9 => iff_of_false (nil_mem_letter_mul _ _) (by decide)
  | 10 => iff_of_false (nil_mem_letter_mul _ _) (by decide)
  | 11 => iff_of_true nil_mem_afterItem (by decide)
  | 12 => iff_of_false (nil_mem_letter_mul _ _) (by decide)
  | 13 => iff_of_false (fun h => h.elim (nil_mem_letter_mul _ _) (nil_mem_letter_mul _ _)) (by decide)
  | 14 => iff_of_false (fun h => nil_mem_letter_mul _ _ ((nil_mem_kstar_letter_mul _ _ _).1 h)) (by decide)
  | 15 => iff_of_false (nil_mem_letter_mul _ _) (by decide)
  | 16 => iff_of_false (nil_mem_letter_mul _ _) (by decide)
  | 17 => iff_of_false (nil_mem_letter_mul _ _) (by decide)
  | 18 => iff_of_true (Or.inl rfl) (by decide)
  | 19 => iff_of_false (fun h => nil_mem_letter_mul _ _ ((nil_mem_kstar_letter _ _).1 h)) (by decide)
  | 20 => iff_of_false (fun h => nil_mem_letter_mul _ _ ((nil_mem_kstar_letter _ _).1 h)) (by decide)
  | 21 => iff_of_false (nil_mem_letter_mul _ _) (by decide)
  | 22 => iff_of_false (nil_mem_letter_mul _ _) (by decide)
  | 23 => iff_of_true nil_mem_afterComparison (by decide)
  | 24 => iff_of_true nil_mem_afterComparison (by decide)
  | n + 25 => iff_of_false (Language.notMem_zero _) (by simp [Ends])

section
variable {state t u : Nat} {a b c : Ptype} {w : List Ptype}

/-- A state with one transition. -/
theorem one_step (h : next state a = if a = b then some t else none) :
    a = b ∧ w ∈ follows t ↔ ∃ state', next state a = some state' ∧ w ∈ follows state' := by
  rw [h]
  by_cases hb : a = b
  · simp [hb]
  · simp [hb]

/-- A state with two transitions. -/
theorem two_steps (hbc : b ≠ c) (h : next state a = if a = b then some t else if a = c then some u else none) :
    a = b ∧ w ∈ follows t ∨ a = c ∧ w ∈ follows u ↔ ∃ state', next state a = some state' ∧ w ∈ follows state' := by
  rw [h]
  by_cases hb : a = b
  · simp [hb, hbc]
  · by_cases hc : a = c
    · simp [hc, hbc.symm]
    · simp [hb, hc]

end

/-- **What may follow a state, taken apart at its first type, is the table's transition.** -/
theorem cons_mem_follows : ∀ (state : Nat) (a : Ptype) (w : List Ptype),
    a :: w ∈ follows state ↔ ∃ state', next state a = some state' ∧ w ∈ follows state'
  | 0, a, w => by
    rw [follows, Language.mem_add, cons_mem_letter_mul, cons_mem_letter_mul]
    exact two_steps (t := 7) (u := 13) (by decide) (by cases a <;> rfl)
  | 1, a, w => (cons_mem_letter_mul _ _ _ _).trans (one_step (t := 2) (by cases a <;> rfl))
  | 2, a, w => (cons_mem_letter_mul _ _ _ _).trans (one_step (t := 3) (by cases a <;> rfl))
  | 3, a, w => (cons_mem_letter_mul _ _ _ _).trans (one_step (t := 4) (by cases a <;> rfl))
  | 4, a, w => (cons_mem_letter_mul _ _ _ _).trans (one_step (t := 5) (by cases a <;> rfl))
  | 5, a, w => (cons_mem_afterItem _ _).trans (one_step (t := 6) (by cases a <;> rfl))
  | 6, a, w => (cons_mem_letter_mul _ _ _ _).trans (one_step (t := 5) (by cases a <;> rfl))
  | 7, a, w => (cons_mem_letter_mul _ _ _ _).trans (one_step (t := 8) (by cases a <;> rfl))
  | 8, a, w => (cons_mem_letter_mul _ _ _ _).trans (one_step (t := 9) (by cases a <;> rfl))
  | 9, a, w => (cons_mem_letter_mul _ _ _ _).trans (one_step (t := 10) (by cases a <;> rfl))
  | 10, a, w => (cons_mem_letter_mul _ _ _ _).trans (one_step (t := 11) (by cases a <;> rfl))
  | 11, a, w => (cons_mem_afterItem _ _).trans (one_step (t := 12) (by cases a <;> rfl))
  | 12, a, w => (cons_mem_letter_mul _ _ _ _).trans (one_step (t := 11) (by cases a <;> rfl))
  | 13, a, w => by
    rw [follows, Language.mem_add, cons_mem_letter_mul, cons_mem_letter_mul]
    exact two_steps (t := 16) (u := 14) (by decide) (by cases a <;> rfl)
  | 14, a, w => (cons_mem_afterField _ _).trans (two_steps (t := 17) (u := 15) (by decide) (by cases a <;> rfl))
  | 15, a, w => (cons_mem_letter_mul _ _ _ _).trans (one_step (t := 14) (by cases a <;> rfl))
  | 16, a, w => (cons_mem_letter_mul _ _ _ _).trans (one_step (t := 17) (by cases a <;> rfl))
  | 17, a, w => (cons_mem_letter_mul _ _ _ _).trans (one_step (t := 18) (by cases a <;> rfl))
  | 18, a, w => (cons_mem_afterTable _ _).trans (one_step (t := 19) (by cases a <;> rfl))
  | 19, a, w => (cons_mem_afterWhere _ _).trans (two_steps (t := 21) (u := 20) (by decide) (by cases a <;> rfl))
  | 20, a, w => (cons_mem_afterWhere _ _).trans (two_steps (t := 21) (u := 20) (by decide) (by cases a <;> rfl))
  | 21, a, w => (cons_mem_letter_mul _ _ _ _).trans (one_step (t := 22) (by cases a <;> rfl))
  | 22, a, w => (cons_mem_letter_mul _ _ _ _).trans (one_step (t := 23) (by cases a <;> rfl))
  | 23, a, w => (cons_mem_afterComparison _ _).trans (two_steps (t := 19) (u := 24) (by decide) (by cases a <;> rfl))
  | 24, a, w => (cons_mem_afterComparison _ _).trans (two_steps (t := 19) (u := 24) (by decide) (by cases a <;> rfl))
  | n + 25, a, w => by
    refine iff_of_false (Language.notMem_zero _) (fun h => ?_)
    obtain ⟨state', hnext, -⟩ := h
    cases a with
    | _ => cases hnext

/-- The runs of the table off column 0. -/
theorem run_next_iff (w : List Ptype) (state : Nat) : w ∈ follows state ↔ ∃ last, run next state w = some last ∧ Ends last :=
  run_iff nil_mem_follows cons_mem_follows w state

/-! ## Statements -/

theorem condition_eq : condition = follows 19 := by
  rw [condition, comparison_mul, follows, afterWhere, afterComparison, mul_one]

/-- A statement of the grammar is its keyword and what follows it. -/
theorem grammar_eq : grammar = letter .create * follows 1 + letter .insert * follows 7 + letter .select * follows 13 := by
  have hliterals : literals = letter .literal * afterItem := by rw [literals, afterItem, mul_one]
  have hselect : selectGrammar = letter .select * follows 13 := by
    rw [selectGrammar, condition_eq, literals, follows, follows, afterField, afterFrom]
    simp only [mul_assoc, add_mul]
  rw [grammar, hselect, createGrammar, insertGrammar, hliterals]
  simp only [mul_assoc, follows]

theorem cons_mem_grammar (a : Ptype) (w : List Ptype) :
    a :: w ∈ grammar ↔ ∃ name state, commandOf a = some (name, state) ∧ w ∈ follows state := by
  rw [grammar_eq]
  simp only [Language.mem_add, cons_mem_letter_mul]
  cases a with
  | create => simp [commandOf]
  | insert => simp [commandOf]
  | select => simp [commandOf]
  | _ => simp [commandOf]

theorem nil_mem_grammar : ¬ [] ∈ grammar := by
  rw [grammar_eq]
  rintro ((h | h) | h)
  · exact nil_mem_letter_mul _ _ h
  · exact nil_mem_letter_mul _ _ h
  · exact nil_mem_letter_mul _ _ h

theorem next_create (state : Nat) : next state .create = none := by
  by_cases hstate : state < 25
  · revert state
    decide
  · obtain ⟨n, rfl⟩ := Nat.exists_eq_add_of_le' (not_lt.1 hstate)
    rfl

/-- Off column 0 no run passes a `create`. -/
theorem create_not_mem_of_run {last : Nat} : ∀ {w : List Ptype} {state : Nat}, run next state w = some last → .create ∉ w
  | [], _, _ => List.not_mem_nil
  | a :: w, state, h => by
    rw [run_cons] at h
    obtain ⟨t, ht, hrest⟩ := Option.bind_eq_some_iff.1 h
    refine List.not_mem_cons_of_ne_of_not_mem (fun heq => ?_) (create_not_mem_of_run hrest)
    rw [← heq, next_create] at ht
    cases ht

theorem create_not_mem_follows {w : List Ptype} {state : Nat} (h : w ∈ follows state) : .create ∉ w := by
  obtain ⟨last, hrun, -⟩ := (run_next_iff w state).1 h
  exact create_not_mem_of_run hrun

theorem next_range {state state' : Nat} {a : Ptype} (hstate : state < 25) (h : next state a = some state') :
    0 < state' ∧ state' < 25 := by
  have hall : ∀ state < 25, (next state a).all (fun state' => decide (0 < state' ∧ state' < 25)) = true := by
    cases a with
    | _ => decide
  have hnext := hall state hstate
  rw [h] at hnext
  exact of_decide_eq_true hnext

theorem run_next_range {last : Nat} : ∀ {w : List Ptype} {state : Nat}, 0 < state ∧ state < 25 →
    run next state w = some last → 0 < last ∧ last < 25
  | [], _, hstate, h => Option.some.inj h ▸ hstate
  | a :: w, state, hstate, h => by
    rw [run_cons] at h
    obtain ⟨t, ht, hrest⟩ := Option.bind_eq_some_iff.1 h
    exact run_next_range (next_range hstate.2 ht) hrest

/-! ## The whole table -/

/-- A step of the table, column 0 included. -/
def tableStep (state : Nat) (type : Ptype) : Option Nat := parserTable state type.code

theorem runTable_types (state : Nat) (input : List (SToken × Ptype)) :
    runTable state input = run tableStep state (input.map Prod.snd) := by
  rw [run, List.foldlM_map]
  rfl

/-- Without a `create` the column does not matter. -/
theorem run_tableStep {state : Nat} : ∀ {w : List Ptype}, state < 25 → .create ∉ w → run tableStep state w = run next state w
  | [], _, _ => rfl
  | a :: w, hstate, h => by
    rw [run_cons, run_cons, tableStep, parserTable_eq hstate (List.ne_of_not_mem_cons h).symm]
    cases hnext : next state a with
    | none => rfl
    | some t => exact run_tableStep (next_range hstate hnext).2 (List.not_mem_of_not_mem_cons h)

/-- What `parse` accepts, by the types. -/
def Accepted (types : List Ptype) : Prop := ∃ head rest name state last, types = head :: rest ∧
  commandOf head = some (name, state) ∧ run tableStep state rest = some last ∧ Final last

theorem parse_isSome_iff (input : List (SToken × Ptype)) :
    (∃ tree, parse input = some tree) ↔ Accepted (input.map Prod.snd) := by
  constructor
  · rintro ⟨tree, h⟩
    obtain ⟨token, type, rest, name, state, last, rfl, hcommand, hrun, hfinal, -⟩ := parse_some h
    exact ⟨type, rest.map Prod.snd, name, state, last, rfl, hcommand, runTable_types state rest ▸ hrun, hfinal⟩
  · rintro ⟨type, types, name, state, last, htypes, hcommand, hrun, hfinal⟩
    rcases input with _ | ⟨⟨token, type'⟩, rest⟩
    · cases htypes
    obtain ⟨rfl, rfl⟩ := List.cons.inj htypes
    obtain ⟨tree, -, hparse⟩ := parse_cons hcommand token rest
    exact ⟨tree, by rw [hparse, runTable_types, hrun, Option.bind_some, if_pos hfinal]⟩

/-- The beginning of a statement. -/
def Beginning (types : List Ptype) : Prop := types ≠ [] ∧ ∃ rest, types ++ rest ∈ grammar

/-- **A chain of statements**: a `create` behind a beginning starts over, or ends the command as if it were complete; one
behind a whole statement is the first word of the next. -/
inductive Chain : List Ptype → Prop where
  | statement {types : List Ptype} (h : types ∈ grammar) : Chain types
  | cut {front : List Ptype} (h : Beginning front) (hopen : front ∉ grammar) : Chain (front ++ [.create])
  | restart {front back : List Ptype} (h : Beginning front) (hopen : front ∉ grammar) (hback : Chain back) :
      Chain (front ++ .create :: back)
  | create {front back : List Ptype} (h : front ∈ grammar) (hback : Chain (.create :: back)) :
      Chain (front ++ .create :: back)

/-- Some words that lead from a state to a final one. -/
def completion : Nat → List Ptype
  | 1 => [.table, .literal, .fields, .literal]
  | 2 => [.literal, .fields, .literal]
  | 3 => [.fields, .literal]
  | 7 => [.into, .literal, .values, .literal]
  | 8 => [.literal, .values, .literal]
  | 9 => [.values, .literal]
  | 13 => [.asterisk, .from_, .literal]
  | 15 => [.literal, .from_, .literal]
  | 14 | 16 => [.from_, .literal]
  | 4 | 6 | 10 | 12 | 17 | 22 => [.literal]
  | 19 | 20 => [.literal, .relational, .literal]
  | 21 => [.relational, .literal]
  | _ => []

theorem completion_mem {state : Nat} (h : 0 < state ∧ state < 25) : completion state ∈ follows state := by
  have hall : ∀ state < 25, 0 < state → (run next state (completion state)).any (fun last => decide (Ends last)) = true := by
    decide
  have hany := hall state h.2 h.1
  cases hrun : run next state (completion state) with
  | none =>
    rw [hrun] at hany
    cases hany
  | some last =>
    rw [hrun] at hany
    exact (run_next_iff _ _).2 ⟨last, hrun, of_decide_eq_true hany⟩

theorem commandOf_range {a : Ptype} {name : Bytes} {state : Nat} (h : commandOf a = some (name, state)) :
    0 < state ∧ state < 25 := by
  cases a with
  | create => cases h; decide
  | insert => cases h; decide
  | select => cases h; decide
  | _ => cases h

/-- A beginning is a keyword and a run. -/
theorem beginning_cons_iff (a : Ptype) (w : List Ptype) : Beginning (a :: w) ↔
    ∃ name state last, commandOf a = some (name, state) ∧ run next state w = some last := by
  constructor
  · rintro ⟨-, rest, h⟩
    obtain ⟨name, state, hcommand, hmem⟩ := (cons_mem_grammar a (w ++ rest)).1 h
    obtain ⟨u, hu, -⟩ := (run_next_iff _ _).1 hmem
    rw [run_append] at hu
    obtain ⟨last, hlast, -⟩ := Option.bind_eq_some_iff.1 hu
    exact ⟨name, state, last, hcommand, hlast⟩
  · rintro ⟨name, state, last, hcommand, hrun⟩
    have hlast := run_next_range (commandOf_range hcommand) hrun
    obtain ⟨u, hu, hends⟩ := (run_next_iff _ _).1 (completion_mem hlast)
    refine ⟨List.cons_ne_nil _ _, completion last, ?_⟩
    rw [List.cons_append, cons_mem_grammar]
    exact ⟨name, state, hcommand, (run_next_iff _ _).2 ⟨u, by rw [run_append, hrun]; exact hu, hends⟩⟩

theorem ends_iff_final {state : Nat} (h : 0 < state) : Ends state ↔ Final state := by
  simp [Ends, Final, h.ne']

/-- A run from the first `create` of a word on. -/
theorem run_create {front back : List Ptype} {state : Nat} (hstate : 0 < state ∧ state < 25) (hfront : .create ∉ front) :
    run tableStep state (front ++ .create :: back) =
      (run next state front).bind (fun t => run tableStep (if Ends t then 1 else 0) back) := by
  rw [run_append, run_tableStep hstate.2 hfront]
  cases hrun : run next state front with
  | none => rfl
  | some t =>
    have ht := run_next_range hstate hrun
    rw [Option.bind_some, Option.bind_some, run_cons, tableStep, parserTable_create ht.2, Option.bind_some]
    simp only [ends_iff_final ht.1]

/-- A run from state 0 is one of a command. -/
theorem run_zero (a : Ptype) (w : List Ptype) :
    (∃ last, run tableStep 0 (a :: w) = some last ∧ Final last) ↔ Accepted (a :: w) := by
  rw [run_cons]
  constructor
  · rintro ⟨last, hrun, hfinal⟩
    obtain ⟨t, ht, hrest⟩ := Option.bind_eq_some_iff.1 hrun
    cases hcommand : commandOf a with
    | none =>
      have hnone : tableStep 0 a = none := by
        cases a with
        | create => cases hcommand
        | insert => cases hcommand
        | select => cases hcommand
        | _ => decide
      rw [hnone] at ht
      cases ht
    | some command =>
      obtain ⟨name, state⟩ := command
      obtain rfl := Option.some.inj (ht.symm.trans (startTree_get hcommand).1)
      exact ⟨a, w, name, t, last, rfl, hcommand, hrest, hfinal⟩
  · rintro ⟨_, _, name, state, last, hcons, hcommand, hrun, hfinal⟩
    obtain ⟨rfl, rfl⟩ := List.cons.inj hcons
    exact ⟨last, by rw [tableStep, (startTree_get hcommand).1]; exact hrun, hfinal⟩

/-- Acceptance, split at the first `create` behind the first word. -/
theorem accepted_create_iff (a : Ptype) {front : List Ptype} (back : List Ptype) (hfront : .create ∉ front) :
    Accepted (a :: front ++ .create :: back) ↔ a :: front ∈ grammar ∧ Accepted (.create :: back) ∨
      (Beginning (a :: front) ∧ a :: front ∉ grammar) ∧ (back = [] ∨ Accepted back) := by
  have hzero : (∃ last, run tableStep 0 back = some last ∧ Final last) ↔ back = [] ∨ Accepted back := by
    cases back with
    | nil => exact iff_of_true ⟨0, rfl, by decide⟩ (Or.inl rfl)
    | cons b back => rw [run_zero, or_iff_right (List.cons_ne_nil b back)]
  have hone : (∃ last, run tableStep 1 back = some last ∧ Final last) ↔ Accepted (.create :: back) := by
    rw [← run_zero, run_cons, tableStep, parserTable_create (by decide), if_pos (by decide), Option.bind_some]
  rw [List.cons_append, beginning_cons_iff, cons_mem_grammar, ← hzero, ← hone]
  constructor
  · rintro ⟨_, _, name, state, last, hcons, hcommand, hrun, hfinal⟩
    obtain ⟨rfl, rfl⟩ := List.cons.inj hcons
    rw [run_create (commandOf_range hcommand) hfront] at hrun
    obtain ⟨t, ht, hback⟩ := Option.bind_eq_some_iff.1 hrun
    by_cases hends : Ends t
    · rw [if_pos hends] at hback
      exact Or.inl ⟨⟨name, state, hcommand, (run_next_iff _ _).2 ⟨t, ht, hends⟩⟩, last, hback, hfinal⟩
    · rw [if_neg hends] at hback
      refine Or.inr ⟨⟨⟨name, state, t, hcommand, ht⟩, ?_⟩, last, hback, hfinal⟩
      rintro ⟨name', state', hcommand', hmem⟩
      cases hcommand.symm.trans hcommand'
      obtain ⟨t', ht', hends'⟩ := (run_next_iff _ _).1 hmem
      cases ht.symm.trans ht'
      exact hends hends'
  · rintro (⟨⟨name, state, hcommand, hmem⟩, last, hback, hfinal⟩ |
      ⟨⟨⟨name, state, t, hcommand, ht⟩, hopen⟩, last, hback, hfinal⟩)
    · obtain ⟨t, ht, hends⟩ := (run_next_iff _ _).1 hmem
      refine ⟨a, _, name, state, last, rfl, hcommand, ?_, hfinal⟩
      rw [run_create (commandOf_range hcommand) hfront, ht, Option.bind_some, if_pos hends]
      exact hback
    · have hends : ¬ Ends t := fun hends => hopen ⟨name, state, hcommand, (run_next_iff _ _).2 ⟨t, ht, hends⟩⟩
      refine ⟨a, _, name, state, last, rfl, hcommand, ?_, hfinal⟩
      rw [run_create (commandOf_range hcommand) hfront, ht, Option.bind_some, if_neg hends]
      exact hback

/-- Acceptance without a `create` behind the first word. -/
theorem accepted_plain_iff (a : Ptype) {rest : List Ptype} (hrest : .create ∉ rest) :
    Accepted (a :: rest) ↔ a :: rest ∈ grammar := by
  rw [cons_mem_grammar]
  constructor
  · rintro ⟨_, _, name, state, last, hcons, hcommand, hrun, hfinal⟩
    obtain ⟨rfl, rfl⟩ := List.cons.inj hcons
    have hrange := commandOf_range hcommand
    rw [run_tableStep hrange.2 hrest] at hrun
    exact ⟨name, state, hcommand, (run_next_iff _ _).2 ⟨last, hrun,
      (ends_iff_final (run_next_range hrange hrun).1).2 hfinal⟩⟩
  · rintro ⟨name, state, hcommand, hmem⟩
    have hrange := commandOf_range hcommand
    obtain ⟨last, hrun, hends⟩ := (run_next_iff _ _).1 hmem
    exact ⟨a, rest, name, state, last, rfl, hcommand, by rw [run_tableStep hrange.2 hrest, hrun],
      (ends_iff_final (run_next_range hrange hrun).1).1 hends⟩

theorem create_not_mem_tail {types : List Ptype} (h : types ∈ grammar) : .create ∉ types.tail := by
  cases types with
  | nil => exact absurd h nil_mem_grammar
  | cons a rest =>
    obtain ⟨name, state, -, hmem⟩ := (cons_mem_grammar a rest).1 h
    exact create_not_mem_follows hmem

theorem Beginning.cons {types : List Ptype} (h : Beginning types) : ∃ a front, types = a :: front ∧ .create ∉ front := by
  obtain ⟨hne, rest, hmem⟩ := h
  obtain ⟨a, front, rfl⟩ := List.exists_cons_of_ne_nil hne
  exact ⟨a, front, rfl, fun hcreate => create_not_mem_tail hmem (List.mem_append_left rest hcreate)⟩

theorem Beginning.of_mem {types : List Ptype} (h : types ∈ grammar) : Beginning types := by
  refine ⟨?_, [], by rwa [List.append_nil]⟩
  rintro rfl
  exact nil_mem_grammar h

/-- **The table accepts the chains of statements**, and nothing else. -/
theorem accepted_iff_chain (types : List Ptype) : Accepted types ↔ Chain types := by
  constructor
  · induction hn : types.length using Nat.strong_induction_on generalizing types with
    | _ n ih =>
      intro h
      obtain ⟨a, rest, rfl⟩ : ∃ a rest, types = a :: rest := by
        obtain ⟨a, rest, -, -, -, rfl, -⟩ := h
        exact ⟨a, rest, rfl⟩
      by_cases hcreate : .create ∈ rest
      · obtain ⟨front, back, rfl, hfront⟩ := List.eq_append_cons_of_mem hcreate
        rw [List.length_cons, List.length_append, List.length_cons] at hn
        rcases (accepted_create_iff a back hfront).1 h with ⟨hmem, hback⟩ | ⟨⟨hbegin, hopen⟩, rfl | hback⟩
        · exact .create hmem (ih _ (by rw [List.length_cons]; omega) _ rfl hback)
        · exact .cut hbegin hopen
        · exact .restart hbegin hopen (ih _ (by omega) _ rfl hback)
      · exact .statement ((accepted_plain_iff a hcreate).1 h)
  · intro h
    induction h with
    | @statement types h =>
      obtain ⟨a, rest, rfl, hrest⟩ := (Beginning.of_mem h).cons
      exact (accepted_plain_iff a hrest).2 h
    | @cut front h hopen =>
      obtain ⟨a, front, rfl, hfront⟩ := h.cons
      exact (accepted_create_iff a [] hfront).2 (Or.inr ⟨⟨h, hopen⟩, Or.inl rfl⟩)
    | @restart front back h hopen _ ih =>
      obtain ⟨a, front, rfl, hfront⟩ := h.cons
      exact (accepted_create_iff a back hfront).2 (Or.inr ⟨⟨h, hopen⟩, Or.inr ih⟩)
    | @create front back h _ ih =>
      obtain ⟨a, front, rfl, hfront⟩ := (Beginning.of_mem h).cons
      exact (accepted_create_iff a back hfront).2 (Or.inl ⟨h, ih⟩)

/-! ## Trees of the grammar -/

/-- What an accepted rest of a statement adds from some states: the weight of a state is the number of texts to come. -/
theorem length_textsAt (states : List Nat) (weight : Nat → Nat)
    (hstep : ∀ a, ∀ state < 25, (next state a).all (fun t => decide
      ((if t ∈ states then 1 else 0) + weight t = weight state)))
    {last : Nat} : ∀ {input : List (SToken × Ptype)} {state : Nat}, state < 25 → .create ∉ input.map Prod.snd →
      runTable state input = some last → (textsAt states (entered state input)).length + weight last = weight state
  | [], state, _, _, h => by
    obtain rfl := Option.some.inj h
    exact Nat.zero_add _
  | (token, a) :: input, state, hstate, hplain, h => by
    have hplain' := List.ne_and_not_mem_of_not_mem_cons hplain
    rw [runTable_cons] at h
    obtain ⟨t, ht, hrest⟩ := Option.bind_eq_some_iff.1 h
    have hnext : next state a = some t := by rw [← parserTable_eq hstate hplain'.1.symm]; exact ht
    have hweight := hstep a state hstate
    rw [hnext] at hweight
    have hweight' : (if t ∈ states then 1 else 0) + weight t = weight state := of_decide_eq_true hweight
    have ih := length_textsAt states weight hstep (next_range hstate hnext).2 hplain'.2 hrest
    rw [entered_cons ht, textsAt_cons, List.length_append, Nat.add_assoc, ih, ← hweight']
    split
    · rfl
    · rfl

/-- A run that leaves the states of `before` does so into some states. -/
theorem textsAt_ne_nil (before : List Nat) {states : List Nat}
    (hstep : ∀ a, ∀ state < 25, state ∈ before → (next state a).all (fun t => decide (t ∈ before ∨ t ∈ states)))
    {last : Nat} (hlast : last ∉ before) : ∀ {input : List (SToken × Ptype)} {state : Nat}, state < 25 → state ∈ before →
      .create ∉ input.map Prod.snd → runTable state input = some last → textsAt states (entered state input) ≠ []
  | [], state, _, hbefore, _, h => absurd (Option.some.inj h ▸ hbefore) hlast
  | (token, a) :: input, state, hstate, hbefore, hplain, h => by
    have hplain' := List.ne_and_not_mem_of_not_mem_cons hplain
    rw [runTable_cons] at h
    obtain ⟨t, ht, hrest⟩ := Option.bind_eq_some_iff.1 h
    have hnext : next state a = some t := by rw [← parserTable_eq hstate hplain'.1.symm]; exact ht
    have hor := hstep a state hstate hbefore
    rw [hnext] at hor
    rw [entered_cons ht, textsAt_cons]
    by_cases hin : t ∈ states
    · rw [if_pos hin]
      exact List.cons_ne_nil _ _
    · rw [if_neg hin]
      exact textsAt_ne_nil before hstep hlast (next_range hstate hnext).2 ((of_decide_eq_true hor).resolve_right hin)
        hplain'.2 hrest

/-- One command, one table, and something to do it with. -/
structure Complete (tree : MMap Bytes Bytes) : Prop where
  command : (tree.get (ascii "command")).length = 1
  tableName : (tree.get (ascii "table_name")).length = 1
  fields : tree.get (ascii "command") = [ascii "create"] ∨ tree.get (ascii "command") = [ascii "select"] →
    tree.get (ascii "fields") ≠ []
  values : tree.get (ascii "command") = [ascii "insert"] → tree.get (ascii "values") ≠ []

/-- States in front of the name of the table. -/
def nameWeight (state : Nat) : Nat := if state ∈ [0, 1, 2, 7, 8, 13, 14, 15, 16, 17] then 1 else 0

theorem Holds.complete {tree : MMap Bytes Bytes} {head : Ptype} {name : Bytes} {state last : Nat}
    {input : List (SToken × Ptype)} (h : Holds tree name (entered state input))
      (hcommand : commandOf head = some (name, state))
    (hplain : .create ∉ input.map Prod.snd) (hrun : runTable state input = some last) (hfinal : Final last) :
    Complete tree := by
  have hstate := commandOf_range hcommand
  have hlast : Ends last := by
    rw [runTable_types, run_tableStep hstate.2 hplain] at hrun
    exact (ends_iff_final (run_next_range hstate hrun).1).2 hfinal
  have hname := length_textsAt [3, 9, 18] nameWeight (by intro a; cases a <;> decide) hstate.2
    hplain hrun
  have hbefore : ∀ before : List Nat, (∀ s ∈ before, ¬ Ends s) → last ∉ before := fun before h1 h2 => h1 last h2 hlast
  refine ⟨by rw [h.command]; rfl, ?_, fun hc => ?_, fun hc => ?_⟩
  · have hweight : nameWeight last = 0 ∧ nameWeight state = 1 := by
      constructor
      · exact if_neg (hbefore _ (by decide))
      · cases head with
        | create => cases hcommand; rfl
        | insert => cases hcommand; rfl
        | select => cases hcommand; rfl
        | _ => cases hcommand
    rw [h.tableName]
    omega
  · rw [h.fields]
    refine textsAt_ne_nil [1, 2, 3, 4, 13] (by intro a; cases a <;> decide) (hbefore _ (by decide)) hstate.2 ?_
      hplain hrun
    rw [h.command] at hc
    cases head with
    | create => cases hcommand; decide
    | insert => cases hcommand; exact absurd hc (by decide)
    | select => cases hcommand; decide
    | _ => cases hcommand
  · rw [h.values]
    refine textsAt_ne_nil [7, 8, 9, 10] (by intro a; cases a <;> decide) (hbefore _ (by decide)) hstate.2 ?_
      hplain hrun
    rw [h.command] at hc
    cases head with
    | create => cases hcommand; exact absurd hc (by decide)
    | insert => cases hcommand; decide
    | select => cases hcommand; exact absurd hc (by decide)
    | _ => cases hcommand

/-! ## Trees of commands -/

/-- A command gives the tree of its tokens, or the empty one. -/
theorem parseTree_items (cmd : Bytes) : (parseTree cmd).items ≠ [] ↔
    ∃ input, tokenize cmd = some input ∧ parse input = some (parseTree cmd) := by
  unfold parseTree
  constructor
  · intro h
    cases htokens : tokenize cmd with
    | none =>
      rw [htokens] at h
      exact absurd rfl h
    | some input =>
      cases hparse : parse input with
      | none =>
        rw [htokens, Option.bind_some, hparse] at h
        exact absurd rfl h
      | some tree => exact ⟨input, rfl, by rw [Option.bind_some, hparse]; rfl⟩
  · rintro ⟨input, htokens, hparse⟩
    obtain ⟨token, type, rest, name, state, last, -, -, -, -, hholds⟩ := parse_some hparse
    exact hholds.ne_empty

/-- The types are a chain that a `create` joins. -/
def Spliced (types : List Ptype) : Prop := Chain types ∧ .create ∈ types.tail

/-- **The parser accepts its grammar, with complete trees, on every command but the spliced ones.** -/
theorem parseTree_grammar_iff (cmd : Bytes) :
    (((parseTree cmd).items ≠ [] ↔ ∃ input, tokenize cmd = some input ∧ input.map Prod.snd ∈ grammar) ∧
      ((parseTree cmd).items ≠ [] → Complete (parseTree cmd))) ↔
    ¬ ∃ input, tokenize cmd = some input ∧ Spliced (input.map Prod.snd) := by
  have haccepted : ∀ input, tokenize cmd = some input → (Chain (input.map Prod.snd) ↔ (parseTree cmd).items ≠ []) := by
    intro input htokens
    rw [← accepted_iff_chain, ← parse_isSome_iff, parseTree_items]
    constructor
    · rintro ⟨tree, hparse⟩
      exact ⟨input, htokens, by rw [hparse, parseTree, htokens, Option.bind_some, hparse]; rfl⟩
    · rintro ⟨input', htokens', hparse⟩
      obtain rfl := Option.some.inj (htokens.symm.trans htokens')
      exact ⟨_, hparse⟩
  constructor
  · rintro ⟨hiff, -⟩ ⟨input, htokens, hchain, hcreate⟩
    obtain ⟨input', htokens', hmem⟩ := hiff.1 ((haccepted input htokens).1 hchain)
    obtain rfl := Option.some.inj (htokens.symm.trans htokens')
    exact create_not_mem_tail hmem hcreate
  · intro hspliced
    have hmem : ∀ input, tokenize cmd = some input → (parseTree cmd).items ≠ [] → .create ∉ (input.map Prod.snd).tail :=
      fun input htokens hitems hcreate => hspliced ⟨input, htokens, (haccepted input htokens).2 hitems, hcreate⟩
    refine ⟨⟨fun hitems => ?_, ?_⟩, fun hitems => ?_⟩
    · obtain ⟨input, htokens, hparse⟩ := (parseTree_items cmd).1 hitems
      refine ⟨input, htokens, ?_⟩
      have haccept := (parse_isSome_iff input).1 ⟨_, hparse⟩
      have htail := hmem input htokens hitems
      obtain ⟨head, rest, -, -, -, htypes, -⟩ := id haccept
      rw [htypes] at haccept htail ⊢
      exact (accepted_plain_iff head htail).1 haccept
    · rintro ⟨input, htokens, hgrammar⟩
      exact (haccepted input htokens).1 (.statement hgrammar)
    · obtain ⟨input, htokens, hparse⟩ := (parseTree_items cmd).1 hitems
      obtain ⟨token, type, rest, name, state, last, rfl, hcommand, hrun, hfinal, hholds⟩ := parse_some hparse
      exact hholds.complete hcommand (hmem _ htokens hitems) hrun hfinal

/-- `create create`: a tree without a table. -/
theorem parseTree_create_create : (parseTree (ascii "create create")).items ≠ [] ∧
    (parseTree (ascii "create create")).get (ascii "table_name") = [] ∧
    ¬ ∃ input, tokenize (ascii "create create") = some input ∧ input.map Prod.snd ∈ grammar := by
  have htokens : (tokenize (ascii "create create")).map (fun input => input.map Prod.snd) = some [.create, .create] := by
    decide +kernel
  refine ⟨by decide +kernel, by decide +kernel, ?_⟩
  rintro ⟨input, hinput, hmem⟩
  rw [hinput] at htokens
  have htypes : input.map Prod.snd = [.create, .create] := Option.some.inj htokens
  rw [htypes] at hmem
  exact create_not_mem_tail hmem (by decide)

end Query
end Sql
