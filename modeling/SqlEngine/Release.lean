import SqlEngine.Yard
/-!
# Release — a select on its queues, its stacks and the files

`Table::select` on strings as a program over three machines side by side: the queues and stacks of tokens, the stack of
record sets, and the files.  It ends with a table, with the error of the shunting yard, or by an exception that is thrown in
front of `Eval`, inside of it or behind it and passes the handler.  On linked lists its outcome is that of `selectStrings`
in every case, each token is deleted once, and no node is left behind (`select_released`).
-/
namespace Sql
namespace LinkedList

open Simulation Wire Query Storage

/-! ## Three machines -/

section
variable {A : Type}

/-- The files answer one call after another; behind each is what was done to them so far. -/
def filesStep (s : Files × List FileEffect) (call : FileCall A) : Option (Except StorageError A × Files × List FileEffect) :=
  some ((call s.1).result, Effects.after s.1 (call s.1).effects, s.2 ++ (call s.1).effects)

abbrev SelectOp := Op Token ⊕ Op (List Nat) ⊕ FileCall (List Nat × Table)

abbrev SelectAnswer := Answer Token ⊕ Answer (List Nat) ⊕ Except StorageError (List Nat × Table)

abbrev Selects (A : Type) := Program SelectOp SelectAnswer A

def onTokens (p : Calls Token A) : Selects A := p.left

def onSets (p : Calls (List Nat) A) : Selects A := p.left.right

def onFiles (call : FileCall (List Nat × Table)) : Selects (Except StorageError (List Nat × Table)) :=
  (Program.call call .ret).right.right

end

/-! ## Eval -/

/-- `token_string()`. -/
def tokenString : Token → Bytes
  | .tokenStr s | .relational s | .logical s => s
  | .leftParen => ascii "("
  | .rightParen => ascii ")"

/-- The loop of `Eval`, with the operands on `s`; it may throw at every token, and behind the last one. -/
def evalLoopCalls (s q indices : Nat) : Nat → Table → Selects (Except StorageError (List Nat × Table))
  | 0, _ => .stuck
  | fuel + 1, table => do
    if ← onTokens (isEmpty q) then
      if !(← onTokens (isEmpty s)) then pure (.error (.invalidArgument "Malformed WHERE expression"))
      else if (← onSets (size indices)) ≠ 1 then pure (.error (.invalidArgument "Malformed WHERE expression"))
      else
        let result ← onSets (front indices)
        pure (.ok (result, table))
    else
      let token ← onTokens (pop q)
      match token with
      | .tokenStr _ =>
        onTokens (push s token)
        evalLoopCalls s q indices fuel table
      | .relational operation =>
        if (← onTokens (size s)) < 2 then pure (.error (.invalidArgument "Malformed relational expression")) else
          let fieldValue ← onTokens (pop s)
          let fieldName ← onTokens (pop s)
          let selected ← onFiles (table.selectHelp (tokenString fieldName) operation (tokenString fieldValue))
          match selected with
          | .error e => pure (.error e)
          | .ok (records, table) =>
            onSets (push indices records)
            evalLoopCalls s q indices fuel table
      | .logical operation =>
        if (← onSets (size indices)) < 2 then pure (.error (.invalidArgument "Malformed logical expression")) else
          let first ← onSets (pop indices)
          let second ← onSets (pop indices)
          let both := if operation = ascii "and" then Table.myIntersection first second else []
          let either := if operation = ascii "or" then Table.myUnion first second else both
          onSets (push indices either)
          evalLoopCalls s q indices fuel table
      | .leftParen | .rightParen => evalLoopCalls s q indices fuel table

/-- `Eval`; its three containers are destroyed also when it throws. -/
def evalCalls (postfixQueue bound : Nat) (table : Table) : Selects (Except StorageError (List Nat × Table)) := do
  let s ← onTokens (make .stack)
  let q ← onTokens (make (.copy postfixQueue))
  let indices ← onSets (make .stack)
  let result ← evalLoopCalls s q indices bound table
  onSets (act (.call indices .destroy))
  onTokens (act (.call q .destroy))
  onTokens (act (.call s .destroy))
  pure result

/-! ## Select -/

/-- `Eval`, if there is a condition. -/
def recordCalls (postfixQueue bound : Nat) (table : Table) : Selects (Except StorageError (List Nat × Table)) := do
  if ← onTokens (isEmpty postfixQueue) then pure (.ok (List.range table.numRecords, table))
  else evalCalls postfixQueue bound table

/-- The values of the records, and the two tables. -/
def collectSelected (chosen reordered : List Bytes) (indices : List Nat) (table : Table) :
    Except StorageError (Table × Table) := do
  let values ← table.collect reordered indices
  pure ({ Table.new with
    tableName := table.tableName
    fieldNames := reordered
    selectedFields := chosen
    numRecords := table.numRecords
    recordIndices := indices
    printQueue := values }, { table with recordIndices := indices })

/-- `select` on the tokens of the postfix queue. -/
def selectPostfix (postfixQueue bound : Nat) (table : Table) (selected : List Bytes) :
    Selects (Except StorageError (Table × Table)) :=
  match table.validateProjection selected with
  | .error e => pure (.error e)
  | .ok () => do
    let chosen := if selected = [] ∨ selected.head? = some (ascii "*") then table.fieldNames else selected
    let reordered := table.permutateFields chosen
    let evaluated ← recordCalls postfixQueue bound { table with selectedFields := chosen }
    pure (evaluated >>= fun (indices, table) => collectSelected chosen reordered indices table)

/-- `allocate_tokens_memory`. -/
def allocateTokens (infixQueue : Nat) : List Bytes → Calls Token Unit
  | [] => pure ()
  | str :: strs => do
    push infixQueue (Table.allocateToken str)
    allocateTokens infixQueue strs

/-- `release_tokens`: the tokens that are deleted. -/
def releaseTokens (infixQueue : Nat) : Calls Token (List Token) := do
  if ← isEmpty infixQueue then pure [] else
    let tokens ← visit infixQueue
    act (.call infixQueue .clear)
    pure tokens

/-- `select` on strings: how it ends, and the tokens that are deleted.  The error of the shunting yard, the handler and the
return release the tokens, one line each in the source; then the queues are destroyed. -/
def selectCalls (table : Table) (selected expression : List Bytes) :
    Selects (Except StorageError (Table × Table) × List Token) := do
  let infixQueue ← onTokens (make .queue)
  onTokens (allocateTokens infixQueue expression)
  let queue ← onTokens (make .queue)
  onTokens (act (.assign queue infixQueue))
  let (error, postfixQueue) ← onTokens (yardCalls queue (expression.length + 1))
  let result ← if error then pure (.error (.invalidArgument "Invalid parenthesis structure in WHERE clause"))
    else selectPostfix postfixQueue (expression.length + 1) table selected
  let deleted ← onTokens (releaseTokens infixQueue)
  onTokens (act (.call postfixQueue .destroy))
  onTokens (act (.call queue .destroy))
  onTokens (act (.call infixQueue .destroy))
  pure (result, deleted)

/-! ## On lists -/

section
variable {S S' S'' A : Type} (step : S → Op Token → Option (Answer Token × S))
  (step' : S' → Op (List Nat) → Option (Answer (List Nat) × S')) (s : S) (s' : S')

@[simp] theorem run_onTokens (step' : S'' → Op (List Nat) ⊕ FileCall (List Nat × Table) →
      Option ((Answer (List Nat) ⊕ Except StorageError (List Nat × Table)) × S'')) (s'' : S'') (p : Calls Token A) :
    (onTokens p).run (beside step step') (s, s'') = (p.run step s).map (fun r => (r.1, r.2, s'')) :=
  Program.run_left step step' p s s''

@[simp] theorem run_onSets (step'' : S'' → FileCall (List Nat × Table) →
      Option (Except StorageError (List Nat × Table) × S'')) (s'' : S'') (p : Calls (List Nat) A) :
    (onSets p).run (beside step (beside step' step'')) (s, s', s'') =
      (p.run step' s').map (fun r => (r.1, s, r.2, s'')) := by
  rw [onSets, Program.run_right, Program.run_left, Option.map_map]
  rfl

@[simp] theorem run_onFiles (call : FileCall (List Nat × Table)) (files : Files) (log : List FileEffect) :
    (onFiles call).run (beside step (beside step' filesStep)) (s, s', files, log) =
      some ((call files).result, s, s', Effects.after files (call files).effects, log ++ (call files).effects) := by
  rw [onFiles, Program.run_right, Program.run_right]
  rfl

end

/-- The operands and the tokens of `Eval`. -/
def evaluating (base : List (Held Token)) (s q : List Token) : List (Held Token) := base ++ [.stack s, .queue q]

/-- Its record sets. -/
def collecting (base : List (Held (List Nat))) (indices : List (List Nat)) : List (Held (List Nat)) :=
  base ++ [.stack indices]

section
variable (base : List (Held Token)) (s q : List Token) (token : Token)

theorem evaluating_get : (evaluating base s q)[base.length]? = some (.stack s) ∧
    (evaluating base s q)[base.length + 1]? = some (.queue q) := by
  simp [evaluating]

theorem set_operands (s' : List Token) : (evaluating base s q).set base.length (.stack s') = evaluating base s' q := by
  simp [evaluating]

theorem set_tokens (q' : List Token) : (evaluating base s q).set (base.length + 1) (.queue q') = evaluating base s q' := by
  simp [evaluating]

@[simp] theorem run_isEmpty_tokens : (isEmpty (base.length + 1)).run Held.step (evaluating base s q) =
    some (q.isEmpty, evaluating base s q) := by
  rw [isEmpty, run_call (evaluating_get ..).2 rfl, set_tokens]
  rfl

@[simp] theorem run_pop_tokens : (pop (base.length + 1)).run Held.step (evaluating base s (token :: q)) =
    some (token, evaluating base s q) := by
  rw [pop, run_call (evaluating_get ..).2 rfl, set_tokens]
  rfl

@[simp] theorem run_isEmpty_operands : (isEmpty base.length).run Held.step (evaluating base s q) =
    some (s.isEmpty, evaluating base s q) := by
  rw [isEmpty, run_call (evaluating_get ..).1 rfl, set_operands]
  rfl

@[simp] theorem run_size_operands : (size base.length).run Held.step (evaluating base s q) =
    some (s.length, evaluating base s q) := by
  rw [size, run_call (evaluating_get ..).1 rfl, set_operands]
  rfl

@[simp] theorem run_push_operands : (push base.length token).run Held.step (evaluating base s q) =
    some ((), evaluating base (token :: s) q) := by
  rw [push, act, run_call (evaluating_get ..).1 rfl, set_operands]
  rfl

@[simp] theorem run_pop_operands : (pop base.length).run Held.step (evaluating base (token :: s) q) =
    some (token, evaluating base s q) := by
  rw [pop, run_call (evaluating_get ..).1 rfl, set_operands]
  rfl

end

section
variable (base : List (Held (List Nat))) (indices : List (List Nat)) (records : List Nat)

theorem collecting_get : (collecting base indices)[base.length]? = some (.stack indices) := by simp [collecting]

theorem set_sets (indices' : List (List Nat)) :
    (collecting base indices).set base.length (.stack indices') = collecting base indices' := by simp [collecting]

@[simp] theorem run_size_sets : (size base.length).run Held.step (collecting base indices) =
    some (indices.length, collecting base indices) := by
  rw [size, run_call (collecting_get ..) rfl, set_sets]
  rfl

@[simp] theorem run_front_sets : (front base.length).run Held.step (collecting base (records :: indices)) =
    some (records, collecting base (records :: indices)) := by
  rw [front, run_call (collecting_get ..) rfl, set_sets]
  rfl

@[simp] theorem run_push_sets : (push base.length records).run Held.step (collecting base indices) =
    some ((), collecting base (records :: indices)) := by
  rw [push, act, run_call (collecting_get ..) rfl, set_sets]
  rfl

@[simp] theorem run_pop_sets : (pop base.length).run Held.step (collecting base (records :: indices)) =
    some (records, collecting base indices) := by
  rw [pop, run_call (collecting_get ..) rfl, set_sets]
  rfl

end

/-! ## Eval on lists -/

@[simp] theorem tokenString_str (s : Bytes) : tokenString (.tokenStr s) = s := rfl

@[simp] theorem not_lt_two (n : Nat) : ¬ n + 1 + 1 < 2 := by omega

/-- Queues and stacks of lists, and the files. -/
abbrev listStep := beside (Held.step (T := Token)) (beside (Held.step (T := List Nat)) (filesStep (A := List Nat × Table)))

variable {base : List (Held Token)} {sets : List (Held (List Nat))}

/-- **`Eval` ends as the evaluation of lists does**, at whatever token it stops. -/
theorem run_evalLoopCalls : ∀ (queue : List Token) (strs : List Bytes) (indices : List (List Nat)) (table : Table)
    (files : Files) (log : List FileEffect) (fuel : Nat), queue.length < fuel → ∃ s q left,
      (evalLoopCalls base.length (base.length + 1) sets.length fuel table).run listStep
        (evaluating base (strs.map .tokenStr) queue, collecting sets indices, files, log) =
      some ((Table.evalLoop queue strs indices table files).result, evaluating base s q, collecting sets left,
        Effects.after files (Table.evalLoop queue strs indices table files).effects,
        log ++ (Table.evalLoop queue strs indices table files).effects)
  | _, _, _, _, _, _, 0, hlt => absurd hlt (Nat.not_lt_zero _)
  | [], [], [], table, files, log, fuel + 1, _ => ⟨[], [], [], by
      simp [evalLoopCalls, Table.evalLoop, Effects.attempt]⟩
  | [], [], [result], table, files, log, fuel + 1, _ => ⟨[], [], [result], by
      simp [evalLoopCalls, Table.evalLoop, Effects.pure_run]⟩
  | [], [], first :: second :: indices, table, files, log, fuel + 1, _ => ⟨[], [], first :: second :: indices, by
      simp [evalLoopCalls, Table.evalLoop, Effects.attempt]⟩
  | [], str :: strs, indices, table, files, log, fuel + 1, _ => ⟨(str :: strs).map .tokenStr, [], indices, by
      simp [evalLoopCalls, Table.evalLoop, Effects.attempt]⟩
  | .tokenStr str :: queue, strs, indices, table, files, log, fuel + 1, hlt => by
    obtain ⟨s, q, left, ih⟩ := run_evalLoopCalls queue (str :: strs) indices table files log fuel
      (Nat.lt_of_succ_lt_succ hlt)
    rw [List.map_cons] at ih
    exact ⟨s, q, left, by simp [evalLoopCalls, Table.evalLoop, ih]⟩
  | .relational operation :: queue, [], indices, table, files, log, fuel + 1, _ => ⟨[], queue, indices, by
      simp [evalLoopCalls, Table.evalLoop, Effects.attempt]⟩
  | .relational operation :: queue, [value], indices, table, files, log, fuel + 1, _ =>
    ⟨[.tokenStr value], queue, indices, by
      simp [evalLoopCalls, Table.evalLoop, Effects.attempt]⟩
  | .relational operation :: queue, value :: fieldName :: strs, indices, table, files, log, fuel + 1, hlt => by
    rcases hhelp : table.selectHelp fieldName operation value files with ⟨es, e | ⟨records, table'⟩⟩
    · -- the exception leaves the tokens behind this one where they are
      refine ⟨strs.map .tokenStr, queue, indices, ?_⟩
      simp [evalLoopCalls, Table.evalLoop, hhelp, Effects.bind_run_error hhelp]
    · obtain ⟨s, q, left, ih⟩ := run_evalLoopCalls queue strs (records :: indices) table' (Effects.after files es)
        (log ++ es) fuel (Nat.lt_of_succ_lt_succ hlt)
      refine ⟨s, q, left, ?_⟩
      simp [evalLoopCalls, Table.evalLoop, hhelp, Effects.bind_run_ok hhelp, ih, Effects.after_append]
  | .logical operation :: queue, strs, [], table, files, log, fuel + 1, _ => ⟨strs.map .tokenStr, queue, [], by
      simp [evalLoopCalls, Table.evalLoop, Effects.attempt]⟩
  | .logical operation :: queue, strs, [first], table, files, log, fuel + 1, _ => ⟨strs.map .tokenStr, queue, [first], by
      simp [evalLoopCalls, Table.evalLoop, Effects.attempt]⟩
  | .logical operation :: queue, strs, first :: second :: indices, table, files, log, fuel + 1, hlt => by
    obtain ⟨s, q, left, ih⟩ := run_evalLoopCalls queue strs ((if operation = ascii "or" then Table.myUnion first second
      else if operation = ascii "and" then Table.myIntersection first second else []) :: indices) table files log fuel
        (Nat.lt_of_succ_lt_succ hlt)
    exact ⟨s, q, left, by simp [evalLoopCalls, Table.evalLoop, ih]⟩
  | .leftParen :: queue, strs, indices, table, files, log, fuel + 1, hlt
  | .rightParen :: queue, strs, indices, table, files, log, fuel + 1, hlt => by
    obtain ⟨s, q, left, ih⟩ := run_evalLoopCalls queue strs indices table files log fuel (Nat.lt_of_succ_lt_succ hlt)
    exact ⟨s, q, left, by simp [evalLoopCalls, Table.evalLoop, ih]⟩

theorem run_destroy {T : Type} [Inhabited T] {i : Nat} {held : List (Held T)} {g : Held T} (hget : held[i]? = some g)
    (hg : g ≠ .gone) : (act (.call i .destroy)).run Held.step held = some ((), held.set i .gone) := by
  cases g with
  | gone => exact absurd rfl hg
  | queue xs | stack xs =>
    rw [act, run_call hget rfl]
    rfl

theorem behind_get {T : Type} (held made : List (Held T)) (n : Nat) : (held ++ made)[held.length + n]? = made[n]? := by
  rw [List.getElem?_append_right (Nat.le_add_right _ _), Nat.add_sub_cancel_left]

theorem behind_set {T : Type} (held made : List (Held T)) (n : Nat) (g : Held T) :
    (held ++ made).set (held.length + n) g = held ++ made.set n g := by
  rw [List.set_append_right _ _ (Nat.le_add_right _ _), Nat.add_sub_cancel_left]

theorem run_evalCalls {i bound : Nat} {queue : List Token} (hget : base[i]? = some (.queue queue))
    (hlt : queue.length < bound) (table : Table) (files : Files) (log : List FileEffect) :
      (evalCalls i bound table).run listStep (base, sets, files, log) =
      some ((table.eval queue files).result, base ++ [.gone, .gone], sets ++ [.gone],
        Effects.after files (table.eval queue files).effects, log ++ (table.eval queue files).effects) := by
  have hs : (make .stack).run Held.step base = some (base.length, base ++ [.stack []]) := rfl
  have hindices : (make .stack).run Held.step sets = some (sets.length, collecting sets []) := rfl
  have hq : (make (.copy i)).run Held.step (base ++ [.stack []]) = some (base.length + 1, evaluating base [] queue) := by
    have hi := (List.getElem?_eq_some_iff.1 hget).1
    simp [make, Program.run, Held.step, List.getElem?_append_left hi, hget, evaluating]
  obtain ⟨s, q, left, hloop⟩ := @run_evalLoopCalls base sets queue [] [] table files log bound hlt
  have hsets : (act (.call sets.length .destroy)).run Held.step (collecting sets left) = some ((), sets ++ [.gone]) := by
    rw [run_destroy (collecting_get sets left) (fun heq => by cases heq), collecting, List.set_append_right _ _ (le_refl _),
      Nat.sub_self]
    rfl
  have htokens : (act (.call (base.length + 1) .destroy)).run Held.step (evaluating base s q) =
      some ((), base ++ [.stack s, .gone]) := by
    rw [run_destroy (evaluating_get base s q).2 (fun heq => by cases heq), evaluating, behind_set]
    rfl
  have hoperands : (act (.call base.length .destroy)).run Held.step (base ++ [.stack s, .gone]) =
      some ((), base ++ [.gone, .gone]) := by
    have hdestroy := run_destroy (behind_get base [.stack s, .gone] 0) (fun heq => by cases heq)
    rwa [behind_set] at hdestroy
  simp only [List.map_nil] at hloop
  simp only [evalCalls, Program.run_bind, run_onTokens, run_onSets, hs, hq, hindices, hloop, Option.map_some,
    Option.bind_some, hsets, htokens, hoperands, Program.run_pure]
  rfl

/-! ## Select on lists -/

theorem run_recordCalls {i bound : Nat} {queue : List Token} (hget : base[i]? = some (.queue queue))
    (hlt : queue.length < bound) (table : Table) (files : Files) (log : List FileEffect) : ∃ k k',
      (recordCalls i bound table).run listStep (base, sets, files, log) =
        some (((if queue ≠ [] then table.eval queue else pure (List.range table.numRecords, table)) files).result,
          base ++ List.replicate k .gone, sets ++ List.replicate k' .gone,
          Effects.after files ((if queue ≠ [] then table.eval queue
            else pure (List.range table.numRecords, table)) files).effects,
          log ++ ((if queue ≠ [] then table.eval queue else pure (List.range table.numRecords, table)) files).effects) := by
  have hempty : (isEmpty i).run Held.step base = some (queue.isEmpty, base) := by
    obtain ⟨hi, heq⟩ := List.getElem?_eq_some_iff.1 hget
    rw [isEmpty, run_call hget rfl, ← heq, List.set_getElem_self]
    rfl
  cases queue with
  | nil => exact ⟨0, 0, by simp [recordCalls, hempty, Effects.pure_run]⟩
  | cons token queue => exact ⟨2, 1, by simp [recordCalls, hempty, run_evalCalls hget hlt]⟩

/-- `select`, with what is done behind `Eval` apart; there is no effect on the files in it. -/
theorem select_parts {table : Table} {selected : List Bytes} (hvalid : table.validateProjection selected = .ok ())
    (queue : List Token) (files : Files) {chosen : List Bytes}
    (hchosen : chosen = if selected = [] ∨ selected.head? = some (ascii "*") then table.fieldNames else selected)
    {evaluated : FileCall (List Nat × Table)}
    (hevaluated : evaluated = if queue ≠ [] then Table.eval { table with selectedFields := chosen } queue
      else pure (List.range table.numRecords, { table with selectedFields := chosen })) :
    table.select selected queue files = ⟨(evaluated files).effects, (evaluated files).result >>= fun (indices, table') =>
      collectSelected chosen (table.permutateFields chosen) indices table'⟩ := by
  unfold Table.select
  rw [hvalid, Effects.attempt_ok_bind]
  dsimp only
  rw [← hchosen]
  have hbehind : ∀ call : FileCall (List Nat × Table), (do
      let (indices, table') ← call
      let values ← Effects.attempt (table'.collect (table.permutateFields chosen) indices)
      pure ({ Table.new with
        tableName := table'.tableName
        fieldNames := table.permutateFields chosen
        selectedFields := chosen
        numRecords := table'.numRecords
        recordIndices := indices
        printQueue := values }, { table' with recordIndices := indices }) : FileCall (Table × Table)) files =
      ⟨(call files).effects, (call files).result >>= fun (indices, table') =>
        collectSelected chosen (table.permutateFields chosen) indices table'⟩ := fun call => by
    rcases hcall : call files with ⟨es, e | ⟨indices, table'⟩⟩
    · rw [Effects.bind_run_error hcall]
      rfl
    · rw [Effects.bind_run_ok hcall]
      dsimp only
      rw [except_ok_bind, collectSelected]
      cases hcollect : table'.collect (table.permutateFields chosen) indices with
      | error e =>
        rw [Effects.attempt_error_bind, List.append_nil]
        rfl
      | ok values =>
        rw [Effects.attempt_ok_bind]
        exact congrArg (fun effects => Effects.Outcome.mk effects _) (List.append_nil es)
  by_cases hempty : queue = []
  · rw [if_neg (not_not.2 hempty)] at hevaluated ⊢
    rw [hevaluated]
    exact hbehind _
  · rw [if_pos hempty] at hevaluated ⊢
    rw [hevaluated]
    exact hbehind _

/-- `select` behind its condition. -/
theorem run_selectPostfix {i bound : Nat} {queue : List Token} (hget : base[i]? = some (.queue queue))
    (hlt : queue.length < bound) (table : Table) (selected : List Bytes) (files : Files) (log : List FileEffect) : ∃ k k',
      (selectPostfix i bound table selected).run listStep (base, sets, files, log) =
        some ((table.select selected queue files).result, base ++ List.replicate k .gone, sets ++ List.replicate k' .gone,
          Effects.after files (table.select selected queue files).effects,
          log ++ (table.select selected queue files).effects) := by
  unfold selectPostfix
  cases hvalid : table.validateProjection selected with
  | error e =>
    refine ⟨0, 0, ?_⟩
    unfold Table.select
    rw [hvalid, Effects.attempt_error_bind]
    simp
  | ok u =>
    generalize hchosen : (if selected = [] ∨ selected.head? = some (ascii "*") then table.fieldNames else selected) = chosen
    obtain ⟨k, k', hrun⟩ := @run_recordCalls base sets i bound queue hget hlt { table with selectedFields :=
      chosen } files log
    refine ⟨k, k', ?_⟩
    rw [select_parts hvalid queue files hchosen.symm rfl]
    dsimp only
    rw [Program.run_bind, hrun]
    rfl

theorem run_allocateTokens {i : Nat} : ∀ (strs : List Bytes) {held : List (Held Token)} {tokens : List Token},
    held[i]? = some (.queue tokens) → (allocateTokens i strs).run Held.step held =
      some ((), held.set i (.queue (tokens ++ strs.map Table.allocateToken)))
  | [], held, tokens, hget => by
    obtain ⟨hlt, heq⟩ := List.getElem?_eq_some_iff.1 hget
    simp [allocateTokens, ← heq]
  | str :: strs, held, tokens, hget => by
    have hlt := (List.getElem?_eq_some_iff.1 hget).1
    have ih := @run_allocateTokens i strs (held.set i (.queue (tokens ++ [Table.allocateToken str]))) _
      (List.getElem?_set_self hlt)
    rw [List.set_set, List.append_assoc] at ih
    rw [allocateTokens, Program.run_bind, push, act, run_call hget rfl]
    exact ih

theorem run_releaseTokens {i : Nat} {held : List (Held Token)} {tokens : List Token}
    (hget : held[i]? = some (.queue tokens)) :
    (releaseTokens i).run Held.step held = some (tokens, held.set i (.queue [])) := by
  obtain ⟨hi, heq⟩ := List.getElem?_eq_some_iff.1 hget
  have hempty : (isEmpty i).run Held.step held = some (tokens.isEmpty, held) := by
    rw [isEmpty, run_call hget rfl, ← heq, List.set_getElem_self]
    rfl
  cases tokens with
  | nil => simp [releaseTokens, hempty, ← heq]
  | cons token tokens =>
    have hvisit : (visit i).run Held.step held = some (token :: tokens, held) := by
      rw [visit, run_call hget rfl, ← heq, List.set_getElem_self]
      rfl
    have hclear : (act (.call i .clear)).run Held.step held = some ((), held.set i (.queue [])) := by
      rw [act, run_call hget rfl]
      rfl
    simp [releaseTokens, hempty, hvisit, hclear]

/-- The tokens are deleted, and then the queues are destroyed. -/
theorem run_deleted {A : Type} (held gone : List (Held Token)) (tokens rest output : List Token) (result : A)
    (s : List (Held (List Nat)) × Files × List FileEffect) :
    (do
      let deleted ← onTokens (releaseTokens held.length)
      onTokens (act (.call (held.length + 2) .destroy))
      onTokens (act (.call (held.length + 1) .destroy))
      onTokens (act (.call held.length .destroy))
      pure (result, deleted) : Selects (A × List Token)).run listStep
        (held ++ .queue tokens :: .queue rest :: .queue output :: gone, s) =
      some ((result, tokens), held ++ .gone :: .gone :: .gone :: gone, s) := by
  have hrelease := run_releaseTokens (behind_get held (.queue tokens :: .queue rest :: .queue output :: gone) 0)
  have houtput := run_destroy (behind_get held (.queue [] :: .queue rest :: .queue output :: gone) 2)
    (fun heq => by cases heq)
  have hqueue := run_destroy (behind_get held (.queue [] :: .queue rest :: .gone :: gone) 1) (fun heq => by cases heq)
  have hinfix := run_destroy (behind_get held (.queue [] :: .gone :: .gone :: gone) 0) (fun heq => by cases heq)
  rw [behind_set] at hrelease houtput hqueue hinfix
  simp only [Nat.add_zero, List.set_cons_zero, List.set_cons_succ] at hrelease houtput hqueue hinfix
  simp only [Program.run_bind, run_onTokens, hrelease, houtput, hqueue, hinfix, Option.map_some, Option.bind_some,
    Program.run_pure]

/-- **A select on lists**: the outcome of `selectStrings`, and all that is made is destroyed. -/
theorem run_selectCalls (held : List (Held Token)) (sets : List (Held (List Nat))) (table : Table)
    (selected expression : List Bytes) (files : Files) (log : List FileEffect) : ∃ k k',
      (selectCalls table selected expression).run listStep (held, sets, files, log) =
        some (((table.selectStrings selected expression files).result, expression.map Table.allocateToken),
          held ++ List.replicate k .gone, sets ++ List.replicate k' .gone,
          Effects.after files (table.selectStrings selected expression files).effects,
          log ++ (table.selectStrings selected expression files).effects) := by
  unfold Table.selectStrings
  generalize htokens : expression.map Table.allocateToken = tokens
  have hlength : tokens.length < expression.length + 1 := by
    rw [← htokens, List.length_map]
    exact Nat.lt_succ_self _
  have hinfix : (make .queue).run Held.step held = some (held.length, held ++ [.queue []]) := rfl
  have hallocate := run_allocateTokens expression (behind_get held [.queue []] 0)
  rw [behind_set, List.set_cons_zero, htokens, List.nil_append, Nat.add_zero] at hallocate
  have hqueue : (make .queue).run Held.step (held ++ [.queue tokens]) =
      some (held.length + 1, held ++ [.queue tokens, .queue []]) := by simp [make, Program.run, Held.step]
  have hassign : (act (.assign (held.length + 1) held.length)).run Held.step (held ++ [.queue tokens, .queue []]) =
      some ((), held ++ [.queue tokens, .queue tokens]) := by simp [act, Program.run, Held.step]
  obtain ⟨rest, hyard⟩ := run_yardCalls (held ++ [.queue tokens]) hlength
  simp only [List.length_append, List.length_singleton, List.append_assoc, List.cons_append, List.nil_append,
    Nat.add_assoc, Nat.reduceAdd] at hyard
  simp only [selectCalls, Program.run_bind, run_onTokens, hinfix, hallocate, hqueue, hassign, hyard, Option.map_some,
    Option.bind_some]
  rw [runPostfix]
  cases hyard : toPostfix tokens with
  | none =>
    refine ⟨4, 0, ?_⟩
    have hdeleted := run_deleted held [.gone] tokens rest []
      (.error (.invalidArgument "Invalid parenthesis structure in WHERE clause") : Except StorageError (Table × Table))
      (sets, files, log)
    simp only [Program.run_bind] at hdeleted
    simpa [hyard, Effects.attempt] using hdeleted
  | some output =>
    have hlength' : output.length < expression.length + 1 :=
      ((toPostfix_some hyard).2.length_eq.trans_le (List.length_filter_le _ _)).trans_lt hlength
    obtain ⟨k, k', hselect⟩ := @run_selectPostfix (held ++ [.queue tokens, .queue rest, .queue output, .gone]) sets
      (held.length + 2) (expression.length + 1) output (behind_get held [.queue tokens, .queue rest, .queue output, .gone] 2)
      hlength' table selected files log
    rw [List.append_assoc] at hselect
    have hdeleted := run_deleted held (.gone :: List.replicate k .gone) tokens rest output
      (table.select selected output files).result (sets ++ List.replicate k' .gone,
        Effects.after files (table.select selected output files).effects,
        log ++ (table.select selected output files).effects)
    refine ⟨k + 4, k', ?_⟩
    simp only [Bool.false_eq_true, if_false]
    rw [Program.run_bind, hselect]
    exact hdeleted

/-- **A select on linked lists**: whatever else they hold, and however the call ends, its outcome is that of the model, every
token that is allocated is deleted, once, and the nodes of all its queues and stacks are freed. -/
theorem select_released {c : Containers Token} {held : List (Held Token)} (h : Stands c held) {d : Containers (List Nat)}
    {sets : List (Held (List Nat))} (hd : Stands d sets) (table : Table) (selected expression : List Bytes) (files : Files) :
    ∃ c' d' k k', (selectCalls table selected expression).run
        (beside Containers.step (beside Containers.step filesStep)) (c, d, files, []) =
      some (((table.selectStrings selected expression files).result, expression.map Table.allocateToken), c', d',
        Effects.after files (table.selectStrings selected expression files).effects,
        (table.selectStrings selected expression files).effects) ∧
      Stands c' (held ++ List.replicate k .gone) ∧ Stands d' (sets ++ List.replicate k' .gone) ∧
      ((∀ g ∈ held, g = .gone) → ∀ a, c'.heap.node a = none) ∧ ((∀ g ∈ sets, g = .gone) → ∀ a, d'.heap.node a = none) := by
  obtain ⟨k, k', hrun⟩ := run_selectCalls held sets table selected expression files []
  have hlockstep := (containers_lockstep (T := Token)).beside
    ((containers_lockstep (T := List Nat)).beside (lockstep_self (filesStep (A := List Nat × Table))))
  have hpaired := hlockstep.program (selectCalls table selected expression) (s := (c, d, files, []))
    (t := (held, sets, files, [])) ⟨h, hd, rfl⟩
  rw [hrun] at hpaired
  rcases hc : (selectCalls table selected expression).run (beside Containers.step (beside Containers.step filesStep))
    (c, d, files, []) with _ | ⟨ans, c', d', files', log'⟩
  · rw [hc] at hpaired
    cases hpaired
  · rw [hc] at hpaired
    obtain ⟨hans, hstands, hstands', hsame⟩ := Option.rel_some_some.1 hpaired
    obtain rfl : ans = _ := hans
    cases hsame
    have hgone : ∀ {T : Type} {held : List (Held T)} {k : Nat}, (∀ g ∈ held, g = .gone) →
        ∀ g ∈ held ++ List.replicate k .gone, g = .gone := fun hall g hg =>
      (List.mem_append.1 hg).elim (hall g) List.eq_of_mem_replicate
    exact ⟨c', d', k, k', rfl, hstands, hstands', fun hall => hstands.freed (hgone hall),
      fun hall => hstands'.freed (hgone hall)⟩

/-- `Eval` throws at its first comparison, with four tokens in front of it. -/
theorem select_released_unknown : ∃ c' d' log, (selectCalls (Table.filled (ascii "t") oneFields oneRows) [ascii "*"]
      [ascii "z", ascii "=", ascii "x", ascii "and", ascii "a", ascii "=", ascii "x"]).run
        (beside Containers.step (beside Containers.step filesStep)) (Containers.new, Containers.new, fun _ => none, []) =
      some ((.error (.invalidArgument ("Unknown field: " ++ text (ascii "z"))),
        [.tokenStr (ascii "z"), .relational (ascii "="),
        .tokenStr (ascii "x"), .logical (ascii "and"), .tokenStr (ascii "a"), .relational (ascii "="),
          .tokenStr (ascii "x")]),
        c', d', log) ∧
    (∀ a, c'.heap.node a = none) ∧ ∀ a, d'.heap.node a = none := by
  obtain ⟨c', d', -, -, hrun, -, -, hfreed, hfreed'⟩ := select_released stands_new stands_new
    (Table.filled (ascii "t") oneFields oneRows) [ascii "*"]
    [ascii "z", ascii "=", ascii "x", ascii "and", ascii "a", ascii "=", ascii "x"] (fun _ => none)
  exact ⟨c', d', _, hrun, hfreed (fun g hg => absurd hg List.not_mem_nil), hfreed' (fun g hg => absurd hg List.not_mem_nil)⟩

end LinkedList
end Sql
