import SqlEngine.Containers
import SqlEngine.Filters
/-!
# Yard — the shunting yard on its queues and stacks

`ShuntingYard::shunting_yard` as a program over queues and stacks.  On lists it is `runPostfix` (`run_yardCalls`).
-/
namespace Sql
namespace LinkedList

open Simulation Wire Query Storage.Table

/-! ## Calls -/

abbrev Calls (T A : Type) := Program (Op T) (Answer T) A

section
variable {T : Type}

def make (op : Op T) : Calls T Nat := .call op (fun | .made i => .ret i | _ => .stuck)

def act (op : Op T) : Calls T Unit := .call op (fun _ => .ret ())

def push (i : Nat) (item : T) : Calls T Unit := act (.call i (.push item))

def pop (i : Nat) : Calls T T := .call (.call i .pop) (fun | .item x => .ret x | _ => .stuck)

def front (i : Nat) : Calls T T := .call (.call i .front) (fun | .item x => .ret x | _ => .stuck)

def isEmpty (i : Nat) : Calls T Bool := .call (.call i .isEmpty) (fun | .empty b => .ret b | _ => .stuck)

def size (i : Nat) : Calls T Nat := .call (.call i .size) (fun | .size n => .ret n | _ => .stuck)

def visit (i : Nat) : Calls T (List T) := .call (.call i .visit) (fun | .items xs => .ret xs | _ => .stuck)

end

/-! ## The shunting yard -/

def popOperatorsLoop (output operators : Nat) (token : Token) : Nat → Calls Token Unit
  | 0 => .stuck
  | fuel + 1 => do
    if ← isEmpty operators then pure () else
      let top ← front operators
      if top ≠ .leftParen ∧ top.precedence ≥ token.precedence then
        let top ← pop operators
        push output top
        popOperatorsLoop output operators token fuel
      else pure ()

/-- Down to a left parenthesis; true if the stack gets empty on the way. -/
def popToParenLoop (output operators : Nat) : Nat → Calls Token Bool
  | 0 => .stuck
  | fuel + 1 => do
    if ← isEmpty operators then pure false else
      let top ← front operators
      if top = .leftParen then pure false else
        let top ← pop operators
        push output top
        if ← isEmpty operators then pure true else popToParenLoop output operators fuel

/-- The error, with a cleared output. -/
def fail (output : Nat) : Calls Token Bool := do
  act (.call output .clear)
  pure true

/-- A right parenthesis; true is the error. -/
def closeParen (output operators bound : Nat) : Calls Token Bool := do
  if ← popToParenLoop output operators bound then fail output
  else if ← isEmpty operators then fail output
  else
    let top ← front operators
    if top ≠ .leftParen then fail output else
      let _ ← pop operators
      pure false

def popAllLoop (output operators : Nat) : Nat → Calls Token Bool
  | 0 => .stuck
  | fuel + 1 => do
    if ← isEmpty operators then pure false else
      let top ← front operators
      if top = .leftParen then fail output else
        let top ← pop operators
        push output top
        popAllLoop output operators fuel

/-- The loops inside have a bound of their own. -/
def yardLoop (queue output operators bound : Nat) : Nat → Calls Token Bool
  | 0 => .stuck
  | fuel + 1 => do
    if ← isEmpty queue then popAllLoop output operators bound else
      let token ← pop queue
      match token with
      | .tokenStr _ =>
        push output token
        yardLoop queue output operators bound fuel
      | .leftParen | .relational _ =>
        push operators token
        yardLoop queue output operators bound fuel
      | .logical _ =>
        popOperatorsLoop output operators token bound
        push operators token
        yardLoop queue output operators bound fuel
      | .rightParen =>
        if ← closeParen output operators bound then pure true else yardLoop queue output operators bound fuel

/-- `ShuntingYard::shunting_yard`: the flag, and the queue that is returned. -/
def yardCalls (queue bound : Nat) : Calls Token (Bool × Nat) := do
  let output ← make .queue
  let operators ← make .stack
  let error ← yardLoop queue output operators bound bound
  act (.call operators .destroy)
  pure (error, output)

/-! ## On lists -/

theorem run_call {T A : Type} [Inhabited T] {held : List (Held T)} {i : Nat} {g g' : Held T} {call : Call T} {ans : Answer T}
    (hget : held[i]? = some g) (hcall : g.call call = some (ans, g')) (next : Answer T → Calls T A) :
    (Program.call (.call i call) next).run Held.step held = (next ans).run Held.step (held.set i g') := by
  simp [Program.run, Held.step, hget, hcall]

/-- The queue, the output and the operators of the shunting yard. -/
def yard (base : List (Held Token)) (queue output operators : List Token) : List (Held Token) :=
  base ++ [.queue queue, .queue output, .stack operators]

section
variable (base : List (Held Token)) (queue output operators : List Token)

theorem yard_get : (yard base queue output operators)[base.length]? = some (.queue queue) ∧
    (yard base queue output operators)[base.length + 1]? = some (.queue output) ∧
    (yard base queue output operators)[base.length + 2]? = some (.stack operators) := by
  simp [yard]

theorem set_queue (queue' : List Token) :
    (yard base queue output operators).set base.length (.queue queue') = yard base queue' output operators := by simp [yard]

theorem set_output (output' : List Token) :
    (yard base queue output operators).set (base.length + 1) (.queue output') = yard base queue output' operators := by
  simp [yard]

theorem set_operators (operators' : List Token) :
    (yard base queue output operators).set (base.length + 2) (.stack operators') = yard base queue output operators' := by
  simp [yard]

variable (token : Token)

instance : Inhabited Token := ⟨.leftParen⟩

@[simp] theorem run_isEmpty_queue : (isEmpty base.length).run Held.step (yard base queue output operators) =
    some (queue.isEmpty, yard base queue output operators) := by
  rw [isEmpty, run_call (yard_get ..).1 rfl, set_queue]
  rfl

@[simp] theorem run_pop_queue : (pop base.length).run Held.step (yard base (token :: queue) output operators) =
    some (token, yard base queue output operators) := by
  rw [pop, run_call (yard_get ..).1 rfl, set_queue]
  rfl

@[simp] theorem run_push_output : (push (base.length + 1) token).run Held.step (yard base queue output operators) =
    some ((), yard base queue (output ++ [token]) operators) := by
  rw [push, act, run_call (yard_get ..).2.1 rfl, set_output]
  rfl

@[simp] theorem run_fail : (fail (base.length + 1)).run Held.step (yard base queue output operators) =
    some (true, yard base queue [] operators) := by
  rw [fail, Program.run_bind, act, run_call (yard_get ..).2.1 rfl, set_output]
  rfl

@[simp] theorem run_isEmpty_operators : (isEmpty (base.length + 2)).run Held.step (yard base queue output operators) =
    some (operators.isEmpty, yard base queue output operators) := by
  rw [isEmpty, run_call (yard_get ..).2.2 rfl, set_operators]
  rfl

@[simp] theorem run_front_operators : (front (base.length + 2)).run Held.step (yard base queue output (token :: operators)) =
    some (token, yard base queue output (token :: operators)) := by
  rw [front, run_call (yard_get ..).2.2 rfl, set_operators]
  rfl

@[simp] theorem run_pop_operators : (pop (base.length + 2)).run Held.step (yard base queue output (token :: operators)) =
    some (token, yard base queue output operators) := by
  rw [pop, run_call (yard_get ..).2.2 rfl, set_operators]
  rfl

@[simp] theorem run_push_operators : (push (base.length + 2) token).run Held.step (yard base queue output operators) =
    some ((), yard base queue output (token :: operators)) := by
  rw [push, act, run_call (yard_get ..).2.2 rfl, set_operators]
  rfl

end

/-! ## The loops -/

variable {base : List (Held Token)}

theorem run_popOperatorsLoop (token : Token) (queue : List Token) : ∀ (operators output : List Token) (fuel : Nat),
    operators.length < fuel → (popOperatorsLoop (base.length + 1) (base.length + 2) token fuel).run Held.step
      (yard base queue output operators) =
        some ((), yard base queue (popOperators token output operators).1 (popOperators token output operators).2)
  | _, _, 0, hlt => absurd hlt (Nat.not_lt_zero _)
  | [], output, fuel + 1, _ => by simp [popOperatorsLoop, popOperators]
  | top :: operators, output, fuel + 1, hlt => by
    have ih := run_popOperatorsLoop token queue operators (output ++ [top]) fuel (Nat.lt_of_succ_lt_succ hlt)
    by_cases hpop : top ≠ .leftParen ∧ top.precedence ≥ token.precedence
    · simp [popOperatorsLoop, popOperators, hpop, ih]
    · simp [popOperatorsLoop, popOperators, hpop]

theorem run_popAllLoop (queue : List Token) : ∀ (operators output : List Token) (fuel : Nat), operators.length < fuel →
    ∃ left, (popAllLoop (base.length + 1) (base.length + 2) fuel).run Held.step (yard base queue output operators) =
      some ((popAll output operators).isNone, yard base queue ((popAll output operators).getD []) left)
  | _, _, 0, hlt => absurd hlt (Nat.not_lt_zero _)
  | [], output, fuel + 1, _ => ⟨[], by simp [popAllLoop, popAll]⟩
  | top :: operators, output, fuel + 1, hlt => by
    by_cases htop : top = .leftParen
    · exact ⟨top :: operators, by simp [popAllLoop, popAll, htop]⟩
    · obtain ⟨left, ih⟩ := run_popAllLoop queue operators (output ++ [top]) fuel (Nat.lt_of_succ_lt_succ hlt)
      exact ⟨left, by simp [popAllLoop, popAll, htop, ih]⟩

theorem run_popToParenLoop (queue : List Token) : ∀ (operators output : List Token) (fuel : Nat), operators.length < fuel →
    (popToParenLoop (base.length + 1) (base.length + 2) fuel).run Held.step (yard base queue output operators) =
      match popToParen output operators with
      | none => some (!operators.isEmpty, yard base queue (output ++ operators) [])
      | some (output, operators) => some (false, yard base queue output (.leftParen :: operators))
  | _, _, 0, hlt => absurd hlt (Nat.not_lt_zero _)
  | [], output, fuel + 1, _ => by simp [popToParenLoop, popToParen]
  | top :: operators, output, fuel + 1, hlt => by
    have ih := run_popToParenLoop queue operators (output ++ [top]) fuel (Nat.lt_of_succ_lt_succ hlt)
    by_cases htop : top = .leftParen
    · simp [popToParenLoop, popToParen, htop]
    · cases operators with
      | nil => simp [popToParenLoop, popToParen, htop]
      | cons next operators =>
        rw [popToParen, if_neg htop, popToParenLoop]
        simp [htop, ih]

theorem run_closeParen (queue operators output : List Token) {bound : Nat} (hlt : operators.length < bound) :
    (closeParen (base.length + 1) (base.length + 2) bound).run Held.step (yard base queue output operators) =
      match popToParen output operators with
      | none => some (true, yard base queue [] [])
      | some (output, operators) => some (false, yard base queue output operators) := by
  have hloop := @run_popToParenLoop base queue operators output bound hlt
  rw [closeParen, Program.run_bind, hloop]
  cases hpop : popToParen output operators with
  | none => cases operators <;> simp
  | some r => simp

/-- **The shunting yard**: the flag, and the output. -/
theorem run_yardLoop {bound : Nat} : ∀ (queue output operators : List Token) (fuel : Nat), queue.length < fuel →
    operators.length + queue.length < bound → ∃ rest left,
      (yardLoop base.length (base.length + 1) (base.length + 2) bound fuel).run Held.step
        (yard base queue output operators) =
        some ((shuntingYard queue output operators).isNone,
          yard base rest ((shuntingYard queue output operators).getD []) left)
  | _, _, _, 0, hlt, _ => absurd hlt (Nat.not_lt_zero _)
  | [], output, operators, fuel + 1, _, hbound => by
    obtain ⟨left, hall⟩ := @run_popAllLoop base [] operators output bound hbound
    exact ⟨[], left, by simp [yardLoop, shuntingYard, hall]⟩
  | token :: queue, output, operators, fuel + 1, hlt, hbound => by
    have hfuel := Nat.lt_of_succ_lt_succ hlt
    have hbound' : (token :: operators).length + queue.length < bound := by
      rw [List.length_cons] at hbound ⊢
      omega
    cases token with
    | tokenStr s =>
      obtain ⟨rest, left, ih⟩ := run_yardLoop queue (output ++ [.tokenStr s]) operators fuel hfuel
        (Nat.lt_of_le_of_lt (Nat.add_le_add_left (Nat.le_succ _) _) hbound)
      exact ⟨rest, left, by simp [yardLoop, shuntingYard, ih]⟩
    | relational s =>
      obtain ⟨rest, left, ih⟩ := run_yardLoop queue output (.relational s :: operators) fuel hfuel hbound'
      exact ⟨rest, left, by simp [yardLoop, shuntingYard, ih]⟩
    | logical s =>
      obtain ⟨ops, rest', heq, hpop, -⟩ := popOperators_cut (.logical s) output operators
      have hloop := @run_popOperatorsLoop base (.logical s) queue operators output bound (by omega)
      rw [hpop] at hloop
      have hrest : (.logical s :: rest').length + queue.length < bound := by
        rw [heq, List.length_cons, List.length_append] at hbound'
        rw [List.length_cons]
        omega
      obtain ⟨rest, left, ih⟩ := run_yardLoop queue (output ++ ops) (.logical s :: rest') fuel hfuel hrest
      exact ⟨rest, left, by simp [yardLoop, shuntingYard, hloop, hpop, ih]⟩
    | leftParen =>
      obtain ⟨rest, left, ih⟩ := run_yardLoop queue output (.leftParen :: operators) fuel hfuel hbound'
      exact ⟨rest, left, by simp [yardLoop, shuntingYard, ih]⟩
    | rightParen =>
      have hclose := @run_closeParen base queue operators output bound (by omega)
      rcases popToParen_cut output operators with ⟨hpop, -⟩ | ⟨ops, rest', heq, hpop, -⟩
      · rw [hpop] at hclose
        exact ⟨queue, [], by simp [yardLoop, shuntingYard, hclose, hpop]⟩
      · rw [hpop] at hclose
        have hrest : rest'.length + queue.length < bound := by
          rw [heq, List.length_cons, List.length_append, List.length_cons] at hbound'
          omega
        obtain ⟨rest, left, ih⟩ := run_yardLoop queue (output ++ ops) rest' fuel hfuel hrest
        exact ⟨rest, left, by simp [yardLoop, shuntingYard, hclose, hpop, ih]⟩

theorem run_yardCalls (base : List (Held Token)) {queue : List Token} {bound : Nat} (hbound : queue.length < bound) :
    ∃ rest, (yardCalls base.length bound).run Held.step (base ++ [.queue queue]) =
      some (((runPostfix queue).1, base.length + 1), base ++ [.queue rest, .queue (runPostfix queue).2, .gone]) := by
  obtain ⟨rest, left, hloop⟩ := @run_yardLoop base bound queue [] [] bound hbound (by simpa using hbound)
  refine ⟨rest, ?_⟩
  have hpostfix : runPostfix queue = ((shuntingYard queue [] []).isNone, (shuntingYard queue [] []).getD []) := by
    rw [runPostfix, toPostfix]
    cases shuntingYard queue [] [] <;> rfl
  rw [yard] at hloop
  simp [yardCalls, make, act, Program.run, Held.step, hloop, hpostfix, yard, Held.call]

end LinkedList
end Sql
