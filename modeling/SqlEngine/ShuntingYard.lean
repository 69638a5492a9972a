import SqlEngine.Wire
/-!
# ShuntingYard — conditions from infix to postfix

`ShuntingYard::shunting_yard` on the typed tokens of a WHERE clause.  A queue that is derived from the grammar of boolean
expressions comes out as the postfix form of the formula it stands for (`toPostfix_derives`): `shuntingYard_derives`
carries the pending operators of an open frame through every production.
-/
namespace Sql
namespace Query

open Wire

/-! ## Tokens -/

inductive Token where
  | tokenStr (s : Bytes)
  | relational (s : Bytes)
  | logical (s : Bytes)
  | leftParen
  | rightParen
  deriving DecidableEq, Repr

def relationalTexts : List Bytes := [ascii "<", ascii ">", ascii "<=", ascii ">=", ascii "=", ascii "!="]

def Token.precedence : Token → Int
  | relational s => if s ∈ relationalTexts ∨ s = ascii "LIKE" then 4 else -1
  | logical s => if s = ascii "not" then 3 else if s = ascii "and" then 2 else if s = ascii "or" then 1 else -1
  | _ => -1

/-! ## The algorithm -/

/-- A logical operator pops what binds at least as tight, down to a parenthesis. -/
def popOperators (token : Token) : List Token → List Token → List Token × List Token
  | output, [] => (output, [])
  | output, top :: stack =>
    if top ≠ .leftParen ∧ top.precedence ≥ token.precedence then popOperators token (output ++ [top]) stack
    else (output, top :: stack)

/-- A closing parenthesis pops everything down to its partner. -/
def popToParen : List Token → List Token → Option (List Token × List Token)
  | _, [] => none
  | output, top :: stack => if top = .leftParen then some (output, stack) else popToParen (output ++ [top]) stack

/-- The end pops everything, and there is no open parenthesis left. -/
def popAll : List Token → List Token → Option (List Token)
  | output, [] => some output
  | output, top :: stack => if top = .leftParen then none else popAll (output ++ [top]) stack

/-- The loop over the queue; `none` is the error flag. -/
def shuntingYard : List Token → List Token → List Token → Option (List Token)
  | [], output, stack => popAll output stack
  | .tokenStr s :: queue, output, stack => shuntingYard queue (output ++ [.tokenStr s]) stack
  | .leftParen :: queue, output, stack => shuntingYard queue output (.leftParen :: stack)
  | .relational s :: queue, output, stack => shuntingYard queue output (.relational s :: stack)
  | .logical s :: queue, output, stack =>
    let (output, stack) := popOperators (.logical s) output stack
    shuntingYard queue output (.logical s :: stack)
  | .rightParen :: queue, output, stack =>
    match popToParen output stack with
    | none => none
    | some (output, stack) => shuntingYard queue output stack

def toPostfix (queue : List Token) : Option (List Token) := shuntingYard queue [] []

/-! ## Conditions and their grammar -/

/-- What a condition means. -/
inductive Formula where
  | compare (field operation value : Bytes)
  | and (left right : Formula)
  | or (left right : Formula)
  deriving DecidableEq, Repr

def Formula.toPostfix : Formula → List Token
  | compare field operation value => [.tokenStr field, .tokenStr value, .relational operation]
  | and left right => left.toPostfix ++ right.toPostfix ++ [.logical (ascii "and")]
  | or left right => left.toPostfix ++ right.toPostfix ++ [.logical (ascii "or")]

/-- The fields that are compared. -/
def Formula.fields : Formula → List Bytes
  | compare field _ _ => [field]
  | and left right | or left right => left.fields ++ right.fields

/-- The nonterminals E, T and F. -/
inductive Level where
  | expression | term | factor
  deriving DecidableEq, Repr

/-- `E -> T (or T)*`, `T -> F (and F)*`, `F -> ( E ) | operand relational operand`. -/
inductive Derives : Level → List Token → Formula → Prop where
  | compare (field value : Bytes) {operation : Bytes} (h : operation ∈ relationalTexts) :
      Derives .factor [.tokenStr field, .relational operation, .tokenStr value] (.compare field operation value)
  | paren {queue φ} (h : Derives .expression queue φ) : Derives .factor (.leftParen :: queue ++ [.rightParen]) φ
  | factor {queue φ} (h : Derives .factor queue φ) : Derives .term queue φ
  | and {left right φ ψ} (hl : Derives .term left φ) (hr : Derives .factor right ψ) :
      Derives .term (left ++ .logical (ascii "and") :: right) (.and φ ψ)
  | term {queue φ} (h : Derives .term queue φ) : Derives .expression queue φ
  | or {left right φ ψ} (hl : Derives .expression left φ) (hr : Derives .term right ψ) :
      Derives .expression (left ++ .logical (ascii "or") :: right) (.or φ ψ)

/-- Without a logical operator there is one comparison. -/
theorem Derives.logical {level : Level} {queue : List Token} {φ : Formula} (h : Derives level queue φ)
    {field operation value : Bytes} (hφ : φ = .compare field operation value) (s : Bytes) : Token.logical s ∉ queue := by
  induction h with
  | compare _ _ _ => simp
  | paren _ ih => simpa using ih hφ
  | factor _ ih => exact ih hφ
  | term _ ih => exact ih hφ
  | and _ _ => cases hφ
  | or _ _ => cases hφ

/-! ## Pending operators -/

/-- How tight the operators bind that a nonterminal leaves on the stack. -/
def Level.bound : Level → Int
  | expression => 1
  | term | factor => 2

/-- The stack below ends the frame: what is on top would not be popped with them. -/
def Level.Rests (level : Level) (stack : List Token) : Prop :=
  level = .factor ∨ ∀ top ∈ stack.head?, top = .leftParen ∨ top.precedence < level.bound

/-- Operators a logical operator of this precedence pops. -/
def Pending (bound : Int) (ops : List Token) : Prop := ∀ t ∈ ops, t ≠ .leftParen ∧ bound ≤ t.precedence

theorem popOperators_pending {token : Token} : ∀ {ops : List Token} (output stack : List Token),
    Pending token.precedence ops → (∀ top ∈ stack.head?, top = .leftParen ∨ top.precedence < token.precedence) →
    popOperators token output (ops ++ stack) = (output ++ ops, stack)
  | [], output, [], _, _ => by simp [popOperators]
  | [], output, top :: stack, _, hstack => by
    have htop := hstack top rfl
    rw [List.nil_append, popOperators, if_neg (by rintro ⟨h1, h2⟩; exact htop.elim h1 (fun h => by omega)), List.append_nil]
  | op :: ops, output, stack, hops, hstack => by
    have hop := hops op List.mem_cons_self
    rw [List.cons_append, popOperators, if_pos hop,
      popOperators_pending _ _ (fun t ht => hops t (List.mem_cons_of_mem op ht)) hstack, List.append_assoc]
    rfl

theorem popToParen_pending : ∀ {ops : List Token} (output stack : List Token), (∀ t ∈ ops, t ≠ .leftParen) →
    popToParen output (ops ++ .leftParen :: stack) = some (output ++ ops, stack)
  | [], output, stack, _ => by simp [popToParen]
  | op :: ops, output, stack, h => by
    rw [List.cons_append, popToParen, if_neg (h op List.mem_cons_self),
      popToParen_pending _ _ (fun t ht => h t (List.mem_cons_of_mem op ht)), List.append_assoc]
    rfl

theorem popAll_pending : ∀ {ops : List Token} (output : List Token), (∀ t ∈ ops, t ≠ .leftParen) →
    popAll output ops = some (output ++ ops)
  | [], output, _ => by simp [popAll]
  | op :: ops, output, h => by
    rw [popAll, if_neg (h op List.mem_cons_self), popAll_pending _ (fun t ht => h t (List.mem_cons_of_mem op ht)),
      List.append_assoc]
    rfl

theorem precedence_relational {operation : Bytes} (h : operation ∈ relationalTexts) :
    (Token.relational operation).precedence = 4 := if_pos (Or.inl h)

theorem precedence_and : (Token.logical (ascii "and")).precedence = 2 := by decide

theorem precedence_or : (Token.logical (ascii "or")).precedence = 1 := by decide

/-- **A derived queue in front of any other**: its postfix form is split between the output and the pending operators of
its frame. -/
theorem shuntingYard_derives {level : Level} {queue : List Token} {φ : Formula} (h : Derives level queue φ) :
    ∀ rest output stack : List Token, level.Rests stack → ∃ out ops : List Token, out ++ ops = φ.toPostfix ∧
      Pending level.bound ops ∧
      shuntingYard (queue ++ rest) output stack = shuntingYard rest (output ++ out) (ops ++ stack) := by
  induction h with
  | compare field value h =>
    intro rest output stack _
    refine ⟨[.tokenStr field, .tokenStr value], [.relational _], rfl, ?_, ?_⟩
    · intro t ht
      obtain rfl := List.mem_singleton.1 ht
      rw [precedence_relational h]
      exact ⟨by simp, by decide⟩
    · simp [shuntingYard]
  | @paren queue φ h ih =>
    intro rest output stack _
    obtain ⟨out, ops, hφ, hops, hrun⟩ := ih (.rightParen :: rest) output (.leftParen :: stack) (Or.inr (fun top ht =>
      Or.inl (Option.some.inj ht).symm))
    refine ⟨φ.toPostfix, [], List.append_nil _, fun t ht => (List.not_mem_nil ht).elim, ?_⟩
    rw [List.cons_append, List.cons_append, List.append_assoc, List.singleton_append, shuntingYard, hrun, shuntingYard,
      popToParen_pending _ _ (fun t ht => (hops t ht).1), List.append_assoc, hφ]
    rfl
  | factor _ ih => exact fun rest output stack _ => ih rest output stack (Or.inl rfl)
  | @and left right φ ψ _ _ ihl ihr =>
    intro rest output stack hstack
    obtain ⟨out, ops, hφ, hops, hrun⟩ := ihl (.logical (ascii "and") :: (right ++ rest)) output stack hstack
    obtain ⟨out', ops', hψ, hops', hrun'⟩ := ihr rest (output ++ out ++ ops) (.logical (ascii "and") :: stack) (Or.inl rfl)
    have hframe := hstack.resolve_left (by simp)
    refine ⟨out ++ ops ++ out', ops' ++ [.logical (ascii "and")], ?_, ?_, ?_⟩
    · rw [Formula.toPostfix, ← hφ, ← hψ]
      simp only [List.append_assoc]
    · intro t ht
      rcases List.mem_append.1 ht with ht | ht
      · exact hops' t ht
      · obtain rfl := List.mem_singleton.1 ht
        exact ⟨by simp, by rw [precedence_and]; decide⟩
    · rw [List.append_assoc, List.cons_append, hrun, shuntingYard,
        popOperators_pending _ _ (by rw [precedence_and]; exact hops) (by rw [precedence_and]; exact hframe)]
      simp only
      rw [hrun']
      simp only [List.append_assoc, List.singleton_append]
  | term _ ih =>
    intro rest output stack hstack
    have hframe := hstack.resolve_left (by simp)
    obtain ⟨out, ops, hφ, hops, hrun⟩ := ih rest output stack (Or.inr (fun top ht => (hframe top ht).imp_right
      (fun hlt => lt_trans hlt (by decide))))
    exact ⟨out, ops, hφ, fun t ht => ⟨(hops t ht).1, le_trans (by decide) (hops t ht).2⟩, hrun⟩
  | @or left right φ ψ _ _ ihl ihr =>
    intro rest output stack hstack
    obtain ⟨out, ops, hφ, hops, hrun⟩ := ihl (.logical (ascii "or") :: (right ++ rest)) output stack hstack
    obtain ⟨out', ops', hψ, hops', hrun'⟩ := ihr rest (output ++ out ++ ops) (.logical (ascii "or") :: stack)
      (Or.inr (fun top ht => Or.inr (by obtain rfl := (Option.some.inj ht); rw [precedence_or]; decide)))
    have hframe := hstack.resolve_left (by simp)
    refine ⟨out ++ ops ++ out', ops' ++ [.logical (ascii "or")], ?_, ?_, ?_⟩
    · rw [Formula.toPostfix, ← hφ, ← hψ]
      simp only [List.append_assoc]
    · intro t ht
      rcases List.mem_append.1 ht with ht | ht
      · exact ⟨(hops' t ht).1, le_trans (by decide) (hops' t ht).2⟩
      · obtain rfl := List.mem_singleton.1 ht
        exact ⟨by simp, by rw [precedence_or]; decide⟩
    · rw [List.append_assoc, List.cons_append, hrun, shuntingYard,
        popOperators_pending _ _ (by rw [precedence_or]; exact hops) (by rw [precedence_or]; exact hframe)]
      simp only
      rw [hrun']
      simp only [List.append_assoc, List.singleton_append]

/-- **Well-formed conditions come out as the postfix form of their formula.** -/
theorem toPostfix_derives {queue : List Token} {φ : Formula} (h : Derives .expression queue φ) :
    toPostfix queue = some φ.toPostfix := by
  obtain ⟨out, ops, hφ, hops, hrun⟩ := shuntingYard_derives h [] [] [] (Or.inr (fun top ht => by cases ht))
  rw [List.append_nil, List.append_nil, List.nil_append] at hrun
  rw [toPostfix, hrun, shuntingYard, popAll_pending _ (fun t ht => (hops t ht).1), hφ]

/-! ## Queues in any order -/

/-- `postfix()` and `is_error()` after it: whoever sets the flag clears the output. -/
def runPostfix (queue : List Token) : Bool × List Token :=
  match toPostfix queue with
  | none => (true, [])
  | some output => (false, output)

/-- No prefix has more right than left parentheses, and the totals agree. -/
def Balanced (queue : List Token) : Prop :=
  (∀ front, front <+: queue → front.count .rightParen ≤ front.count .leftParen) ∧
    queue.count .rightParen = queue.count .leftParen

def Token.isParen : Token → Bool
  | leftParen | rightParen => true
  | _ => false

def Token.isOperand : Token → Bool
  | tokenStr _ => true
  | _ => false

/-- The queue closes the parentheses that are open, and its own. -/
def closes : Nat → List Token → Bool
  | depth, [] => depth = 0
  | depth, .leftParen :: queue => closes (depth + 1) queue
  | 0, .rightParen :: _ => false
  | depth + 1, .rightParen :: queue => closes depth queue
  | depth, _ :: queue => closes depth queue

theorem closes_other {token : Token} (h : token.isParen = false) (queue : List Token) (depth : Nat) :
    closes depth (token :: queue) = closes depth queue := by
  cases token with
  | leftParen => cases h
  | rightParen => cases h
  | tokenStr s | relational s | logical s =>
    rw [closes]
    all_goals simp

theorem closes_iff : ∀ (queue : List Token) (depth : Nat), closes depth queue = true ↔
    (∀ front, front <+: queue → front.count .rightParen ≤ depth + front.count .leftParen) ∧
      queue.count .rightParen = depth + queue.count .leftParen
  | [], depth => by
    simp only [closes, decide_eq_true_eq, List.prefix_nil, forall_eq, List.count_nil]
    omega
  | token :: queue, depth => by
    have hfront : ∀ P : List Token → Prop, (∀ front, front <+: token :: queue → P front) ↔
        P [] ∧ ∀ front, front <+: queue → P (token :: front) := by
      intro P
      constructor
      · exact fun h => ⟨h [] List.nil_prefix, fun front hf => h _ ((List.cons_prefix_cons).2 ⟨rfl, hf⟩)⟩
      · rintro ⟨h0, h⟩ front hf
        cases front with
        | nil => exact h0
        | cons x front =>
          obtain ⟨rfl, hf'⟩ := List.cons_prefix_cons.1 hf
          exact h front hf'
    rw [hfront]
    cases token with
    | leftParen =>
      rw [closes, closes_iff queue (depth + 1)]
      simp [Nat.add_assoc, Nat.add_comm 1]
    | rightParen =>
      cases depth with
      | zero =>
        refine iff_of_false Bool.false_ne_true (fun h => ?_)
        have h1 := h.1.2 [] List.nil_prefix
        simp at h1
      | succ depth =>
        rw [closes, closes_iff queue depth]
        simp only [List.count_nil, Nat.zero_le, true_and, List.count_cons_self, List.count_cons_of_ne, ne_eq, reduceCtorEq,
          not_false_eq_true, Nat.add_right_comm depth 1, Nat.add_le_add_iff_right, Nat.add_right_cancel_iff]
    | tokenStr s | relational s | logical s =>
      rw [closes_other rfl, closes_iff queue depth]
      simp

theorem closes_balanced (queue : List Token) : closes 0 queue = true ↔ Balanced queue := by
  rw [closes_iff, Balanced]
  simp only [Nat.zero_add]

theorem popOperators_cut (token : Token) : ∀ (output stack : List Token), ∃ ops rest, stack = ops ++ rest ∧
    popOperators token output stack = (output ++ ops, rest) ∧ Token.leftParen ∉ ops
  | output, [] => ⟨[], [], rfl, by rw [popOperators, List.append_nil], List.not_mem_nil⟩
  | output, top :: stack => by
    rw [popOperators]
    by_cases h : top ≠ .leftParen ∧ top.precedence ≥ token.precedence
    · obtain ⟨ops, rest, hstack, hpop, hops⟩ := popOperators_cut token (output ++ [top]) stack
      refine ⟨top :: ops, rest, by rw [hstack, List.cons_append], ?_, fun hmem => ?_⟩
      · rw [if_pos h, hpop, List.append_assoc, List.singleton_append]
      · exact (List.mem_cons.1 hmem).elim (fun heq => h.1 heq.symm) hops
    · exact ⟨[], top :: stack, rfl, by rw [if_neg h, List.append_nil], List.not_mem_nil⟩

theorem popToParen_cut : ∀ (output stack : List Token), (popToParen output stack = none ∧ Token.leftParen ∉ stack) ∨
    ∃ ops rest, stack = ops ++ .leftParen :: rest ∧ popToParen output stack = some (output ++ ops, rest) ∧
      Token.leftParen ∉ ops
  | output, [] => Or.inl ⟨rfl, List.not_mem_nil⟩
  | output, top :: stack => by
    rw [popToParen]
    by_cases h : top = .leftParen
    · exact Or.inr ⟨[], stack, by rw [h]; rfl, by rw [if_pos h, List.append_nil], List.not_mem_nil⟩
    · rw [if_neg h]
      rcases popToParen_cut (output ++ [top]) stack with ⟨hpop, hstack⟩ | ⟨ops, rest, hstack, hpop, hops⟩
      · exact Or.inl ⟨hpop, fun hmem => (List.mem_cons.1 hmem).elim (fun heq => h heq.symm) hstack⟩
      · refine Or.inr ⟨top :: ops, rest, by rw [hstack, List.cons_append], ?_, fun hmem => ?_⟩
        · rw [hpop, List.append_assoc, List.singleton_append]
        · exact (List.mem_cons.1 hmem).elim (fun heq => h heq.symm) hops

theorem popAll_cut : ∀ (output stack : List Token), (popAll output stack = none ∧ Token.leftParen ∈ stack) ∨
    (popAll output stack = some (output ++ stack) ∧ Token.leftParen ∉ stack)
  | output, [] => Or.inr ⟨by rw [popAll, List.append_nil], List.not_mem_nil⟩
  | output, top :: stack => by
    rw [popAll]
    by_cases h : top = .leftParen
    · exact Or.inl ⟨if_pos h, h ▸ List.mem_cons_self⟩
    · rw [if_neg h]
      rcases popAll_cut (output ++ [top]) stack with ⟨hpop, hstack⟩ | ⟨hpop, hstack⟩
      · exact Or.inl ⟨hpop, List.mem_cons_of_mem top hstack⟩
      · refine Or.inr ⟨by rw [hpop, List.append_assoc, List.singleton_append], fun hmem => ?_⟩
        exact (List.mem_cons.1 hmem).elim (fun heq => h heq.symm) hstack

/-- What is on the operator stack. -/
def OperatorStack (stack : List Token) : Prop := ∀ t ∈ stack, t.isOperand = false ∧ t ≠ .rightParen

/-- The tokens that are not parentheses. -/
def content (tokens : List Token) : List Token := tokens.filter (fun t => !t.isParen)

theorem content_append (xs ys : List Token) : content (xs ++ ys) = content xs ++ content ys := List.filter_append ..

theorem content_operators {ops : List Token} (h : OperatorStack ops) (hleft : Token.leftParen ∉ ops) :
    content ops = ops := by
  refine List.filter_eq_self.2 (fun t ht => ?_)
  cases t with
  | leftParen => exact absurd ht hleft
  | rightParen => exact absurd rfl (h _ ht).2
  | tokenStr s => rfl
  | relational s => rfl
  | logical s => rfl

/-- **Any queue over any stack**: the depth of the stack decides, nothing is lost and the operands stay in order. -/
theorem shuntingYard_any : ∀ queue output stack : List Token, OperatorStack stack →
    (shuntingYard queue output stack = none ∧ closes (stack.count .leftParen) queue = false) ∨
    ∃ out, shuntingYard queue output stack = some out ∧ closes (stack.count .leftParen) queue = true ∧
      (∀ t, out.count t = output.count t + (content stack).count t + (content queue).count t) ∧
      out.filter Token.isOperand = output.filter Token.isOperand ++ queue.filter Token.isOperand
  | [], output, stack, hs => by
    rw [shuntingYard]
    rcases popAll_cut output stack with ⟨hpop, hmem⟩ | ⟨hpop, hmem⟩
    · refine Or.inl ⟨hpop, ?_⟩
      have hpos := List.count_pos_iff.2 hmem
      simp only [closes, decide_eq_false_iff_not]
      omega
    · refine Or.inr ⟨_, hpop, ?_, fun t => ?_, ?_⟩
      · simp only [closes, List.count_eq_zero.2 hmem, decide_true]
      · rw [content_operators hs hmem, List.count_append]
        rfl
      · have hnone : stack.filter Token.isOperand = [] := List.filter_eq_nil_iff.2 (fun t ht => by simp [(hs t ht).1])
        rw [List.filter_append, hnone]
        rfl
  | .tokenStr s :: queue, output, stack, hs => by
    rw [shuntingYard, closes_other rfl]
    rcases shuntingYard_any queue (output ++ [.tokenStr s]) stack hs with hnone | ⟨out, hrun, hcloses, hcount, hoperands⟩
    · exact Or.inl hnone
    · refine Or.inr ⟨out, hrun, hcloses, fun t => ?_, ?_⟩
      · rw [hcount t, show content (.tokenStr s :: queue) = .tokenStr s :: content queue from rfl, List.count_append,
          ← List.singleton_append (l := content queue), List.count_append]
        omega
      · rw [hoperands, List.filter_append, List.append_assoc]
        rfl
  | .leftParen :: queue, output, stack, hs => by
    have hs' : OperatorStack (.leftParen :: stack) := fun t ht =>
      (List.mem_cons.1 ht).elim (fun h => h ▸ by simp [Token.isOperand]) (hs t)
    have hcount' : (Token.leftParen :: stack).count .leftParen = stack.count .leftParen + 1 := List.count_cons_self
    have ih := shuntingYard_any queue output (.leftParen :: stack) hs'
    rw [hcount'] at ih
    rw [shuntingYard, closes]
    exact ih
  | .relational s :: queue, output, stack, hs => by
    have hs' : OperatorStack (.relational s :: stack) := fun t ht =>
      (List.mem_cons.1 ht).elim (fun h => h ▸ by simp [Token.isOperand]) (hs t)
    have hdepth : (Token.relational s :: stack).count .leftParen = stack.count .leftParen := List.count_cons_of_ne (by simp)
    have ih := shuntingYard_any queue output (.relational s :: stack) hs'
    rw [hdepth] at ih
    rw [shuntingYard, closes_other rfl]
    rcases ih with hnone | ⟨out, hrun, hcloses, hcount, hoperands⟩
    · exact Or.inl hnone
    · refine Or.inr ⟨out, hrun, hcloses, fun t => ?_, hoperands⟩
      have h1 := hcount t
      rw [show content (.relational s :: stack) = [.relational s] ++ content stack from rfl, List.count_append] at h1
      rw [show content (.relational s :: queue) = [.relational s] ++ content queue from rfl, List.count_append]
      omega
  | .logical s :: queue, output, stack, hs => by
    obtain ⟨ops, rest, rfl, hpop, hops⟩ := popOperators_cut (.logical s) output stack
    have hsops : OperatorStack ops := fun t ht => hs t (List.mem_append_left rest ht)
    have hs' : OperatorStack (.logical s :: rest) := fun t ht =>
      (List.mem_cons.1 ht).elim (fun h => h ▸ by simp [Token.isOperand]) (fun h => hs t (List.mem_append_right ops h))
    have hdepth : (Token.logical s :: rest).count .leftParen = (ops ++ rest).count .leftParen := by
      rw [List.count_cons_of_ne (by simp), List.count_append, List.count_eq_zero.2 hops, Nat.zero_add]
    have ih := shuntingYard_any queue (output ++ ops) (.logical s :: rest) hs'
    rw [hdepth] at ih
    rw [shuntingYard, closes_other rfl, hpop]
    rcases ih with hnone | ⟨out, hrun, hcloses, hcount, hoperands⟩
    · exact Or.inl hnone
    · refine Or.inr ⟨out, hrun, hcloses, fun t => ?_, ?_⟩
      · have h1 := hcount t
        rw [show content (.logical s :: rest) = [.logical s] ++ content rest from rfl, List.count_append,
          List.count_append] at h1
        rw [show content (.logical s :: queue) = [.logical s] ++ content queue from rfl, List.count_append, content_append,
          content_operators hsops hops, List.count_append]
        omega
      · have hnone : ops.filter Token.isOperand = [] := List.filter_eq_nil_iff.2 (fun t ht => by simp [(hsops t ht).1])
        rw [hoperands, List.filter_append, hnone, List.append_nil]
        rfl
  | .rightParen :: queue, output, stack, hs => by
    rw [shuntingYard]
    rcases popToParen_cut output stack with ⟨hpop, hmem⟩ | ⟨ops, rest, rfl, hpop, hops⟩
    · refine Or.inl ⟨by rw [hpop], ?_⟩
      rw [List.count_eq_zero.2 hmem, closes]
    · have hsops : OperatorStack ops := fun t ht => hs t (List.mem_append_left _ ht)
      have hs' : OperatorStack rest := fun t ht => hs t (List.mem_append_right ops (List.mem_cons_of_mem _ ht))
      have hdepth : (ops ++ .leftParen :: rest).count .leftParen = rest.count .leftParen + 1 := by
        rw [List.count_append, List.count_eq_zero.2 hops, Nat.zero_add, List.count_cons_self]
      rw [hpop, hdepth, closes]
      rcases shuntingYard_any queue (output ++ ops) rest hs' with hnone | ⟨out, hrun, hcloses, hcount, hoperands⟩
      · exact Or.inl hnone
      · refine Or.inr ⟨out, hrun, hcloses, fun t => ?_, ?_⟩
        · have h1 := hcount t
          rw [List.count_append] at h1
          rw [show content (.rightParen :: queue) = content queue from rfl, content_append, content_operators hsops hops,
            List.count_append, show content (.leftParen :: rest) = content rest from rfl]
          omega
        · have hnone : ops.filter Token.isOperand = [] := List.filter_eq_nil_iff.2 (fun t ht => by simp [(hsops t ht).1])
          rw [hoperands, List.filter_append, hnone, List.append_nil]
          rfl

/-- **Shunting-yard on any queue**: the error flag is set exactly on unbalanced parentheses, and then the output is empty;
otherwise the output has every token but the parentheses once, and the operands in their order. -/
theorem runPostfix_any (queue : List Token) : ((runPostfix queue).1 = true ↔ ¬ Balanced queue) ∧
    ((runPostfix queue).1 = true → (runPostfix queue).2 = []) ∧
    ((runPostfix queue).1 = false → (runPostfix queue).2.Perm (content queue) ∧
      (runPostfix queue).2.filter Token.isOperand = queue.filter Token.isOperand) := by
  rw [← closes_balanced, runPostfix, toPostfix]
  rcases shuntingYard_any queue [] [] (fun t ht => by cases ht) with ⟨hnone, hcloses⟩ | ⟨out, hrun, hcloses, hcount,
    hoperands⟩
  · have hcloses' : closes 0 queue = false := hcloses
    rw [hnone, hcloses']
    exact ⟨iff_of_true rfl Bool.false_ne_true, fun _ => rfl, fun h => absurd h (by simp)⟩
  · have hcloses' : closes 0 queue = true := hcloses
    rw [hrun, hcloses']
    refine ⟨iff_of_false Bool.false_ne_true (not_not.2 rfl), fun h => absurd h (by simp), fun _ => ⟨?_, hoperands⟩⟩
    rw [List.perm_iff_count]
    intro t
    simpa [content] using hcount t

end Query
end Sql
