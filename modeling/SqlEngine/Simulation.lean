import Mathlib.Data.Option.Basic
/-!
# Simulation — machines in lockstep

A library: machines whose steps answer, or cannot be taken.  Two machines are in lockstep when related states can take the
same steps, with the same answers, to related states; then so it is with runs.
-/
namespace Simulation

variable {Op Op' Ans Ans' A B S T S' T' : Type}

def runSteps (step : S → Op → Option (Ans × S)) (s : S) : List Op → Option (List Ans × S)
  | [] => some ([], s)
  | op :: ops => do
    let (ans, s) ← step s op
    let (answers, s) ← runSteps step s ops
    pure (ans :: answers, s)

/-- Both with one answer and to related states, or neither. -/
def Paired (R : S → T → Prop) : Option (A × S) → Option (A × T) → Prop := Option.Rel (fun r r' => r.1 = r'.1 ∧ R r.2 r'.2)

def Lockstep (R : S → T → Prop) (step : S → Op → Option (Ans × S)) (step' : T → Op → Option (Ans × T)) : Prop :=
  ∀ s t op, R s t → Paired R (step s op) (step' t op)

section
variable {R : S → T → Prop} {r : Option (A × S)} {r' : Option (A × T)}

theorem Paired.answered (ans : A) {s : S} {t : T} (h : R s t) : Paired R (some (ans, s)) (some (ans, t)) := .some ⟨rfl, h⟩

theorem Paired.mono {R' : S → T → Prop} (h : Paired R r r') (hR : ∀ s t, R s t → R' s t) : Paired R' r r' := by
  cases h with
  | some h => exact .some ⟨h.1, hR _ _ h.2⟩
  | none => exact .none

/-- What is done with an answer. -/
theorem Paired.bind {R' : S' → T' → Prop} (h : Paired R r r') {k : A × S → Option (B × S')} {k' : A × T → Option (B × T')}
    (hk : ∀ ans s t, R s t → Paired R' (k (ans, s)) (k' (ans, t))) : Paired R' (r.bind k) (r'.bind k') := by
  cases h with
  | @some a b h =>
    obtain ⟨ans, s⟩ := a
    obtain ⟨ans', t⟩ := b
    obtain ⟨rfl, hst⟩ := h
    exact hk ans s t hst
  | none => exact .none

theorem Paired.map {R' : S' → T' → Prop} (h : Paired R r r') {k : A × S → B × S'} {k' : A × T → B × T'}
    (hk : ∀ ans s t, R s t → (k (ans, s)).1 = (k' (ans, t)).1 ∧ R' (k (ans, s)).2 (k' (ans, t)).2) :
    Paired R' (r.map k) (r'.map k') := by
  cases h with
  | @some a b h =>
    obtain ⟨ans, s⟩ := a
    obtain ⟨ans', t⟩ := b
    obtain ⟨rfl, hst⟩ := h
    exact .some (hk ans s t hst)
  | none => exact .none

end

/-- **Runs of machines in lockstep.** -/
theorem Lockstep.run {R : S → T → Prop} {step : S → Op → Option (Ans × S)} {step' : T → Op → Option (Ans × T)}
    (h : Lockstep R step step') : ∀ (ops : List Op) {s : S} {t : T}, R s t →
      Paired R (runSteps step s ops) (runSteps step' t ops)
  | [], _, _, hR => .answered [] hR
  | op :: ops, s, t, hR => (h s t op hR).bind (fun ans _ _ hmid =>
      (Lockstep.run h ops hmid).bind (fun answers _ _ hend => .answered (ans :: answers) hend))

/-! ## Programs -/

/-- A program that calls a machine, and goes on with what is answered. -/
inductive Program (Op Ans A : Type) where
  | stuck
  | ret (a : A)
  | call (op : Op) (next : Ans → Program Op Ans A)

namespace Program

def bind : Program Op Ans A → (A → Program Op Ans B) → Program Op Ans B
  | stuck, _ => stuck
  | ret a, k => k a
  | call op next, k => call op (fun ans => (next ans).bind k)

instance : Monad (Program Op Ans) where
  pure := ret
  bind := bind

def run (step : S → Op → Option (Ans × S)) : Program Op Ans A → S → Option (A × S)
  | stuck, _ => none
  | ret a, s => some (a, s)
  | call op next, s => do
    let (ans, s) ← step s op
    (next ans).run step s

variable (step : S → Op → Option (Ans × S))

@[simp] theorem run_pure (a : A) (s : S) : (pure a : Program Op Ans A).run step s = some (a, s) := rfl

@[simp] theorem run_bind (p : Program Op Ans A) (k : A → Program Op Ans B) (s : S) :
    (p >>= k).run step s = (p.run step s).bind (fun r => (k r.1).run step r.2) := by
  change (p.bind k).run step s = _
  induction p generalizing s with
  | stuck => rfl
  | ret a => rfl
  | call op next ih =>
    rw [bind, run, run]
    cases step s op with
    | none => rfl
    | some r => exact ih r.1 r.2

end Program

/-- **Programs do not tell machines in lockstep apart.** -/
theorem Lockstep.program {R : S → T → Prop} {step : S → Op → Option (Ans × S)} {step' : T → Op → Option (Ans × T)}
    (h : Lockstep R step step') : ∀ (p : Program Op Ans A) {s : S} {t : T}, R s t → Paired R (p.run step s) (p.run step' t)
  | .stuck, _, _, _ => .none
  | .ret a, _, _, hR => .answered a hR
  | .call op next, s, t, hR => (h s t op hR).bind (fun ans _ _ hmid => Lockstep.program h (next ans) hmid)

/-! ## Two machines side by side -/

/-- An operation goes to one of two machines. -/
def beside (step : S → Op → Option (Ans × S)) (step' : S' → Op' → Option (Ans' × S')) :
    S × S' → Op ⊕ Op' → Option ((Ans ⊕ Ans') × S × S')
  | (s, s'), .inl op => (step s op).map (fun r => (.inl r.1, r.2, s'))
  | (s, s'), .inr op => (step' s' op).map (fun r => (.inr r.1, s, r.2))

/-- A machine is in lockstep with itself. -/
theorem lockstep_self (step : S → Op → Option (Ans × S)) : Lockstep Eq step step := by
  rintro s _ op rfl
  cases step s op with
  | none => exact .none
  | some r => exact .answered r.1 rfl

theorem Lockstep.beside {R : S → T → Prop} {R' : S' → T' → Prop} {step : S → Op → Option (Ans × S)}
    {other : T → Op → Option (Ans × T)} {step' : S' → Op' → Option (Ans' × S')} {other' : T' → Op' → Option (Ans' × T')}
    (h : Lockstep R step other) (h' : Lockstep R' step' other') :
    Lockstep (fun s t => R s.1 t.1 ∧ R' s.2 t.2) (beside step step') (Simulation.beside other other') := by
  rintro ⟨s, s'⟩ ⟨t, t'⟩ op ⟨hR, hR'⟩
  cases op with
  | inl op => exact (h s t op hR).map (fun _ _ _ hmid => ⟨rfl, hmid, hR'⟩)
  | inr op => exact (h' s' t' op hR').map (fun _ _ _ hmid => ⟨rfl, hR, hmid⟩)

namespace Program

/-- A program that calls the first of two machines. -/
def left : Program Op Ans A → Program (Op ⊕ Op') (Ans ⊕ Ans') A
  | stuck => stuck
  | ret a => ret a
  | call op next => call (.inl op) (fun | .inl ans => (next ans).left | .inr _ => stuck)

/-- A program that calls the second one. -/
def right : Program Op' Ans' A → Program (Op ⊕ Op') (Ans ⊕ Ans') A
  | stuck => stuck
  | ret a => ret a
  | call op next => call (.inr op) (fun | .inl _ => stuck | .inr ans => (next ans).right)

section
variable (step : S → Op → Option (Ans × S)) (step' : S' → Op' → Option (Ans' × S'))

@[simp] theorem run_left (p : Program Op Ans A) (s : S) (s' : S') :
    (p.left : Program (Op ⊕ Op') (Ans ⊕ Ans') A).run (beside step step') (s, s') =
      (p.run step s).map (fun r => (r.1, r.2, s')) := by
  induction p generalizing s with
  | stuck => rfl
  | ret a => rfl
  | call op next ih =>
    rw [left, run, run, beside]
    cases step s op with
    | none => rfl
    | some r => exact ih r.1 r.2

@[simp] theorem run_right (p : Program Op' Ans' A) (s : S) (s' : S') :
    (p.right : Program (Op ⊕ Op') (Ans ⊕ Ans') A).run (beside step step') (s, s') =
      (p.run step' s').map (fun r => (r.1, s, r.2)) := by
  induction p generalizing s' with
  | stuck => rfl
  | ret a => rfl
  | call op next ih =>
    rw [right, run, run, beside]
    cases step' s' op with
    | none => rfl
    | some r => exact ih r.1 r.2

end

end Program

end Simulation
