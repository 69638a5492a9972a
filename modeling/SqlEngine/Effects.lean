import Mathlib.Data.List.Basic
/-!
# Effects — programs whose effects can be cut off

A library: a program reads the state it starts in and leaves a list of effects and a result; the state behind it is the
effects applied in order.  A process that is killed has performed a prefix of the list, so what holds of a program that
may be killed anywhere is `Cuts`: it holds of the state after every prefix.  Programs compose as in a monad, and `Cuts`
splits along the composition.
-/
namespace Effects

/-- What one effect does to the state. -/
class Acts (ω σ : Type) where
  act : ω → σ → σ

section
variable {ω σ ε α β : Type} [Acts ω σ]

/-- The state after some effects. -/
def after (s : σ) (es : List ω) : σ := es.foldl (fun s e => Acts.act e s) s

@[simp] theorem after_nil (s : σ) : after s ([] : List ω) = s := rfl

@[simp] theorem after_cons (s : σ) (e : ω) (es : List ω) : after s (e :: es) = after (Acts.act e s) es := rfl

theorem after_append (s : σ) (xs ys : List ω) : after s (xs ++ ys) = after (after s xs) ys := List.foldl_append

/-! ## Cutting -/

/-- **Whatever is cut off**, the state satisfies `C`. -/
def Cuts (s : σ) (es : List ω) (C : σ → Prop) : Prop := ∀ k, C (after s (es.take k))

theorem Cuts.last {s : σ} {es : List ω} {C : σ → Prop} (h : Cuts s es C) : C (after s es) := by
  have := h es.length
  rwa [List.take_length] at this

theorem Cuts.mono {s : σ} {es : List ω} {C D : σ → Prop} (h : Cuts s es C) (hcd : ∀ t, C t → D t) : Cuts s es D :=
  fun k => hcd _ (h k)

theorem Cuts_nil {s : σ} {C : σ → Prop} : Cuts s ([] : List ω) C ↔ C s :=
  ⟨fun h => h 0, fun h k => by simpa using h⟩

theorem Cuts_cons {s : σ} {e : ω} {es : List ω} {C : σ → Prop} :
    Cuts s (e :: es) C ↔ C s ∧ Cuts (Acts.act e s) es C := by
  constructor
  · exact fun h => ⟨h 0, fun k => h (k + 1)⟩
  · rintro ⟨h0, h⟩ k
    cases k with
    | zero => exact h0
    | succ k => exact h k

theorem Cuts_append {s : σ} {xs ys : List ω} {C : σ → Prop} :
    Cuts s (xs ++ ys) C ↔ Cuts s xs C ∧ Cuts (after s xs) ys C := by
  induction xs generalizing s with
  | nil =>
    rw [List.nil_append, Cuts_nil, after_nil]
    exact ⟨fun h => ⟨h 0, h⟩, fun h => h.2⟩
  | cons x xs ih => rw [List.cons_append, Cuts_cons, Cuts_cons, ih, after_cons, and_assoc]

/-- Effects that each keep an invariant keep it wherever they are cut off. -/
theorem Cuts.of_invariant {C : σ → Prop} {es : List ω} (h : ∀ e ∈ es, ∀ t, C t → C (Acts.act e t)) :
    ∀ {s : σ}, C s → Cuts s es C := by
  induction es with
  | nil => exact fun hs => Cuts_nil.2 hs
  | cons e es ih =>
    exact fun hs => Cuts_cons.2 ⟨hs, ih (fun e' he' => h e' (List.mem_cons_of_mem e he'))
      (h e List.mem_cons_self _ hs)⟩

/-! ## Programs -/

/-- What a program did, and how it ended. -/
structure Outcome (ω ε α : Type) where
  effects : List ω
  result : Except ε α

/-- A program over states `σ` with effects `ω`. -/
def Program (σ ω ε α : Type) := σ → Outcome ω ε α

instance : Monad (Program σ ω ε) where
  pure a := fun _ => ⟨[], .ok a⟩
  bind p f := fun s =>
    match (p s).result with
    | .error e => ⟨(p s).effects, .error e⟩
    | .ok a => ⟨(p s).effects ++ (f a (after s (p s).effects)).effects, (f a (after s (p s).effects)).result⟩

/-- One effect. -/
def perform (e : ω) : Program σ ω ε Unit := fun _ => ⟨[e], .ok ()⟩

/-- Effects one after another. -/
def performAll (es : List ω) : Program σ ω ε Unit := fun _ => ⟨es, .ok ()⟩

/-- A look at the state. -/
def observe (f : σ → α) : Program σ ω ε α := fun s => ⟨[], .ok (f s)⟩

/-- A computation that may fail and has no effect. -/
def attempt (x : Except ε α) : Program σ ω ε α := fun _ => ⟨[], x⟩

/-- A try block whose handler throws on what it caught: the effects of the handler follow those of the body. -/
def rescue (p : Program σ ω ε α) (handler : List ω) : Program σ ω ε α := fun s =>
  match (p s).result with
  | .ok a => ⟨(p s).effects, .ok a⟩
  | .error e => ⟨(p s).effects ++ handler, .error e⟩

theorem pure_run (a : α) (s : σ) : (pure a : Program σ ω ε α) s = ⟨[], .ok a⟩ := rfl

theorem bind_run_ok {p : Program σ ω ε α} {f : α → Program σ ω ε β} {s : σ} {es : List ω} {a : α}
    (h : p s = ⟨es, .ok a⟩) :
    (p >>= f) s = ⟨es ++ (f a (after s es)).effects, (f a (after s es)).result⟩ := by
  simp only [bind, h]

theorem bind_run_error {p : Program σ ω ε α} {f : α → Program σ ω ε β} {s : σ} {es : List ω} {e : ε}
    (h : p s = ⟨es, .error e⟩) : (p >>= f) s = ⟨es, .error e⟩ := by
  simp only [bind, h]

/-- Behind a part without effects the state is the same. -/
theorem bind_run_pure {p : Program σ ω ε α} {f : α → Program σ ω ε β} {s : σ} {a : α} (h : p s = ⟨[], .ok a⟩) :
    (p >>= f) s = f a s := by
  rw [bind_run_ok h]
  rfl

/-! Inversion: how a program got where it is. -/

theorem run_bind_ok {p : Program σ ω ε α} {f : α → Program σ ω ε β} {s : σ} {es : List ω} {b : β} :
    (p >>= f) s = ⟨es, .ok b⟩ ↔
      ∃ es₁ a es₂, p s = ⟨es₁, .ok a⟩ ∧ f a (after s es₁) = ⟨es₂, .ok b⟩ ∧ es = es₁ ++ es₂ := by
  constructor
  · intro h
    rcases hp : p s with ⟨es₁, _ | a⟩
    · rw [bind_run_error hp] at h
      cases h
    · rw [bind_run_ok hp] at h
      rcases hf : f a (after s es₁) with ⟨es₂, y⟩
      rw [hf] at h
      cases h
      exact ⟨es₁, a, es₂, rfl, hf, rfl⟩
  · rintro ⟨es₁, a, es₂, hp, hf, rfl⟩
    rw [bind_run_ok hp, hf]

theorem run_bind_error {p : Program σ ω ε α} {f : α → Program σ ω ε β} {s : σ} {es : List ω} {e : ε} :
    (p >>= f) s = ⟨es, .error e⟩ ↔ p s = ⟨es, .error e⟩ ∨
      ∃ es₁ a es₂, p s = ⟨es₁, .ok a⟩ ∧ f a (after s es₁) = ⟨es₂, .error e⟩ ∧ es = es₁ ++ es₂ := by
  constructor
  · intro h
    rcases hp : p s with ⟨es₁, e' | a⟩
    · rw [bind_run_error hp] at h
      cases h
      exact Or.inl rfl
    · rw [bind_run_ok hp] at h
      rcases hf : f a (after s es₁) with ⟨es₂, y⟩
      rw [hf] at h
      cases h
      exact Or.inr ⟨es₁, a, es₂, rfl, hf, rfl⟩
  · rintro (hp | ⟨es₁, a, es₂, hp, hf, rfl⟩)
    · exact bind_run_error hp
    · rw [bind_run_ok hp, hf]

omit [Acts ω σ] in
@[simp] theorem attempt_ok {x : Except ε α} {s : σ} {es : List ω} {a : α} :
    (attempt x : Program σ ω ε α) s = ⟨es, .ok a⟩ ↔ x = .ok a ∧ es = [] := by
  cases x <;> simp [attempt, eq_comm, and_comm]

omit [Acts ω σ] in
theorem attempt_error {x : Except ε α} {s : σ} {es : List ω} {e : ε} :
    (attempt x : Program σ ω ε α) s = ⟨es, .error e⟩ ↔ x = .error e ∧ es = [] := by
  cases x <;> simp [attempt, eq_comm, and_comm]

omit [Acts ω σ] in
@[simp] theorem observe_ok {f : σ → α} {s : σ} {es : List ω} {a : α} :
    (observe f : Program σ ω ε α) s = ⟨es, .ok a⟩ ↔ f s = a ∧ es = [] := by
  simp [observe, eq_comm, and_comm]

@[simp] theorem return_ok {s : σ} {es : List ω} {a b : α} :
    (pure a : Program σ ω ε α) s = ⟨es, .ok b⟩ ↔ a = b ∧ es = [] := by
  simp [pure_run, eq_comm, and_comm]

/-- Looking at the state does not change it. -/
theorem observe_bind (f : σ → α) (g : α → Program σ ω ε β) (s : σ) : (observe f >>= g) s = g (f s) s := bind_run_pure rfl

theorem observe_id_bind (g : σ → Program σ ω ε β) (s : σ) : (observe id >>= g) s = g s s := observe_bind id g s

/-- A check that passed, and a value that was computed, leave the program behind them. -/
theorem attempt_ok_bind (a : α) (f : α → Program σ ω ε β) (s : σ) : (attempt (.ok a) >>= f) s = f a s := bind_run_pure rfl

theorem attempt_error_bind (e : ε) (f : α → Program σ ω ε β) (s : σ) : (attempt (.error e) >>= f) s = ⟨[], .error e⟩ :=
  bind_run_error rfl

/-- A check in front of a program that returned has passed. -/
theorem attempt_bind_ok {x : Except ε α} {f : α → Program σ ω ε β} {s : σ} {es : List ω} {b : β} :
    (attempt x >>= f) s = ⟨es, .ok b⟩ ↔ ∃ a, x = .ok a ∧ f a s = ⟨es, .ok b⟩ := by
  cases x with
  | error e =>
    rw [attempt_error_bind]
    simp
  | ok a =>
    rw [attempt_ok_bind]
    simp

theorem attempt_bind (x : Except ε α) (f : α → Except ε β) :
    (attempt x >>= fun a => attempt (f a) : Program σ ω ε β) = attempt (x >>= f) := by
  funext s
  cases x <;> rfl

/-! What a program may do. -/

/-- Every effect satisfies `S`, whatever the state is. -/
def Emits (p : Program σ ω ε α) (S : ω → Prop) : Prop := ∀ s, ∀ e ∈ (p s).effects, S e

theorem Emits.bind {p : Program σ ω ε α} {f : α → Program σ ω ε β} {S : ω → Prop} (hp : Emits p S)
    (hf : ∀ a, Emits (f a) S) : Emits (p >>= f) S := fun s e he => by
  rcases hr : p s with ⟨es, _ | a⟩
  · rw [bind_run_error hr] at he
    exact hp s e (by rwa [hr])
  · rw [bind_run_ok hr] at he
    rcases List.mem_append.1 he with he | he
    · exact hp s e (by rwa [hr])
    · exact hf a _ e he

omit [Acts ω σ] in
theorem emits_attempt (x : Except ε α) (S : ω → Prop) : Emits (attempt x : Program σ ω ε α) S :=
  fun _ _ he => by cases he

omit [Acts ω σ] in
theorem emits_observe (f : σ → α) (S : ω → Prop) : Emits (observe f : Program σ ω ε α) S := fun _ _ he => by cases he

omit [Acts ω σ] in
theorem emits_perform {e : ω} {S : ω → Prop} (h : S e) : Emits (perform e : Program σ ω ε Unit) S :=
  fun _ e' he => by rwa [List.mem_singleton.1 he]

omit [Acts ω σ] in
@[simp] theorem rescue_ok {p : Program σ ω ε α} {handler es : List ω} {s : σ} {a : α} :
    rescue p handler s = ⟨es, .ok a⟩ ↔ p s = ⟨es, .ok a⟩ := by
  unfold rescue
  rcases p s with ⟨es', _ | a'⟩ <;> simp

omit [Acts ω σ] in
/-- A rescued program has done what the program did, and what the handler did if it threw. -/
theorem rescue_effects (p : Program σ ω ε α) (handler : List ω) (s : σ) :
    (rescue p handler s).effects = (p s).effects ∨ (rescue p handler s).effects = (p s).effects ++ handler := by
  unfold rescue
  cases (p s).result with
  | ok a => exact Or.inl rfl
  | error e => exact Or.inr rfl

theorem perform_bind_effects (e : ω) (f : Unit → Program σ ω ε β) (s : σ) :
    ((perform e >>= f) s).effects = e :: (f () (Acts.act e s)).effects := rfl

theorem bind_pure_effects (p : Program σ ω ε α) (b : β) (s : σ) : ((p >>= fun _ => pure b) s).effects = (p s).effects := by
  rcases hr : p s with ⟨es, _ | a⟩
  · rw [bind_run_error hr]
  · rw [bind_run_ok hr]
    exact List.append_nil es

/-- A program without effects behind one without effects. -/
theorem bind_quiet {p : Program σ ω ε α} {f : α → Program σ ω ε β} {s : σ} (hp : (p s).effects = [])
    (hf : ∀ a, (p s).result = .ok a → (f a s).effects = []) : ((p >>= f) s).effects = [] := by
  rcases hr : p s with ⟨es, e | a⟩
  · rw [bind_run_error hr]
    rwa [hr] at hp
  · rw [hr] at hp hf
    obtain rfl : es = [] := hp
    rw [bind_run_pure hr]
    exact hf a rfl

theorem pure_eq_attempt (a : α) : (pure a : Program σ ω ε α) = attempt (pure a) := rfl

/-! Programs that do the same. -/

/-- The same effects, and related values or the same error. -/
inductive Outcome.Alike {γ : Type} (R : α → γ → Prop) : Outcome ω ε α → Outcome ω ε γ → Prop where
  | ok (es : List ω) {a : α} {c : γ} (h : R a c) : Alike R ⟨es, .ok a⟩ ⟨es, .ok c⟩
  | error (es : List ω) (e : ε) : Alike R ⟨es, .error e⟩ ⟨es, .error e⟩

/-- Alike from every state. -/
def Alike {γ : Type} (R : α → γ → Prop) (p : Program σ ω ε α) (q : Program σ ω ε γ) : Prop := ∀ s, (p s).Alike R (q s)

theorem Alike.bind {γ δ : Type} {R : α → γ → Prop} {S : β → δ → Prop} {p : Program σ ω ε α} {q : Program σ ω ε γ}
    {f : α → Program σ ω ε β} {g : γ → Program σ ω ε δ} (hp : Alike R p q) (hf : ∀ a c, R a c → Alike S (f a) (g c)) :
    Alike S (p >>= f) (q >>= g) := fun s => by
  obtain ⟨x, hx⟩ : ∃ x, x = p s := ⟨_, rfl⟩
  obtain ⟨y, hy⟩ : ∃ y, y = q s := ⟨_, rfl⟩
  have hxy := hp s
  rw [← hx, ← hy] at hxy
  cases hxy with
  | error es e =>
    rw [bind_run_error hx.symm, bind_run_error hy.symm]
    exact .error es e
  | ok es h =>
    rw [bind_run_ok hx.symm, bind_run_ok hy.symm]
    have hrest := hf _ _ h (after s es)
    generalize f _ (after s es) = u, g _ (after s es) = v at hrest
    cases hrest with
    | error es' e => exact .error _ e
    | ok es' h' => exact .ok _ h'

omit [Acts ω σ] in
theorem alike_attempt {γ : Type} {R : α → γ → Prop} {x : Except ε α} {y : Except ε γ}
    (h : (∃ e, x = .error e ∧ y = .error e) ∨ ∃ a c, x = .ok a ∧ y = .ok c ∧ R a c) :
    Alike R (attempt x : Program σ ω ε α) (attempt y) := fun s => by
  rcases h with ⟨e, rfl, rfl⟩ | ⟨a, c, rfl, rfl, hac⟩
  · exact .error [] e
  · exact .ok [] hac

omit [Acts ω σ] in
theorem Alike.refl (p : Program σ ω ε α) : Alike (· = ·) p p := fun s => by
  rcases p s with ⟨es, e | a⟩
  · exact .error es e
  · exact .ok es rfl

theorem Alike.return {γ : Type} {R : α → γ → Prop} {a : α} {c : γ} (h : R a c) :
    Alike R (pure a : Program σ ω ε α) (pure c) := fun _ => .ok [] h

end
end Effects
