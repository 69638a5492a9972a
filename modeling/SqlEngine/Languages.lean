import Mathlib.Computability.Language
/-!
# Languages — what a machine accepts, letter by letter

A library: languages built from letters are taken apart at their first letter, and a family of languages whose parts are
the steps of a machine is what the machine accepts (`run_iff`).
-/
namespace Languages

open Computability

section
variable {α : Type}

/-- The language of one word of one letter. -/
def letter (a : α) : Language α := {[a]}

theorem nil_mem_letter_mul (a : α) (l : Language α) : ¬ [] ∈ letter a * l := by
  rintro ⟨x, hx, y, -, hxy⟩
  obtain rfl : x = [a] := hx
  cases hxy

theorem cons_mem_letter_mul (a b : α) (w : List α) (l : Language α) : b :: w ∈ letter a * l ↔ b = a ∧ w ∈ l := by
  constructor
  · rintro ⟨x, hx, y, hy, hxy⟩
    obtain rfl : x = [a] := hx
    obtain ⟨rfl, rfl⟩ := List.cons.inj hxy
    exact ⟨rfl, hy⟩
  · rintro ⟨rfl, hw⟩
    exact ⟨[b], rfl, w, hw, rfl⟩

theorem kstar_mul (m l : Language α) : m∗ * l = l + m * (m∗ * l) := by
  conv_lhs => rw [← Language.one_add_self_mul_kstar_eq_kstar, add_mul, one_mul, mul_assoc]

/-- A repetition whose words begin with one letter, in front of a language. -/
theorem nil_mem_kstar_letter_mul (a : α) (m l : Language α) : [] ∈ (letter a * m)∗ * l ↔ [] ∈ l := by
  rw [kstar_mul, Language.mem_add, mul_assoc, or_iff_left (nil_mem_letter_mul a _)]

theorem cons_mem_kstar_letter_mul (a b : α) (w : List α) (m l : Language α) : b :: w ∈ (letter a * m)∗ * l ↔
    b :: w ∈ l ∨ b = a ∧ w ∈ m * ((letter a * m)∗ * l) := by
  conv_lhs => rw [kstar_mul, Language.mem_add, mul_assoc, cons_mem_letter_mul]

theorem nil_mem_kstar_letter (a : α) (l : Language α) : [] ∈ (letter a)∗ * l ↔ [] ∈ l := by
  simpa using nil_mem_kstar_letter_mul a 1 l

theorem cons_mem_kstar_letter (a b : α) (w : List α) (l : Language α) : b :: w ∈ (letter a)∗ * l ↔
    b :: w ∈ l ∨ b = a ∧ w ∈ (letter a)∗ * l := by
  simpa using cons_mem_kstar_letter_mul a b w 1 l

end

/-! ## Machines -/

section
variable {α S : Type} {step : S → α → Option S}

/-- The state behind a word, if no step is missing. -/
def run (step : S → α → Option S) (s : S) (w : List α) : Option S := w.foldlM step s

@[simp] theorem run_nil (s : S) : run step s [] = some s := rfl

theorem run_cons (s : S) (a : α) (w : List α) : run step s (a :: w) = (step s a).bind (fun t => run step t w) := rfl

theorem run_append (s : S) (v w : List α) : run step s (v ++ w) = (run step s v).bind (fun t => run step t w) :=
  List.foldlM_append

/-- **Languages that follow the steps** are what the machine accepts. -/
theorem run_iff {final : S → Prop} {accepted : S → Language α} (hnil : ∀ s, [] ∈ accepted s ↔ final s)
    (hcons : ∀ s a w, a :: w ∈ accepted s ↔ ∃ t, step s a = some t ∧ w ∈ accepted t) : ∀ (w : List α) (s : S),
    w ∈ accepted s ↔ ∃ t, run step s w = some t ∧ final t
  | [], s => by
    rw [hnil]
    simp
  | a :: w, s => by
    rw [hcons, run_cons]
    cases step s a with
    | none => simp
    | some t => simp [run_iff hnil hcons w t]

end
end Languages
