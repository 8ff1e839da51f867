/-
# Theory.Simulation — one machine does what another does

A machine takes inputs one after the other; each gives an output and the next state.
`Simulates` is forward simulation in one step, along a relation of the states, one of the
inputs and one of the outputs. `Simulates.trace` carries it to every input sequence: the
two machines stay related after each step, output by output.
-/
import Mathlib.Data.List.Forall2

namespace Feedserver.Theory

set_option autoImplicit false

abbrev Machine (σ ι ο : Type) := σ → ι → ο × σ

variable {σ τ ι κ ο π : Type}

/-- Every output, each with the state after it. -/
def Machine.trace (m : Machine σ ι ο) : σ → List ι → List (ο × σ)
  | _, [] => []
  | s, input :: rest => m s input :: Machine.trace m (m s input).2 rest

/-- The state after all of the inputs. -/
def Machine.final (m : Machine σ ι ο) (s : σ) (is : List ι) : σ :=
  is.foldl (fun s input => (m s input).2) s

theorem Machine.final_concat (m : Machine σ ι ο) (s : σ) (is : List ι) (input : ι) :
    m.final s (is ++ [input]) = (m (m.final s is) input).2 := by
  simp [Machine.final, List.foldl_append]

theorem Machine.trace_concat (m : Machine σ ι ο) (s : σ) (is : List ι) (input : ι) :
    m.trace s (is ++ [input]) = m.trace s is ++ [m (m.final s is) input] := by
  induction is generalizing s with
  | nil => rfl
  | cons first rest ih => exact congrArg (m s first :: ·) (ih (m s first).2)

/-- What some inputs alone can change is decided by them. -/
theorem Machine.final_filter {ω : Type} {m : Machine σ ι ο} (see : σ → ω) {counts : ι → Bool}
    (inside : ∀ s s' input, see s = see s' → see (m s input).2 = see (m s' input).2)
    (outside : ∀ s input, counts input = false → see (m s input).2 = see s) (s : σ)
    (is : List ι) : see (m.final s is) = see (m.final s (is.filter counts)) := by
  have from_ (s s' : σ) (same : see s = see s') :
      see (m.final s is) = see (m.final s' (is.filter counts)) := by
    induction is generalizing s s' with
    | nil => exact same
    | cons input rest ih =>
        cases counted : counts input with
        | true =>
            rw [List.filter_cons_of_pos counted]
            exact ih _ _ (inside s s' input same)
        | false =>
            rw [List.filter_cons_of_neg (by simp [counted])]
            exact ih _ _ ((outside s input counted).trans same)
  exact from_ s s rfl

/-- Related states and inputs give related outputs and states. -/
structure Simulates (concrete : Machine σ ι ο) (abstract_ : Machine τ κ π) (state : σ → τ → Prop)
    (input : ι → κ → Prop) (output : ο → π → Prop) : Prop where
  step : ∀ {s : σ} {t : τ} {i : ι} {k : κ}, state s t → input i k →
    output (concrete s i).1 (abstract_ t k).1 ∧ state (concrete s i).2 (abstract_ t k).2

theorem Simulates.trace {concrete : Machine σ ι ο} {abstract_ : Machine τ κ π}
    {state : σ → τ → Prop} {input : ι → κ → Prop} {output : ο → π → Prop}
    (simulates : Simulates concrete abstract_ state input output) {s : σ} {t : τ} {is : List ι}
    {ks : List κ} (start : state s t) (inputs : List.Forall₂ input is ks) :
    List.Forall₂ (fun x y => output x.1 y.1 ∧ state x.2 y.2)
      (concrete.trace s is) (abstract_.trace t ks) := by
  induction inputs generalizing s t with
  | nil => exact .nil
  | cons related _ ih =>
      have stepped := simulates.step start related
      exact .cons stepped (ih stepped.2)

end Feedserver.Theory
