/-
# Theory.Traced — computations on a state that report what they do

`Traced σ ε τ α` changes a state `σ`, reports events `ε` on the way and either ends with an
`α` or is stuck for a reason `τ`, with nothing after it. `Ends m s Q` says that `m` is not
stuck when it starts in `s`, and that what it returns, leaves and has reported satisfies `Q`;
there is one rule for each way to build a computation, so that a proof follows its text.

`zoom` runs a computation on a part of a larger state.
-/
namespace Feedserver.Theory

set_option autoImplicit false

/-- From a state to a result, the next state and the events in between. -/
structure Traced (σ ε τ α : Type) where
  run : σ → Except τ (α × σ × List ε)

namespace Traced

variable {σ ρ ε τ α β : Type}

/-- What comes after a first part, with what that has reported. -/
def andThen (next : α → Traced σ ε τ β) : Except τ (α × σ × List ε) → Except τ (β × σ × List ε)
  | .error reason => .error reason
  | .ok (a, s, log) => ((next a).run s).map fun (b, s', log') => (b, s', log ++ log')

instance : Monad (Traced σ ε τ) where
  pure a := ⟨fun s => .ok (a, s, [])⟩
  bind m next := ⟨fun s => andThen next (m.run s)⟩

def get : Traced σ ε τ σ := ⟨fun s => .ok (s, s, [])⟩

def set (s : σ) : Traced σ ε τ Unit := ⟨fun _ => .ok ((), s, [])⟩

def report (e : ε) : Traced σ ε τ Unit := ⟨fun s => .ok ((), s, [e])⟩

def stuck (reason : τ) : Traced σ ε τ α := ⟨fun _ => .error reason⟩

/-- The same on a part of a larger state. -/
def zoom (part : ρ → σ) (replace : σ → ρ → ρ) (m : Traced σ ε τ α) : Traced ρ ε τ α :=
  ⟨fun r =>
    match m.run (part r) with
    | .error reason => .error reason
    | .ok (a, s, log) => .ok (a, replace s r, log)⟩

/-! ## Runs -/

@[simp] theorem run_pure (a : α) (s : σ) :
    (pure a : Traced σ ε τ α).run s = .ok (a, s, []) := rfl

@[simp] theorem run_get (s : σ) : (get : Traced σ ε τ σ).run s = .ok (s, s, []) := rfl

@[simp] theorem run_set (s s' : σ) : (set s' : Traced σ ε τ Unit).run s = .ok ((), s', []) := rfl

@[simp] theorem run_report (e : ε) (s : σ) :
    (report e : Traced σ ε τ Unit).run s = .ok ((), s, [e]) := rfl

@[simp] theorem run_bind (m : Traced σ ε τ α) (next : α → Traced σ ε τ β) (s : σ) :
    (m >>= next).run s = andThen next (m.run s) := rfl

@[simp] theorem andThen_ok (next : α → Traced σ ε τ β) (a : α) (s : σ) (log : List ε) :
    andThen next (.ok (a, s, log)) =
      ((next a).run s).map fun (b, s', log') => (b, s', log ++ log') := rfl

@[simp] theorem map_ok {f : α → β} (a : α) : (Except.ok a : Except τ α).map f = .ok (f a) := rfl

@[simp] theorem run_map (f : α → β) (m : Traced σ ε τ α) (s : σ) :
    (f <$> m).run s = (m.run s).map fun (a, s', log) => (f a, s', log) := by
  show andThen (fun a => pure (f a)) (m.run s) = _
  cases m.run s with
  | error reason => rfl
  | ok result =>
      obtain ⟨a, s', log⟩ := result
      simp only [andThen_ok, run_pure, map_ok, List.append_nil]

/-! ## Laws -/

theorem andThen_andThen {γ : Type} (first : Except τ (α × σ × List ε)) (f : α → Traced σ ε τ β)
    (g : β → Traced σ ε τ γ) : andThen g (andThen f first) = andThen (fun a => f a >>= g) first := by
  cases first with
  | error reason => rfl
  | ok result =>
      obtain ⟨a, s, log⟩ := result
      rw [andThen_ok, andThen_ok, run_bind]
      cases (f a).run s with
      | error reason => rfl
      | ok result =>
          obtain ⟨b, s', log'⟩ := result
          rw [map_ok, andThen_ok, andThen_ok]
          cases (g b).run s' with
          | error reason => rfl
          | ok result => simp only [map_ok, List.append_assoc]

instance : LawfulMonad (Traced σ ε τ) := LawfulMonad.mk' _
  (fun m => by
    apply congrArg Traced.mk
    funext s
    show (id <$> m).run s = m.run s
    rw [run_map]
    cases m.run s <;> rfl)
  (fun a next => by
    apply congrArg Traced.mk
    funext s
    show ((next a).run s).map _ = (next a).run s
    cases (next a).run s <;> rfl)
  (fun m _ _ => congrArg Traced.mk (funext fun s => andThen_andThen (m.run s) _ _))

/-! ## Ends -/

/-- The computation ends, and what it returns, leaves and has reported is as said. -/
def Ends (m : Traced σ ε τ α) (s : σ) (Q : α → σ → List ε → Prop) : Prop :=
  ∃ a s' log, m.run s = .ok (a, s', log) ∧ Q a s' log

variable {s : σ} {Q : α → σ → List ε → Prop} {R : β → σ → List ε → Prop}

theorem Ends.mono {Q' : α → σ → List ε → Prop} {m : Traced σ ε τ α} (ends : Ends m s Q)
    (imp : ∀ a s' log, Q a s' log → Q' a s' log) : Ends m s Q' := by
  obtain ⟨a, s', log, ran, holds⟩ := ends
  exact ⟨a, s', log, ran, imp a s' log holds⟩

/-- There is one run, and what is known of it holds together. -/
theorem Ends.and {Q' : α → σ → List ε → Prop} {m : Traced σ ε τ α} (ends : Ends m s Q)
    (ends' : Ends m s Q') : Ends m s fun a s' log => Q a s' log ∧ Q' a s' log := by
  obtain ⟨a, s', log, ran, holds⟩ := ends
  obtain ⟨_, _, _, ran', holds'⟩ := ends'
  cases ran.symm.trans ran'
  exact ⟨a, s', log, ran, holds, holds'⟩

theorem ends_pure {a : α} (holds : Q a s []) : Ends (pure a : Traced σ ε τ α) s Q :=
  ⟨a, s, [], rfl, holds⟩

theorem Ends.bind {m : Traced σ ε τ α} {next : α → Traced σ ε τ β} (first : Ends m s Q)
    (rest : ∀ a s' log, Q a s' log → Ends (next a) s' fun b s'' log' => R b s'' (log ++ log')) :
    Ends (m >>= next) s R := by
  obtain ⟨a, s', log, ran, holds⟩ := first
  obtain ⟨b, s'', log', ran', holds'⟩ := rest a s' log holds
  exact ⟨b, s'', log ++ log', by simp [ran, ran'], holds'⟩

/-- A first part whose run is known. -/
theorem ends_bind_of_run {m : Traced σ ε τ α} {next : α → Traced σ ε τ β} {a : α} {s' : σ}
    {log : List ε} (ran : m.run s = .ok (a, s', log))
    (rest : Ends (next a) s' fun b s'' log' => R b s'' (log ++ log')) : Ends (m >>= next) s R := by
  have first : Ends m s fun a' s'' log' => a' = a ∧ s'' = s' ∧ log' = log :=
    ⟨a, s', log, ran, rfl, rfl, rfl⟩
  apply first.bind
  rintro _ _ _ ⟨rfl, rfl, rfl⟩
  exact rest

/-! ## Sequences -/

/-- One computation after another, for what each leaves behind. -/
def sequence (step : β → Traced σ ε τ α) : List β → Traced σ ε τ Unit
  | [] => pure ()
  | b :: rest => do
      let _ ← step b
      sequence step rest

theorem sequence_append (step : β → Traced σ ε τ α) (front back : List β) :
    sequence step (front ++ back) = sequence step front >>= fun _ => sequence step back := by
  induction front with
  | nil => rw [List.nil_append, sequence, pure_bind]
  | cons b rest ih =>
      rw [List.cons_append, sequence, sequence, bind_assoc]
      congr 1
      funext a
      exact ih

/-- Each step is allowed where it is taken. -/
def Admitted {θ : Type} (Allowed : θ → β → Prop) (meaning : θ → β → θ) : θ → List β → Prop
  | _, [] => True
  | t, b :: rest => Allowed t b ∧ Admitted Allowed meaning (meaning t b) rest

theorem admitted_of_forall {θ : Type} {Allowed : θ → β → Prop} {meaning : θ → β → θ}
    (all : ∀ t b, Allowed t b) (t : θ) (bs : List β) : Admitted Allowed meaning t bs := by
  induction bs generalizing t with
  | nil => trivial
  | cons b rest ih => exact ⟨all t b, ih _⟩

/-- **Runs.** When every allowed step, from a state and a log that stand for `t`, ends in a state
and with a longer log that stand for what the step makes of `t`, so does a sequence. -/
theorem ends_sequence_log {step : β → Traced σ ε τ α} {θ : Type}
    {I : σ → θ → List ε → Prop} {Allowed : θ → β → Prop} {meaning : θ → β → θ}
    (one : ∀ s t b log, I s t log → Allowed t b →
      Ends (step b) s fun _ s' log' => I s' (meaning t b) (log ++ log'))
    {bs : List β} {t : θ} {log : List ε} (stands : I s t log)
    (admitted : Admitted Allowed meaning t bs) :
    Ends (sequence step bs) s fun _ s' log' => I s' (bs.foldl meaning t) (log ++ log') := by
  induction bs generalizing s t log with
  | nil =>
      apply ends_pure
      rw [List.append_nil]
      exact stands
  | cons b rest ih =>
      obtain ⟨allowed, later⟩ := admitted
      apply (one s t b log stands allowed).bind
      intro a s' log' stands'
      apply (ih stands' later).mono
      intro _ s'' log'' stands''
      rw [← List.append_assoc]
      exact stands''

/-- As much for events that are good one by one. -/
theorem ends_sequence {step : β → Traced σ ε τ α} {θ : Type} {Stands : σ → θ → Prop}
    {Good : ε → Prop} {Allowed : θ → β → Prop} {meaning : θ → β → θ}
    (one : ∀ s t b, Stands s t → Allowed t b →
      Ends (step b) s fun _ s' log => Stands s' (meaning t b) ∧ ∀ e ∈ log, Good e)
    {bs : List β} {t : θ} (stands : Stands s t) (admitted : Admitted Allowed meaning t bs) :
    Ends (sequence step bs) s fun _ s' log =>
      Stands s' (bs.foldl meaning t) ∧ ∀ e ∈ log, Good e := by
  have start : Stands s t ∧ ∀ e ∈ ([] : List ε), Good e := ⟨stands, by simp⟩
  apply ends_sequence_log (I := fun s t log => Stands s t ∧ ∀ e ∈ log, Good e) ?_ start admitted
  rintro s t b log ⟨stands, good⟩ allowed
  apply (one s t b stands allowed).mono
  rintro _ s' log' ⟨stands', good'⟩
  exact ⟨stands', List.forall_mem_append.2 ⟨good, good'⟩⟩

end Traced

end Feedserver.Theory
