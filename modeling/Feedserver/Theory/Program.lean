/-
# Theory.Program — programs that make calls and wait for their answers

A program computes, stops at a `call`, and continues with whatever it is answered.
One program is one definition; what the calls do is said afterwards:

* `After p log q`: `p`, answered as `log` records, has become `q`. This mentions no
  state, so a program's possible logs are found once (`after_call_iff` and the other
  inversions) and used under every meaning of the calls.
* `Replays sem s log s'`: the logged calls, in order, take `s` to `s'` under the
  relation `sem`, which may allow several answers (a store that can fail).
  `Runs` is both together.
* `exec`: the run under a meaning that always answers, as a function
  (`exec_runs`).
* `Uses allowed p`: `p` makes only allowed calls, whatever it is answered.

A `fault` is an undefined step: the program stops there and nothing follows.
-/
namespace Feedserver.Theory

set_option autoImplicit false

/-- The calls a program can make, and what each is answered with. -/
structure Signature where
  Call : Type
  Answer : Call → Type

inductive Program (S : Signature) (F α : Type) where
  | done (value : α)
  | fault (reason : F)
  | call (c : S.Call) (next : S.Answer c → Program S F α)

/-- One call together with the answer it got. -/
structure Event (S : Signature) where
  call : S.Call
  answer : S.Answer call

namespace Program

variable {S : Signature} {F α β : Type}

def bind : Program S F α → (α → Program S F β) → Program S F β
  | .done value, next => next value
  | .fault reason, _ => .fault reason
  | .call c rest, next => .call c fun answer => (rest answer).bind next

instance : Monad (Program S F) where
  pure := .done
  bind := bind

@[simp] theorem pure_eq (value : α) : (pure value : Program S F α) = .done value := rfl

@[simp] theorem done_bind (value : α) (next : α → Program S F β) :
    (.done value >>= next) = next value := rfl

@[simp] theorem fault_bind (reason : F) (next : α → Program S F β) :
    ((.fault reason : Program S F α) >>= next) = .fault reason := rfl

@[simp] theorem call_bind (c : S.Call) (rest : S.Answer c → Program S F α)
    (next : α → Program S F β) :
    (.call c rest >>= next) = .call c fun answer => rest answer >>= next := rfl

/-- Make one call and return its answer. -/
def perform (c : S.Call) : Program S F (S.Answer c) := .call c .done

@[simp] theorem perform_bind (c : S.Call) (next : S.Answer c → Program S F β) :
    (perform c >>= next) = .call c next := rfl

/-- A computation that makes no call, and may fault. -/
def ofExcept : Except F α → Program S F α
  | .ok value => .done value
  | .error reason => .fault reason

@[simp] theorem ofExcept_ok (value : α) :
    (ofExcept (.ok value) : Program S F α) = .done value := rfl

@[simp] theorem ofExcept_error (reason : F) :
    (ofExcept (.error reason) : Program S F α) = .fault reason := rfl

/-- What a loop starts with and every round keeps, a loop that does not fail ends with. -/
theorem foldlM_invariant {ε σ τ : Type} {f : σ → τ → Except ε σ} {I : σ → Prop} {items : List τ}
    (kept : ∀ s x s', x ∈ items → I s → f s x = .ok s' → I s') {s s' : σ} (holds : I s)
    (ran : items.foldlM f s = .ok s') : I s' := by
  induction items generalizing s with
  | nil => cases ran; exact holds
  | cons x rest ih =>
      rw [List.foldlM_cons] at ran
      cases first : f s x with
      | error reason => rw [first] at ran; cases ran
      | ok next =>
          rw [first] at ran
          exact ih (fun s y s' member => kept s y s' (List.mem_cons_of_mem _ member))
            (kept s x next List.mem_cons_self holds first) ran

/-- The call a program waits for. -/
def pending : Program S F α → Option S.Call
  | .call c _ => some c
  | _ => none

@[simp] theorem pending_done (value : α) : (.done value : Program S F α).pending = none := rfl

@[simp] theorem pending_call (c : S.Call) (next : S.Answer c → Program S F α) :
    (call c next : Program S F α).pending = some c := rfl

theorem call_of_pending {p : Program S F α} {c : S.Call} (waits : p.pending = some c) :
    ∃ next, p = .call c next := by
  cases p with
  | done value => cases waits
  | fault reason => cases waits
  | call c' next => cases waits; exact ⟨next, rfl⟩

/-- Nothing is left to do. -/
def ended : Program S F α → Bool
  | .call _ _ => false
  | _ => true

theorem pending_of_ended {p : Program S F α} (done : p.ended = true) : p.pending = none := by
  cases p with
  | done value => rfl
  | fault reason => rfl
  | call c next => cases done

theorem outcome_of_ended {p : Program S F α} (done : p.ended = true) :
    ∃ outcome, p = ofExcept outcome := by
  cases p with
  | done value => exact ⟨.ok value, rfl⟩
  | fault reason => exact ⟨.error reason, rfl⟩
  | call c next => cases done

/-! ## Logs -/

/-- `p`, answered as the log records, has become `q`. -/
inductive After : Program S F α → List (Event S) → Program S F α → Prop
  | start (p : Program S F α) : After p [] p
  | call {c : S.Call} {next : S.Answer c → Program S F α} {answer : S.Answer c}
      {log : List (Event S)} {q : Program S F α} (rest : After (next answer) log q) :
      After (.call c next) (⟨c, answer⟩ :: log) q

@[simp] theorem after_done_iff {value : α} {log : List (Event S)} {q : Program S F α} :
    After (.done value) log q ↔ log = [] ∧ q = .done value := by
  constructor
  · rintro ⟨⟩; exact ⟨rfl, rfl⟩
  · rintro ⟨rfl, rfl⟩; exact .start _

@[simp] theorem after_fault_iff {reason : F} {log : List (Event S)} {q : Program S F α} :
    After (.fault reason) log q ↔ log = [] ∧ q = .fault reason := by
  constructor
  · rintro ⟨⟩; exact ⟨rfl, rfl⟩
  · rintro ⟨rfl, rfl⟩; exact .start _

theorem after_call_iff {c : S.Call} {next : S.Answer c → Program S F α}
    {log : List (Event S)} {q : Program S F α} :
    After (.call c next) log q ↔
      (log = [] ∧ q = .call c next) ∨
        ∃ answer rest, log = ⟨c, answer⟩ :: rest ∧ After (next answer) rest q := by
  constructor
  · rintro (_ | rest)
    · exact .inl ⟨rfl, rfl⟩
    · exact .inr ⟨_, _, rfl, rest⟩
  · rintro (⟨rfl, rfl⟩ | ⟨answer, rest, rfl, after⟩)
    · exact .start _
    · exact .call after

@[simp] theorem after_nil_iff {p q : Program S F α} : After p [] q ↔ q = p := by
  constructor
  · rintro ⟨⟩; rfl
  · rintro rfl; exact .start _

/-- One more call, answered. -/
theorem After.snoc {p : Program S F α} {log : List (Event S)} {c : S.Call}
    {next : S.Answer c → Program S F α} (after : After p log (.call c next))
    (answer : S.Answer c) : After p (log ++ [⟨c, answer⟩]) (next answer) := by
  generalize reached : Program.call c next = q at after
  induction after with
  | start p => subst reached; exact .call (.start _)
  | call rest ih => exact .call (ih reached)

/-- The log says what is left. -/
theorem After.unique {p q q' : Program S F α} {log : List (Event S)} (first : After p log q)
    (second : After p log q') : q = q' := by
  induction first with
  | start p => exact (after_nil_iff.1 second).symm
  | call _ ih =>
      cases second with
      | call second => exact ih second

/-- `p` ran to its end, with these calls and this outcome. -/
def Finishes (p : Program S F α) (log : List (Event S)) (outcome : Except F α) : Prop :=
  After p log (ofExcept outcome)

@[simp] theorem finishes_done_iff {value : α} {log : List (Event S)} {outcome : Except F α} :
    Finishes (.done value) log outcome ↔ log = [] ∧ outcome = .ok value := by
  cases outcome <;> simp [Finishes]

@[simp] theorem finishes_fault_iff {reason : F} {log : List (Event S)}
    {outcome : Except F α} :
    Finishes (.fault reason) log outcome ↔ log = [] ∧ outcome = .error reason := by
  cases outcome <;> simp [Finishes]

@[simp] theorem finishes_call_iff {c : S.Call} {next : S.Answer c → Program S F α}
    {log : List (Event S)} {outcome : Except F α} :
    Finishes (.call c next) log outcome ↔
      ∃ answer rest, log = ⟨c, answer⟩ :: rest ∧ Finishes (next answer) rest outcome := by
  cases outcome <;> simp [Finishes, after_call_iff]

/-- A finished sequence finished its first part, with a fault or with a value that the
second part started from. -/
theorem finishes_bind_iff {p : Program S F α} {next : α → Program S F β}
    {log : List (Event S)} {outcome : Except F β} :
    Finishes (p >>= next) log outcome ↔
      (∃ reason, Finishes p log (.error reason) ∧ outcome = .error reason) ∨
        ∃ value first second, log = first ++ second ∧ Finishes p first (.ok value) ∧
          Finishes (next value) second outcome := by
  induction p generalizing log with
  | done value =>
      simp only [done_bind, finishes_done_iff, reduceCtorEq, and_false, false_and, exists_false,
        false_or, Except.ok.injEq]
      constructor
      · exact fun finished => ⟨value, [], log, rfl, ⟨rfl, rfl⟩, finished⟩
      · rintro ⟨_, _, _, rfl, ⟨rfl, rfl⟩, finished⟩; exact finished
  | fault reason =>
      simp only [fault_bind, finishes_fault_iff, reduceCtorEq, and_false, false_and, exists_false,
        or_false, Except.error.injEq]
      constructor
      · rintro ⟨rfl, rfl⟩; exact ⟨_, ⟨rfl, rfl⟩, rfl⟩
      · rintro ⟨_, ⟨rfl, rfl⟩, rfl⟩; exact ⟨rfl, rfl⟩
  | call c rest ih =>
      simp only [call_bind, finishes_call_iff]
      constructor
      · rintro ⟨answer, tail, rfl, finished⟩
        rcases (ih answer).1 finished with ⟨reason, faulted, rfl⟩ |
          ⟨value, first, second, rfl, h₁, h₂⟩
        · exact .inl ⟨reason, ⟨answer, tail, rfl, faulted⟩, rfl⟩
        · exact .inr ⟨value, ⟨c, answer⟩ :: first, second, rfl, ⟨answer, first, rfl, h₁⟩, h₂⟩
      · rintro (⟨reason, ⟨answer, tail, rfl, faulted⟩, rfl⟩ |
          ⟨value, _, second, rfl, ⟨answer, first, rfl, h₁⟩, h₂⟩)
        · exact ⟨answer, tail, rfl, (ih answer).2 (.inl ⟨reason, faulted, rfl⟩)⟩
        · exact ⟨answer, first ++ second, rfl,
            (ih answer).2 (.inr ⟨value, first, second, rfl, h₁, h₂⟩)⟩

/-! ## Meanings of the calls -/

/-- What a call may be answered in a state, and the state it leaves. -/
abbrev Semantics (S : Signature) (σ : Type) :=
  (c : S.Call) → σ → S.Answer c → σ → Prop

section Semantics

variable {σ : Type} (sem : Semantics S σ)

/-- The logged calls, in order, take one state to another. -/
inductive Replays : σ → List (Event S) → σ → Prop
  | nil (s : σ) : Replays s [] s
  | cons {s s' s'' : σ} {e : Event S} {log : List (Event S)}
      (head : sem e.call s e.answer s') (tail : Replays s' log s'') : Replays s (e :: log) s''

@[simp] theorem replays_nil_iff {s s' : σ} : Replays sem s [] s' ↔ s' = s := by
  constructor
  · rintro ⟨⟩; rfl
  · rintro rfl; exact .nil _

@[simp] theorem replays_cons_iff {s s'' : σ} {e : Event S} {log : List (Event S)} :
    Replays sem s (e :: log) s'' ↔
      ∃ s', sem e.call s e.answer s' ∧ Replays sem s' log s'' := by
  constructor
  · rintro (_ | ⟨head, tail⟩); exact ⟨_, head, tail⟩
  · rintro ⟨_, head, tail⟩; exact .cons head tail

/-- A run to the end: the program's side and the state's side of one log. -/
def Runs (p : Program S F α) (s : σ) (log : List (Event S)) (outcome : Except F α)
    (s' : σ) : Prop :=
  Finishes p log outcome ∧ Replays sem s log s'

/-- A property of the state that every call keeps is kept by every log. -/
theorem Replays.invariant {sem : Semantics S σ} {I : σ → Prop}
    (kept : ∀ c s a s', sem c s a s' → I s → I s') {s s' : σ} {log : List (Event S)}
    (replays : Replays sem s log s') (holds : I s) : I s' := by
  induction replays with
  | nil s => exact holds
  | cons head tail ih => exact ih (kept _ _ _ _ head holds)

/-- Every logged call was answered in some state. -/
theorem Replays.made {sem : Semantics S σ} {s s' : σ} {log : List (Event S)}
    (replays : Replays sem s log s') {e : Event S} (member : e ∈ log) :
    ∃ before after, sem e.call before e.answer after := by
  induction replays with
  | nil s => cases member
  | cons head tail ih =>
      rcases List.mem_cons.1 member with rfl | later
      · exact ⟨_, _, head⟩
      · exact ih later

end Semantics

/-! ## Calls that always answer -/

section Exec

variable {σ : Type} (answer : (c : S.Call) → σ → S.Answer c × σ)

/-- Run a program against a state that answers every call. -/
def exec : Program S F α → σ → Except F α × σ
  | .done value, s => (.ok value, s)
  | .fault reason, s => (.error reason, s)
  | .call c next, s => exec (next (answer c s).1) (answer c s).2

@[simp] theorem exec_done (value : α) (s : σ) :
    exec answer (.done value : Program S F α) s = (.ok value, s) := rfl

@[simp] theorem exec_fault (reason : F) (s : σ) :
    exec answer (.fault reason : Program S F α) s = (.error reason, s) := rfl

@[simp] theorem exec_call (c : S.Call) (next : S.Answer c → Program S F α) (s : σ) :
    exec answer (.call c next) s = exec answer (next (answer c s).1) (answer c s).2 := rfl

theorem exec_bind (p : Program S F α) (next : α → Program S F β) (s : σ) :
    exec answer (p >>= next) s =
      match exec answer p s with
      | (.ok value, s') => exec answer (next value) s'
      | (.error reason, s') => (.error reason, s') := by
  induction p generalizing s with
  | done value => rfl
  | fault reason => rfl
  | call c rest ih => simp only [call_bind, exec_call, ih]

theorem exec_bind_of_ok {p : Program S F α} {next : α → Program S F β} {s s' : σ} {value : α}
    (ran : exec answer p s = (.ok value, s')) :
    exec answer (p >>= next) s = exec answer (next value) s' := by
  rw [exec_bind, ran]

theorem exec_bind_of_error {p : Program S F α} {next : α → Program S F β} {s s' : σ} {reason : F}
    (ran : exec answer p s = (.error reason, s')) :
    exec answer (p >>= next) s = (.error reason, s') := by
  rw [exec_bind, ran]

theorem exec_runs {sem : Semantics S σ}
    (allowed : ∀ c s, sem c s (answer c s).1 (answer c s).2) (p : Program S F α) (s : σ) :
    ∃ log, Runs sem p s log (exec answer p s).1 (exec answer p s).2 := by
  induction p generalizing s with
  | done value => exact ⟨[], by simp [Runs]⟩
  | fault reason => exact ⟨[], by simp [Runs]⟩
  | call c next ih =>
      obtain ⟨log, finished, replays⟩ := ih (answer c s).1 (answer c s).2
      refine ⟨⟨c, (answer c s).1⟩ :: log, ?_, .cons (allowed c s) replays⟩
      exact finishes_call_iff.2 ⟨_, _, rfl, finished⟩

end Exec

/-! ## Allowed calls -/

/-- Every call the program can come to is allowed. -/
def Uses (allowed : S.Call → Prop) : Program S F α → Prop
  | .done _ => True
  | .fault _ => True
  | .call c next => allowed c ∧ ∀ answer, (next answer).Uses allowed

theorem Uses.bind {allowed : S.Call → Prop} {p : Program S F α} {next : α → Program S F β}
    (first : p.Uses allowed) (rest : ∀ value, (next value).Uses allowed) :
    (p >>= next).Uses allowed := by
  induction p with
  | done value => exact rest value
  | fault reason => trivial
  | call c tail ih => exact ⟨first.1, fun answer => ih answer (first.2 answer)⟩

theorem Uses.ofExcept {allowed : S.Call → Prop} (x : Except F α) :
    (ofExcept x : Program S F α).Uses allowed := by
  cases x <;> trivial

theorem Uses.mono {allowed allowed' : S.Call → Prop} {p : Program S F α} (uses : p.Uses allowed)
    (imp : ∀ c, allowed c → allowed' c) : p.Uses allowed' := by
  induction p with
  | done value => trivial
  | fault reason => trivial
  | call c next ih => exact ⟨imp c uses.1, fun answer => ih answer (uses.2 answer)⟩

/-- Only allowed calls are in the log, and only they are left. -/
theorem Uses.after {allowed : S.Call → Prop} {p q : Program S F α} {log : List (Event S)}
    (uses : p.Uses allowed) (after : After p log q) :
    (∀ e ∈ log, allowed e.call) ∧ q.Uses allowed := by
  induction after with
  | start p => exact ⟨by simp, uses⟩
  | @call c next answer log q _ ih =>
      obtain ⟨logged, left⟩ := ih (uses.2 answer)
      refine ⟨fun e member => ?_, left⟩
      rcases List.mem_cons.1 member with rfl | member
      · exact uses.1
      · exact logged e member

/-! ## Programs that do not fault -/

/-- As long as the answers are good there is no fault, and the value is as said. -/
def Succeeds (good : Event S → Prop) (Q : α → Prop) : Program S F α → Prop
  | .done value => Q value
  | .fault _ => False
  | .call c next => ∀ answer, good ⟨c, answer⟩ → (next answer).Succeeds good Q

theorem Succeeds.bind {good : Event S → Prop} {Q : α → Prop} {R : β → Prop} {p : Program S F α}
    {next : α → Program S F β} (first : p.Succeeds good Q)
    (rest : ∀ value, Q value → (next value).Succeeds good R) : (p >>= next).Succeeds good R := by
  induction p with
  | done value => exact rest value first
  | fault reason => exact first.elim
  | call c tail ih => exact fun answer answered => ih answer (first answer answered)

/-- What is left of it does not fault either. -/
theorem Succeeds.after {good : Event S → Prop} {Q : α → Prop} {p q : Program S F α}
    {log : List (Event S)} (succeeds : p.Succeeds good Q) (after : After p log q)
    (answered : ∀ e ∈ log, good e) : q.Succeeds good Q := by
  induction after with
  | start p => exact succeeds
  | call _ ih =>
      obtain ⟨now, later⟩ := List.forall_mem_cons.1 answered
      exact ih (succeeds _ now) later

/-! ## Programs cut short -/

/-- The first makes the calls of the second and ends as it does, or faults on the way. -/
def Cuts : Program S F α → Program S F α → Prop
  | .done value, whole => whole = .done value
  | .fault _, _ => True
  | .call c next, whole =>
      ∃ next', whole = .call c next' ∧ ∀ answer, (next answer).Cuts (next' answer)

theorem Cuts.refl (p : Program S F α) : p.Cuts p := by
  induction p with
  | done value => exact rfl
  | fault reason => trivial
  | call c next ih => exact ⟨next, rfl, ih⟩

end Program

end Feedserver.Theory
