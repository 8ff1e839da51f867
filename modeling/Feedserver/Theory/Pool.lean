/-
# Theory.Pool — programs that take turns on one state

A pool is a list of threads; a step lets one of them make its next call. Nothing else
is atomic, so every order of the threads' calls is a run. Each thread carries the log
of its own calls: what a thread has computed so far is a function of that log
(`Run.follows`), and everything a run did to the state is in the logs together
(`Run.accumulates`).

`Run sem guard` restricts which steps are considered by a guard over the state *before*
the step and the call about to be made; `anyStep` allows them all. `History` is a run with
its turns listed, for what depends on which call came before which.
-/
import Feedserver.Theory.Program

namespace Feedserver.Theory

set_option autoImplicit false

/-- A program under way, with the calls it has made so far. -/
structure Thread (S : Signature) (F α : Type) where
  program : Program S F α
  log : List (Event S)

namespace Pool

variable {S : Signature} {F α σ : Type}

/-- Threads that have not made a call yet. -/
def launch (programs : List (Program S F α)) : List (Thread S F α) :=
  programs.map fun p => ⟨p, []⟩

/-- A condition on the pool, the state, the thread about to step and its call. -/
abbrev Guard (S : Signature) (F α σ : Type) :=
  List (Thread S F α) → σ → Nat → S.Call → Prop

def anyStep : Guard S F α σ := fun _ _ _ _ => True

instance (pool : List (Thread S F α)) (s : σ) (i : Nat) (c : S.Call) :
    Decidable ((anyStep : Guard S F α σ) pool s i c) := .isTrue trivial

/-- The call that the thread at an index waits for. -/
def pendingAt (pool : List (Thread S F α)) (i : Nat) : Option S.Call :=
  pool[i]?.bind fun thread => thread.program.pending

theorem thread_of_pendingAt {pool : List (Thread S F α)} {i : Nat} {c : S.Call}
    (waits : pendingAt pool i = some c) :
    ∃ thread, pool[i]? = some thread ∧ thread.program.pending = some c :=
  Option.bind_eq_some_iff.1 waits

section Run

variable (sem : Program.Semantics S σ) (guard : Guard S F α σ)

/-- The pools and states that guarded steps reach. -/
inductive Run (pool₀ : List (Thread S F α)) (s₀ : σ) : List (Thread S F α) → σ → Prop
  | start : Run pool₀ s₀ pool₀ s₀
  | step {pool : List (Thread S F α)} {s s' : σ} {i : Nat} {c : S.Call}
      {next : S.Answer c → Program S F α} {log : List (Event S)} {answer : S.Answer c}
      (before : Run pool₀ s₀ pool s) (turn : pool[i]? = some ⟨.call c next, log⟩)
      (guarded : guard pool s i c) (made : sem c s answer s') :
      Run pool₀ s₀ (pool.set i ⟨next answer, log ++ [⟨c, answer⟩]⟩) s'

end Run

variable {sem : Program.Semantics S σ} {guard : Guard S F α σ}
  {pool₀ pool : List (Thread S F α)} {s₀ s : σ}

/-- What holds at the start and is kept by every guarded step holds at the end. -/
theorem Run.invariant {I : List (Thread S F α) → σ → Prop} (init : I pool₀ s₀)
    (kept : ∀ {pool : List (Thread S F α)} {s s' : σ} {i : Nat} {c : S.Call}
      {next : S.Answer c → Program S F α} {log : List (Event S)} {answer : S.Answer c},
      I pool s → pool[i]? = some ⟨.call c next, log⟩ → guard pool s i c → sem c s answer s' →
        I (pool.set i ⟨next answer, log ++ [⟨c, answer⟩]⟩) s')
    (run : Run sem guard pool₀ s₀ pool s) : I pool s := by
  induction run with
  | start => exact init
  | step _ turn guarded made ih => exact kept ih turn guarded made

/-- A run under one meaning of the calls is a run under any that allows as much. -/
theorem Run.mono {sem' : Program.Semantics S σ} (allows : ∀ c s a s', sem c s a s' → sem' c s a s')
    (run : Run sem guard pool₀ s₀ pool s) : Run sem' guard pool₀ s₀ pool s := by
  induction run with
  | start => exact .start
  | step _ turn guarded made ih => exact .step ih turn guarded (allows _ _ _ _ made)

/-- The thread at an index after another thread's turn or its own. -/
theorem getElem?_set_cases {thread stepped : Thread S F α} {i j : Nat}
    (found : (pool.set i stepped)[j]? = some thread) :
    (j = i ∧ thread = stepped ∧ i < pool.length) ∨ (j ≠ i ∧ pool[j]? = some thread) := by
  rw [List.getElem?_set] at found
  split at found
  · rename_i same
    split at found
    · rename_i inside
      exact .inl ⟨same.symm, (Option.some.inj found).symm, inside⟩
    · simp at found
  · rename_i different
    exact .inr ⟨fun same => different same.symm, found⟩

/-! ## Chosen turns -/

section Play

variable (guard) [∀ pool s i c, Decidable (guard pool s i c)]
  (answer : (c : S.Call) → σ → S.Answer c × σ)

/-- One turn of the thread at an index, if it has a call to make and the guard lets it. -/
def turn (i : Nat) (at_ : List (Thread S F α) × σ) : List (Thread S F α) × σ :=
  match at_.1[i]? with
  | some ⟨.call c next, log⟩ =>
      if guard at_.1 at_.2 i c then
        (at_.1.set i ⟨next (answer c at_.2).1, log ++ [⟨c, (answer c at_.2).1⟩]⟩,
          (answer c at_.2).2)
      else at_
  | _ => at_

/-- The turns of a schedule, one after another. -/
def play (turns : List Nat) (at_ : List (Thread S F α) × σ) : List (Thread S F α) × σ :=
  turns.foldl (fun at_ i => turn guard answer i at_) at_

/-- Whatever the schedule, this is a run. -/
theorem run_play (allowed : ∀ c s, sem c s (answer c s).1 (answer c s).2)
    (pool₀ : List (Thread S F α)) (s₀ : σ) (turns : List Nat) :
    Run sem guard pool₀ s₀ (play guard answer turns (pool₀, s₀)).1
      (play guard answer turns (pool₀, s₀)).2 := by
  have from_ (at_ : List (Thread S F α) × σ) (before : Run sem guard pool₀ s₀ at_.1 at_.2) :
      Run sem guard pool₀ s₀ (play guard answer turns at_).1 (play guard answer turns at_).2 := by
    induction turns generalizing at_ with
    | nil => exact before
    | cons i rest ih =>
        apply ih (turn guard answer i at_)
        unfold turn
        split
        · rename_i found
          split
          · rename_i guarded
            exact .step before found guarded (allowed _ _)
          · exact before
        · exact before
  exact from_ (pool₀, s₀) .start

end Play

/-- Each thread is its own program, answered as its own log records. -/
structure Follows (programs : List (Program S F α)) (pool : List (Thread S F α)) : Prop where
  length : pool.length = programs.length
  after : ∀ (i : Nat) (thread : Thread S F α), pool[i]? = some thread →
    ∃ p, programs[i]? = some p ∧ Program.After p thread.log thread.program

theorem launch_follows (programs : List (Program S F α)) : Follows programs (launch programs) where
  length := by simp [launch]
  after i thread found := by
    simp only [launch, List.getElem?_map, Option.map_eq_some_iff] at found
    obtain ⟨p, programAt, rfl⟩ := found
    exact ⟨p, programAt, .start p⟩

theorem Run.follows {programs : List (Program S F α)}
    (run : Run sem guard (launch programs) s₀ pool s) : Follows programs pool := by
  refine run.invariant (I := fun pool _ => Follows programs pool) (launch_follows programs) ?_
  intro pool s s' i c next log answer follows turn _ _
  refine ⟨by simp [follows.length], ?_⟩
  intro j thread found
  rcases getElem?_set_cases found with ⟨rfl, rfl, -⟩ | ⟨-, found⟩
  · obtain ⟨p, programAt, after⟩ := follows.after j _ turn
    exact ⟨p, programAt, after.snoc answer⟩
  · exact follows.after j thread found

/-- The calls in the logs have been checked, each when it was made: what every honest
answer has, and no later call takes away, every logged answer has. -/
theorem Run.logged {J : σ → Prop} {P : Event S → Prop} (init : J s₀)
    (kept : ∀ {pool : List (Thread S F α)} {s s' : σ} {i : Nat} {c : S.Call}
      {next : S.Answer c → Program S F α} {log : List (Event S)} {answer : S.Answer c},
      (∀ thread ∈ pool, ∀ e ∈ thread.log, P e) → J s → Run sem guard pool₀ s₀ pool s →
        pool[i]? = some ⟨.call c next, log⟩ → guard pool s i c → sem c s answer s' →
          J s' ∧ P ⟨c, answer⟩)
    (fresh : ∀ thread ∈ pool₀, thread.log = []) (run : Run sem guard pool₀ s₀ pool s) :
    J s ∧ ∀ thread ∈ pool, ∀ e ∈ thread.log, P e := by
  induction run with
  | start => exact ⟨init, fun thread member e logged => by simp [fresh thread member] at logged⟩
  | step before turn guarded made ih =>
      obtain ⟨holds, checked⟩ := ih
      obtain ⟨after, now⟩ := kept checked holds before turn guarded made
      refine ⟨after, ?_⟩
      intro thread member e logged
      rcases List.mem_or_eq_of_mem_set member with member | rfl
      · exact checked thread member e logged
      · rcases List.mem_append.1 logged with logged | logged
        · exact checked _ (List.mem_of_getElem? turn) e logged
        · exact List.mem_singleton.1 logged ▸ now

/-- A thread that runs alone for a while. -/
theorem Run.alone (run : Run sem anyStep pool₀ s₀ pool s) {i : Nat} {p q : Program S F α}
    {log log' : List (Event S)} {s' : σ} (turn : pool[i]? = some ⟨p, log⟩)
    (after : Program.After p log' q) (replays : Program.Replays sem s log' s') :
    Run sem anyStep pool₀ s₀ (pool.set i ⟨q, log ++ log'⟩) s' := by
  induction after generalizing pool s log with
  | start p =>
      obtain rfl := (Program.replays_nil_iff sem).1 replays
      obtain ⟨inside, here⟩ := List.getElem?_eq_some_iff.1 turn
      rw [List.append_nil, ← here, List.set_getElem_self]
      exact run
  | @call c next answer rest q _ ih =>
      obtain ⟨s₁, made, later⟩ := (Program.replays_cons_iff sem).1 replays
      have here : (pool.set i ⟨next answer, log ++ [⟨c, answer⟩]⟩)[i]? =
          some ⟨next answer, log ++ [⟨c, answer⟩]⟩ :=
        List.getElem?_set_self (List.getElem?_eq_some_iff.1 turn).1
      have goesOn := ih (.step run turn trivial made) here later
      rw [List.set_set, List.append_assoc] at goesOn
      exact goesOn

/-! ## Threads cut short -/

/-- Each thread has made the calls that one of the others has made, and is cut short of it. -/
def CutShort (pool whole : List (Thread S F α)) : Prop :=
  ∀ (i : Nat) (thread : Thread S F α), pool[i]? = some thread →
    ∃ p, whole[i]? = some ⟨p, thread.log⟩ ∧ thread.program.Cuts p

/-- A run of programs that are cut short is a run of the whole ones, call by call. -/
theorem Run.whole {whole₀ : List (Thread S F α)} (short : CutShort pool₀ whole₀)
    (run : Run sem anyStep pool₀ s₀ pool s) :
    ∃ whole, Run sem anyStep whole₀ s₀ whole s ∧ CutShort pool whole := by
  induction run with
  | start => exact ⟨whole₀, .start, short⟩
  | @step pool s s' i c next log answer _ turn _ made ih =>
      obtain ⟨whole, run, short⟩ := ih
      obtain ⟨_, there, next', rfl, cuts⟩ := short i _ turn
      refine ⟨_, .step run there trivial made, ?_⟩
      intro j thread found
      rcases getElem?_set_cases found with ⟨rfl, rfl, -⟩ | ⟨other, found⟩
      · have inside := (List.getElem?_eq_some_iff.1 there).1
        exact ⟨next' answer, List.getElem?_set_self inside, cuts answer⟩
      · rw [List.getElem?_set_ne (Ne.symm other)]
        exact short j thread found

/-! ## Histories -/

section History

variable (sem) (guard)

/-- A run with its turns, the last one first: whose it was, and the call made in it. -/
inductive History (pool₀ : List (Thread S F α)) (s₀ : σ) :
    List (Nat × Event S) → List (Thread S F α) → σ → Prop
  | start : History pool₀ s₀ [] pool₀ s₀
  | step {turns : List (Nat × Event S)} {pool : List (Thread S F α)} {s s' : σ} {i : Nat}
      {c : S.Call} {next : S.Answer c → Program S F α} {log : List (Event S)} {answer : S.Answer c}
      (before : History pool₀ s₀ turns pool s) (turn : pool[i]? = some ⟨.call c next, log⟩)
      (guarded : guard pool s i c) (made : sem c s answer s') :
      History pool₀ s₀ ((i, ⟨c, answer⟩) :: turns)
        (pool.set i ⟨next answer, log ++ [⟨c, answer⟩]⟩) s'

end History

variable {turns later before : List (Nat × Event S)}

theorem History.run (history : History sem guard pool₀ s₀ turns pool s) :
    Run sem guard pool₀ s₀ pool s := by
  induction history with
  | start => exact .start
  | step _ turn guarded made ih => exact .step ih turn guarded made

theorem Run.history (run : Run sem guard pool₀ s₀ pool s) :
    ∃ turns, History sem guard pool₀ s₀ turns pool s := by
  induction run with
  | start => exact ⟨[], .start⟩
  | step _ turn guarded made ih =>
      obtain ⟨turns, history⟩ := ih
      exact ⟨_, .step history turn guarded made⟩

/-- A thread that has nothing left to do stays as it is. -/
theorem ended_of_turn {i j : Nat} {c : S.Call} {next : S.Answer c → Program S F α}
    {log : List (Event S)} {thread stepped : Thread S F α} (turn : pool[i]? = some ⟨.call c next, log⟩)
    (ended : thread.program.ended = true) (found : pool[j]? = some thread) :
    (pool.set i stepped)[j]? = some thread := by
  have other : i ≠ j := by
    rintro rfl
    rw [turn] at found
    cases found
    cases ended
  rw [List.getElem?_set_ne other]
  exact found

/-- An earlier state of a history, and what was over by then. -/
theorem History.earlier (history : History sem guard pool₀ s₀ (later ++ before) pool s) :
    ∃ pool' s', History sem guard pool₀ s₀ before pool' s' ∧
      ∀ (j : Nat) (thread : Thread S F α), pool'[j]? = some thread →
        thread.program.ended = true → pool[j]? = some thread := by
  induction later generalizing pool s with
  | nil => exact ⟨pool, s, history, fun j thread found _ => found⟩
  | cons t rest ih =>
      cases history with
      | step before turn guarded made =>
          obtain ⟨pool', s', reached, kept⟩ := ih before
          refine ⟨pool', s', reached, ?_⟩
          intro j thread found ended
          exact ended_of_turn turn ended (kept j thread found ended)

/-- A thread's log is its turns. -/
theorem History.mem_log_iff {programs : List (Program S F α)}
    (history : History sem guard (launch programs) s₀ turns pool s) {i : Nat}
    {thread : Thread S F α} (found : pool[i]? = some thread) (e : Event S) :
    e ∈ thread.log ↔ (i, e) ∈ turns := by
  induction history generalizing thread with
  | start =>
      simp only [launch, List.getElem?_map, Option.map_eq_some_iff] at found
      obtain ⟨p, -, rfl⟩ := found
      simp
  | @step turns pool s s' j c next log answer before turn guarded made ih =>
      rcases getElem?_set_cases found with ⟨rfl, rfl, -⟩ | ⟨other, found⟩
      · rw [List.mem_append, ih turn, List.mem_singleton, List.mem_cons, Prod.mk.injEq]
        simp only [true_and]
        exact or_comm
      · rw [ih found, List.mem_cons, Prod.mk.injEq]
        simp [other]

/-- Every turn was some thread's. -/
theorem History.turn_of_mem {programs : List (Program S F α)}
    (history : History sem guard (launch programs) s₀ turns pool s) {i : Nat} {e : Event S}
    (member : (i, e) ∈ turns) : ∃ thread, pool[i]? = some thread := by
  have inside : i < pool.length := by
    induction history with
    | start => cases member
    | step before turn guarded made ih =>
        rw [List.length_set]
        rcases List.mem_cons.1 member with same | member
        · cases same
          exact (List.getElem?_eq_some_iff.1 turn).1
        · exact ih member
  exact ⟨_, List.getElem?_eq_getElem inside⟩

/-- Additions commute: when every call only ever adds what its event says, the state
holds exactly what it started with and what the threads' logs added, in any order of
the steps. -/
theorem Run.accumulates {programs : List (Program S F α)}
    (run : Run sem guard (launch programs) s₀ pool s) {K : Type} (holds : σ → K → Prop)
    (adds : Event S → K → Prop)
    (only : ∀ c s a s', sem c s a s' → ∀ k, holds s' k ↔ holds s k ∨ adds ⟨c, a⟩ k) (k : K) :
    holds s k ↔ holds s₀ k ∨ ∃ thread ∈ pool, ∃ e ∈ thread.log, adds e k := by
  refine run.invariant (I := fun pool s => holds s k ↔
    holds s₀ k ∨ ∃ thread ∈ pool, ∃ e ∈ thread.log, adds e k) ?_ ?_
  · simp [launch]
  · intro pool s s' i c next log answer same turn _ made
    obtain ⟨inside, here⟩ := List.getElem?_eq_some_iff.1 turn
    rw [only c s answer s' made k, same]
    constructor
    · rintro ((old | ⟨thread, member, e, logged, added⟩) | added)
      · exact .inl old
      · obtain ⟨j, at_j, rfl⟩ := List.getElem_of_mem member
        by_cases own : j = i
        · subst own
          refine .inr ⟨_, List.mem_set at_j _, e, ?_, added⟩
          rw [here] at logged
          exact List.mem_append_left _ logged
        · refine .inr ⟨pool[j], ?_, e, logged, added⟩
          rw [List.mem_iff_getElem?]
          exact ⟨j, by rw [List.getElem?_set_ne (Ne.symm own)]; exact List.getElem?_eq_getElem at_j⟩
      · exact .inr ⟨_, List.mem_set inside _, _, List.mem_append_right _ (by simp), added⟩
    · rintro (old | ⟨thread, member, e, logged, added⟩)
      · exact .inl (.inl old)
      · rcases List.mem_or_eq_of_mem_set member with member | rfl
        · exact .inl (.inr ⟨thread, member, e, logged, added⟩)
        · rcases List.mem_append.1 logged with logged | logged
          · exact .inl (.inr ⟨_, here ▸ List.getElem_mem inside, e, logged, added⟩)
          · rw [List.mem_singleton.1 logged] at added
            exact .inr added

end Pool

end Feedserver.Theory
