/-
# Theory.Serial — a pool's run as its programs one after another

A thread is placed in a serial order when it comes to its end. `Serial` runs the programs in
that order, each alone and to its end, on a state of their own; a relation `I` ties that state
to the pool and the state of the run.

* `exec_of_finishes`: a log whose answers are those the state would give is the run of the
  program alone.
* `History.serialize`: when every turn keeps the relation, and the one that ends a thread
  keeps it against the run of that thread's program alone, each thread has the outcome it has
  in the serial run.
* `InOrder`: the order respects real time: at each moment of the history, the threads that are
  over come before those that are not.
* `History.moment`: a thread's turn, with the earlier history that it was taken after.
-/
import Feedserver.Theory.Pool

namespace Feedserver.Theory

set_option autoImplicit false

variable {S : Signature} {F α σ : Type}

namespace Program

/-- The meaning of calls that are answered by a function. -/
def Answering (answer : (c : S.Call) → σ → S.Answer c × σ) : Semantics S σ :=
  fun c s a s' => (a, s') = answer c s

theorem exec_of_finishes {answer : (c : S.Call) → σ → S.Answer c × σ} {p : Program S F α}
    {log : List (Event S)} {outcome : Except F α} {s s' : σ} (finished : Finishes p log outcome)
    (replays : Replays (Answering answer) s log s') : exec answer p s = (outcome, s') := by
  induction p generalizing log s with
  | done value =>
      obtain ⟨rfl, rfl⟩ := finishes_done_iff.1 finished
      obtain rfl := (replays_nil_iff _).1 replays
      rfl
  | fault reason =>
      obtain ⟨rfl, rfl⟩ := finishes_fault_iff.1 finished
      obtain rfl := (replays_nil_iff _).1 replays
      rfl
  | call c next ih =>
      obtain ⟨a, rest, rfl, finishes⟩ := finishes_call_iff.1 finished
      obtain ⟨between, made, later⟩ := (replays_cons_iff _).1 replays
      have given : (a, between) = answer c s := made
      rw [exec_call, ← given]
      exact ih a finishes later

/-- Two logs, one after the other. -/
theorem Replays.append {sem : Semantics S σ} {s s' s'' : σ} {log log' : List (Event S)}
    (first : Replays sem s log s') (second : Replays sem s' log' s'') :
    Replays sem s (log ++ log') s'' := by
  induction first with
  | nil s => exact second
  | cons head _ ih => exact .cons head (ih second)

end Program

namespace Pool

/-- Programs run one after the other, each to its end; with the outcome of each. -/
inductive Serial (answer : (c : S.Call) → σ → S.Answer c × σ) (programs : List (Program S F α))
    (s₀ : σ) : List (Nat × Except F α) → σ → Prop
  | nil : Serial answer programs s₀ [] s₀
  | snoc {order : List (Nat × Except F α)} {i : Nat} {p : Program S F α} {outcome : Except F α}
      {t t' : σ} (before : Serial answer programs s₀ order t) (program : programs[i]? = some p)
      (ran : Program.exec answer p t = (outcome, t')) :
      Serial answer programs s₀ (order ++ [(i, outcome)]) t'

/-- At each moment, those that have no turn left come before those that have. -/
def InOrder (turns : List (Nat × Event S)) (order : List Nat) : Prop :=
  ∀ later before, turns = later ++ before → ∃ front back, order = front ++ back ∧
    (∀ i ∈ front, ∀ e, (i, e) ∉ later) ∧ ∀ i ∈ back, ∃ e, (i, e) ∈ later

theorem inOrder_start : InOrder ([] : List (Nat × Event S)) [] :=
  fun _ _ _ => ⟨[], [], rfl, nofun, nofun⟩

/-- The turn of a thread that is in no place yet. -/
theorem InOrder.turn {turns : List (Nat × Event S)} {order : List Nat} (inOrder : InOrder turns order)
    {i : Nat} (absent : i ∉ order) (e : Event S) : InOrder ((i, e) :: turns) order := by
  intro later before same
  cases later with
  | nil => exact ⟨order, [], (List.append_nil _).symm, fun _ _ _ => List.not_mem_nil, nofun⟩
  | cons t later =>
      rw [List.cons_append] at same
      obtain ⟨rfl, rest⟩ := List.cons.inj same
      obtain ⟨front, back, rfl, past, open_⟩ := inOrder later before rest
      refine ⟨front, back, rfl, ?_, ?_⟩
      · intro j member e' inLater
        rcases List.mem_cons.1 inLater with own | inLater
        · cases own
          exact absent (List.mem_append_left _ member)
        · exact past j member e' inLater
      · intro j member
        obtain ⟨e', inLater⟩ := open_ j member
        exact ⟨e', List.mem_cons_of_mem _ inLater⟩

/-- The turn that ends it. -/
theorem InOrder.last {turns : List (Nat × Event S)} {order : List Nat} (inOrder : InOrder turns order)
    {i : Nat} (absent : i ∉ order) (e : Event S) : InOrder ((i, e) :: turns) (order ++ [i]) := by
  intro later before same
  obtain ⟨front, back, rfl, past, open_⟩ := inOrder.turn absent e later before same
  cases later with
  | nil =>
      exact ⟨front ++ back ++ [i], [], (List.append_nil _).symm, fun _ _ _ => List.not_mem_nil, nofun⟩
  | cons t later =>
      rw [List.cons_append] at same
      obtain ⟨rfl, -⟩ := List.cons.inj same
      refine ⟨front, back ++ [i], List.append_assoc _ _ _, past, ?_⟩
      intro j member
      rcases List.mem_append.1 member with member | member
      · exact open_ j member
      · exact ⟨e, List.mem_singleton.1 member ▸ List.mem_cons_self⟩

/-- The second thread has a turn behind the last one of the first. -/
def EndsBefore (turns : List (Nat × Event S)) (i j : Nat) : Prop :=
  ∃ later before, turns = later ++ before ∧ (∀ e, (i, e) ∉ later) ∧ ∃ e, (j, e) ∈ later

theorem EndsBefore.asymm {turns : List (Nat × Event S)} {i j : Nat}
    (first : EndsBefore turns i j) : ¬ EndsBefore turns j i := by
  obtain ⟨later, before, rfl, past, e, goesOn⟩ := first
  rintro ⟨later', before', same, past', e', goesOn'⟩
  rcases List.append_eq_append_iff.1 same with ⟨middle, rfl, -⟩ | ⟨middle, rfl, -⟩
  · exact past' e (List.mem_append_left _ goesOn)
  · exact past e' (List.mem_append_left _ goesOn')

/-- The last turn of a thread, and what comes behind it. -/
theorem exists_last_turn {turns : List (Nat × Event S)} {i : Nat} (turn : ∃ e, (i, e) ∈ turns) :
    ∃ later e before, turns = later ++ (i, e) :: before ∧ ∀ e', (i, e') ∉ later := by
  obtain ⟨e, member⟩ := turn
  have named : i ∈ turns.map Prod.fst := List.mem_map_of_mem member
  obtain ⟨_, _, split, fresh⟩ := List.eq_append_cons_of_mem named
  obtain ⟨later, _, rfl, rfl, rest⟩ := List.map_eq_append_iff.1 split
  obtain ⟨⟨_, e'⟩, before, rfl, rfl, -⟩ := List.map_eq_cons_iff.1 rest
  exact ⟨later, e', before, rfl, fun _ late => fresh (List.mem_map.2 ⟨_, late, rfl⟩)⟩

/-- What was over first stands first. -/
theorem InOrder.pairwise {turns : List (Nat × Event S)} {order : List Nat}
    (inOrder : InOrder turns order) (nodup : order.Nodup)
    (turn : ∀ i ∈ order, ∃ e, (i, e) ∈ turns) : order.Pairwise (EndsBefore turns) := by
  refine List.pairwise_iff_forall_sublist.2 fun {i j} sublist => ?_
  have different : i ≠ j := by simpa using nodup.sublist sublist
  -- whatever the cut, the second is not in front of it with the first behind
  have cut {front back : List Nat} (same : order = front ++ back) (ahead : j ∈ front) :
      i ∉ back := by
    intro behind
    subst same
    obtain ⟨_, _, split, left, right⟩ := List.sublist_append_iff.1 sublist
    have apart := (List.nodup_append.1 nodup).2.2
    rcases List.cons_eq_append_iff.1 split with ⟨rfl, rfl⟩ | ⟨_, rfl, -⟩
    · exact apart j ahead j (right.subset (by simp)) rfl
    · exact apart i (left.subset List.mem_cons_self) i behind rfl
  have inside : j ∈ order := sublist.subset (by simp)
  obtain ⟨later, e, before, rfl, fresh⟩ := exists_last_turn (turn j inside)
  refine ⟨later ++ [(j, e)], before, by simp, ?_, e, by simp⟩
  obtain ⟨front, back, rfl, past, goesOn⟩ := inOrder (later ++ [(j, e)]) before (by simp)
  obtain ahead | behind := List.mem_append.1 (sublist.subset List.mem_cons_self)
  · exact past i ahead
  · -- then the first is under way where the second is over
    obtain ⟨front', back', same, past', goesOn'⟩ := inOrder later ((j, e) :: before) rfl
    have ahead : j ∈ front' := by
      obtain ahead | late := List.mem_append.1 (same ▸ inside)
      · exact ahead
      · obtain ⟨e', member⟩ := goesOn' j late
        exact absurd member (fresh e')
    have late : i ∈ back' := by
      obtain ahead | late := List.mem_append.1 (same ▸ sublist.subset List.mem_cons_self)
      · obtain ⟨e', member⟩ := goesOn i behind
        obtain member | own := List.mem_append.1 member
        · exact absurd member (past' i ahead e')
        · exact absurd (Prod.mk.inj (List.mem_singleton.1 own)).1 different
      · exact late
    exact absurd late (cut same ahead)

/-- The threads that are counted and have come to their ends, in an order that is theirs. -/
structure Serialized (answer : (c : S.Call) → σ → S.Answer c × σ) (programs : List (Program S F α))
    (Counted : Nat → Prop) (turns : List (Nat × Event S)) (pool : List (Thread S F α)) (s₀ : σ)
    (order : List (Nat × Except F α)) (t : σ) : Prop where
  serial : Serial answer programs s₀ order t
  nodup : (order.map Prod.fst).Nodup
  ended : ∀ i outcome, (i, outcome) ∈ order ↔
    Counted i ∧ ∃ log, pool[i]? = some ⟨.ofExcept outcome, log⟩
  inOrder : InOrder turns (order.map Prod.fst)

section Serialize

variable {sem : Program.Semantics S σ} {guard : Guard S F α σ}
  {answer : (c : S.Call) → σ → S.Answer c × σ} {programs : List (Program S F α)}
  {Counted : Nat → Prop} {turns : List (Nat × Event S)} {pool : List (Thread S F α)} {s₀ s t : σ}
  {order : List (Nat × Except F α)}

theorem ended_ofExcept (outcome : Except F α) :
    (Program.ofExcept outcome : Program S F α).ended = true := by
  cases outcome <;> rfl

theorem ofExcept_inj {outcome outcome' : Except F α}
    (same : (Program.ofExcept outcome : Program S F α) = .ofExcept outcome') :
    outcome = outcome' := by
  cases outcome <;> cases outcome' <;> cases same <;> rfl

/-- Nothing is placed as long as no program has begun. -/
theorem serialized_launch (begins : ∀ p ∈ programs, p.ended = false) :
    Serialized answer programs Counted [] (launch programs) s₀ [] s₀ where
  serial := .nil
  nodup := List.nodup_nil
  ended i outcome := by
    refine ⟨nofun, ?_⟩
    rintro ⟨-, log, found⟩
    simp only [launch, List.getElem?_map, Option.map_eq_some_iff] at found
    obtain ⟨p, programAt, same⟩ := found
    obtain rfl : p = .ofExcept outcome := congrArg Thread.program same
    have fresh := begins _ (List.mem_of_getElem? programAt)
    rw [ended_ofExcept] at fresh
    cases fresh
  inOrder := inOrder_start

/-- A thread about to take a turn is in no place. -/
theorem Serialized.absent (serialized : Serialized answer programs Counted turns pool s₀ order t)
    {i : Nat} {c : S.Call} {next : S.Answer c → Program S F α} {log : List (Event S)}
    (turn : pool[i]? = some ⟨.call c next, log⟩) : i ∉ order.map Prod.fst := by
  intro member
  obtain ⟨⟨j, outcome⟩, placed, rfl⟩ := List.mem_map.1 member
  obtain ⟨-, log', found⟩ := (serialized.ended j outcome).1 placed
  have same : Program.call c next = .ofExcept outcome :=
    congrArg Thread.program (Option.some.inj (turn.symm.trans found))
  cases outcome <;> cases same

/-- A thread that has come to its end has had a turn. -/
theorem History.turned (history : History sem guard (launch programs) s₀ turns pool s)
    (begins : ∀ p ∈ programs, p.ended = false) {i : Nat} {thread : Thread S F α}
    (found : pool[i]? = some thread) (ended : thread.program.ended = true) :
    ∃ e, (i, e) ∈ turns := by
  obtain ⟨p, program, after⟩ := history.run.follows.after i thread found
  have notEmpty : thread.log ≠ [] := by
    intro none_
    rw [none_, Program.after_nil_iff] at after
    have fresh := begins p (List.mem_of_getElem? program)
    rw [← after, ended] at fresh
    cases fresh
  obtain ⟨e, member⟩ := List.exists_mem_of_ne_nil _ notEmpty
  exact ⟨e, (history.mem_log_iff found e).1 member⟩

/-- The places are not changed by a turn that ends no counted thread. -/
theorem Serialized.quiet (serialized : Serialized answer programs Counted turns pool s₀ order t)
    {i : Nat} {c : S.Call} {next : S.Answer c → Program S F α} {log log' : List (Event S)}
    {e : Event S} {q : Program S F α} (turn : pool[i]? = some ⟨.call c next, log⟩)
    (goesOn : q.ended = true → ¬ Counted i) :
    Serialized answer programs Counted ((i, e) :: turns) (pool.set i ⟨q, log'⟩) s₀ order t where
  serial := serialized.serial
  nodup := serialized.nodup
  ended j outcome := by
    rw [serialized.ended]
    by_cases own : j = i
    · subst own
      rw [List.getElem?_set_self (List.getElem?_eq_some_iff.1 turn).1, turn]
      constructor
      · rintro ⟨counted, log, found⟩
        have same := congrArg Thread.program (Option.some.inj found)
        cases outcome <;> cases same
      · rintro ⟨counted, log, found⟩
        obtain rfl : q = .ofExcept outcome := congrArg Thread.program (Option.some.inj found)
        exact absurd counted (goesOn (ended_ofExcept outcome))
    · rw [List.getElem?_set_ne (Ne.symm own)]
  inOrder := serialized.inOrder.turn (serialized.absent turn) e

/-- One that does puts it in the last place. -/
theorem Serialized.last (serialized : Serialized answer programs Counted turns pool s₀ order t)
    {i : Nat} {c : S.Call} {next : S.Answer c → Program S F α} {log log' : List (Event S)}
    {e : Event S} {p : Program S F α} {outcome : Except F α} {t' : σ}
    (turn : pool[i]? = some ⟨.call c next, log⟩) (counted : Counted i)
    (program : programs[i]? = some p) (ran : Program.exec answer p t = (outcome, t')) :
    Serialized answer programs Counted ((i, e) :: turns)
      (pool.set i ⟨.ofExcept outcome, log'⟩) s₀ (order ++ [(i, outcome)]) t' where
  serial := .snoc serialized.serial program ran
  nodup := by
    rw [List.map_append, List.map_singleton]
    refine List.nodup_append.2 ⟨serialized.nodup, by simp, ?_⟩
    intro j member k own same
    obtain rfl := List.mem_singleton.1 own
    exact serialized.absent turn (same ▸ member)
  ended j outcome' := by
    rw [List.mem_append, List.mem_singleton, serialized.ended]
    by_cases own : j = i
    · subst own
      rw [List.getElem?_set_self (List.getElem?_eq_some_iff.1 turn).1, turn]
      constructor
      · rintro (⟨-, log, found⟩ | same)
        · have same := congrArg Thread.program (Option.some.inj found)
          cases outcome' <;> cases same
        · obtain ⟨-, rfl⟩ := Prod.mk.inj same
          exact ⟨counted, log', rfl⟩
      · rintro ⟨-, log, found⟩
        have same := congrArg Thread.program (Option.some.inj found)
        exact .inr (congrArg _ (ofExcept_inj same).symm)
    · rw [List.getElem?_set_ne (Ne.symm own)]
      simp [own]
  inOrder := by
    rw [List.map_append, List.map_singleton]
    exact serialized.inOrder.last (serialized.absent turn) e

/-- **Serial outcomes.** When each turn keeps the relation to the serial state, and the last
one of a counted thread does after its program has run there alone with the thread's outcome,
the counted threads have the outcomes of a serial run. -/
theorem History.serialize {I : List (Thread S F α) → σ → σ → Prop} (start : I (launch programs) s₀ s₀)
    (begins : ∀ p ∈ programs, p.ended = false)
    (quiet : ∀ {pool : List (Thread S F α)} {s s' t : σ} {i : Nat} {c : S.Call}
      {next : S.Answer c → Program S F α} {log : List (Event S)} {a : S.Answer c},
      Run sem guard (launch programs) s₀ pool s → I pool s t →
        pool[i]? = some ⟨.call c next, log⟩ → guard pool s i c → sem c s a s' →
          ((next a).ended = true → ¬ Counted i) →
            I (pool.set i ⟨next a, log ++ [⟨c, a⟩]⟩) s' t)
    (last : ∀ {pool : List (Thread S F α)} {s s' t : σ} {i : Nat} {c : S.Call}
      {next : S.Answer c → Program S F α} {log : List (Event S)} {a : S.Answer c}
      {p : Program S F α} {outcome : Except F α},
      Run sem guard (launch programs) s₀ pool s → I pool s t →
        pool[i]? = some ⟨.call c next, log⟩ → guard pool s i c → sem c s a s' → Counted i →
          programs[i]? = some p → next a = .ofExcept outcome →
            ∃ t', Program.exec answer p t = (outcome, t') ∧
              I (pool.set i ⟨next a, log ++ [⟨c, a⟩]⟩) s' t')
    (history : History sem guard (launch programs) s₀ turns pool s) :
    ∃ order t, Serialized answer programs Counted turns pool s₀ order t ∧ I pool s t := by
  induction history with
  | start => exact ⟨[], s₀, serialized_launch begins, start⟩
  | @step turns pool s s' i c next log a before turn guarded made ih =>
      obtain ⟨order, t, serialized, related⟩ := ih
      by_cases past : (next a).ended = true ∧ Counted i
      · obtain ⟨ended, counted⟩ := past
        obtain ⟨outcome, same⟩ := Program.outcome_of_ended ended
        obtain ⟨p, program, -⟩ := before.run.follows.after i _ turn
        obtain ⟨t', ran, related'⟩ := last before.run related turn guarded made counted program same
        refine ⟨order ++ [(i, outcome)], t', ?_, related'⟩
        rw [same]
        exact serialized.last turn counted program ran
      · have goesOn : (next a).ended = true → ¬ Counted i := fun ended counted =>
          past ⟨ended, counted⟩
        exact ⟨order, t, serialized.quiet turn goesOn,
          quiet before.run related turn guarded made goesOn⟩

end Serialize

/-! ## Moments -/

section Moments

variable {sem : Program.Semantics S σ} {guard : Guard S F α σ} {programs : List (Program S F α)}
  {pool : List (Thread S F α)} {s₀ s : σ} {turns : List (Nat × Event S)}

/-- A thread's turn, by its place in the log: what it was taken on, and after which turns. -/
theorem History.moment (history : History sem guard (launch programs) s₀ turns pool s) {i : Nat}
    {thread : Thread S F α} {front rest : List (Event S)} {e : Event S}
    (found : pool[i]? = some thread) (placed : thread.log = front ++ e :: rest) :
    ∃ later before pool' s' next s'', turns = later ++ (i, e) :: before ∧
      History sem guard (launch programs) s₀ before pool' s' ∧
        pool'[i]? = some ⟨.call e.call next, front⟩ ∧ sem e.call s' e.answer s'' := by
  induction history generalizing thread rest with
  | start =>
      simp only [launch, List.getElem?_map, Option.map_eq_some_iff] at found
      obtain ⟨p, -, rfl⟩ := found
      simp at placed
  | @step turns pool s s' j c next log answer before turn guarded made ih =>
      rcases getElem?_set_cases found with ⟨rfl, rfl, -⟩ | ⟨other, found⟩
      · rcases List.eq_nil_or_concat rest with rfl | ⟨rest, last, rfl⟩
        · obtain ⟨rfl, same⟩ := List.append_inj' placed rfl
          obtain rfl := List.singleton_inj.1 same
          exact ⟨[], turns, pool, s, next, s', rfl, before, turn, made⟩
        · rw [List.concat_eq_append, ← List.cons_append, ← List.append_assoc] at placed
          obtain ⟨same, -⟩ := List.append_inj' placed rfl
          obtain ⟨later, earlier, pool', r, next', r', rfl, reached⟩ := ih turn same
          exact ⟨(i, ⟨c, answer⟩) :: later, earlier, pool', r, next', r', rfl, reached⟩
      · obtain ⟨later, earlier, pool', r, next', r', rfl, reached⟩ := ih found placed
        exact ⟨(j, ⟨c, answer⟩) :: later, earlier, pool', r, next', r', rfl, reached⟩

end Moments

/-- The history of a schedule takes its turns from the schedule. -/
theorem history_play {sem : Program.Semantics S σ} (guard : Guard S F α σ)
    [∀ pool s i c, Decidable (guard pool s i c)] (answer : (c : S.Call) → σ → S.Answer c × σ)
    (allowed : ∀ c s, sem c s (answer c s).1 (answer c s).2) (pool₀ : List (Thread S F α)) (s₀ : σ)
    (schedule : List Nat) :
    ∃ turns, History sem guard pool₀ s₀ turns (play guard answer schedule (pool₀, s₀)).1
      (play guard answer schedule (pool₀, s₀)).2 ∧
        (turns.map Prod.fst).Sublist schedule.reverse := by
  have from_ (at_ : List (Thread S F α) × σ) (turns : List (Nat × Event S))
      (before : History sem guard pool₀ s₀ turns at_.1 at_.2) :
      ∃ later, History sem guard pool₀ s₀ (later ++ turns) (play guard answer schedule at_).1
        (play guard answer schedule at_).2 ∧ (later.map Prod.fst).Sublist schedule.reverse := by
    induction schedule generalizing at_ turns with
    | nil => exact ⟨[], before, List.Sublist.slnil⟩
    | cons i rest ih =>
        have idle (same : turn guard answer i at_ = at_) :
            ∃ later, History sem guard pool₀ s₀ (later ++ turns)
              (play guard answer (i :: rest) at_).1 (play guard answer (i :: rest) at_).2 ∧
                (later.map Prod.fst).Sublist (i :: rest).reverse := by
          obtain ⟨later, history, sublist⟩ := ih at_ turns before
          refine ⟨later, ?_, ?_⟩
          · simpa only [play, List.foldl_cons, same] using history
          · rw [List.reverse_cons]
            exact sublist.trans (List.sublist_append_left _ _)
        cases found : at_.1[i]? with
        | none => exact idle (by simp [turn, found])
        | some thread =>
            obtain ⟨_ | _ | ⟨c, next⟩, log⟩ := thread
            · exact idle (by simp [turn, found])
            · exact idle (by simp [turn, found])
            · by_cases guarded : guard at_.1 at_.2 i c
              · have moved : turn guard answer i at_ =
                    (at_.1.set i ⟨next (answer c at_.2).1, log ++ [⟨c, (answer c at_.2).1⟩]⟩,
                      (answer c at_.2).2) := by
                  simp [turn, found, guarded]
                obtain ⟨later, history, sublist⟩ := ih (_, _) _
                  (History.step before found guarded (allowed c at_.2))
                refine ⟨later ++ [(i, ⟨c, (answer c at_.2).1⟩)], ?_, ?_⟩
                · simpa only [play, List.foldl_cons, moved, List.append_assoc,
                    List.singleton_append] using history
                · rw [List.map_append, List.reverse_cons]
                  exact sublist.append (List.Sublist.refl [i])
              · exact idle (by simp [turn, found, guarded])
  obtain ⟨turns, history, sublist⟩ := from_ (pool₀, s₀) [] .start
  rw [List.append_nil] at history
  exact ⟨turns, history, sublist⟩

end Pool

end Feedserver.Theory
