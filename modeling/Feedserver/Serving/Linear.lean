/-
# Serving.Linear — requests at the same time are requests one after another

The answers of a run, against those of a server that serves each request to its end before
the next. A request is placed when its last call is made; `Steady` is what its earlier calls
were answered and the world still is.

* `Joint`: the serial world and the run's have the same records, and the same articles but
  for those of submissions that are still going on.
* `answers_linear`: while every database call succeeds and every record is put over the one
  that was read, the requests that have been answered, in the order of their last calls, have
  the answers of that server, and this order respects real time. A listing reads two databases
  one after the other and has no such place; it may run beside the others.
* `undisturbed_of_noOverlap`: requests about one record that do not overlap put it over the
  one they have read.
-/
import Feedserver.Articles.Reports
import Feedserver.Serving.Bodies
import Feedserver.Serving.Submission
import Feedserver.Theory.Serial

namespace Feedserver.Serving

open Feedserver.Theory
open Feedserver.Source
open Feedserver.Records
open Feedserver.Articles
open Pool (Run History Serialized)
open Program (exec)

set_option autoImplicit false

/-! ## Answers that still hold -/

/-- The world would give this answer again. -/
def Steady (w : World) : Event calls → Prop
  | ⟨.feederShutdown, shutdown⟩ => shutdown = w.feederShutdown
  | ⟨.ufGet key, answer⟩ => answer = (succeed (.ufGet key) w).1
  | ⟨.faPut _, s⟩ => s = Status.ok
  | _ => False

theorem Steady.congr {w w' : World} {e : Event calls} (steady : Steady w e)
    (flag : w'.feederShutdown = w.feederShutdown) (uf : w'.uf = w.uf) : Steady w' e := by
  obtain ⟨c, a⟩ := e
  cases c with
  | feederShutdown => exact Eq.trans steady flag.symm
  | ufGet key =>
      show a = _
      rw [show a = (succeed (.ufGet key) w).1 from steady]
      simp only [succeed, uf]
      split <;> rfl
  | faPut key => exact steady
  | _ => exact steady.elim

/-- The world after calls that change nothing but the articles. -/
structure Added (w w' : World) (log : List (Event calls)) : Prop where
  flag : w'.feederShutdown = w.feederShutdown
  uf : w'.uf = w.uf
  fa : ∀ key, key ∈ w'.fa ↔ key ∈ w.fa ∨ accepts key ∈ log

/-- Steady answers are those of a server that has nothing else to do. -/
theorem replays_steady {w : World} {log : List (Event calls)} (steady : ∀ e ∈ log, Steady w e) :
    ∃ w', Program.Replays succeeding w log w' ∧ Added w w' log := by
  induction log generalizing w with
  | nil => exact ⟨w, .nil w, rfl, rfl, by simp⟩
  | cons e rest ih =>
      obtain ⟨first, later⟩ := List.forall_mem_cons.1 steady
      obtain ⟨c, a⟩ := e
      have others (w' : World) (flag : w'.feederShutdown = w.feederShutdown) (uf : w'.uf = w.uf) :
          ∀ e ∈ rest, Steady w' e := fun e member => (later e member).congr flag uf
      cases c with
      | feederShutdown =>
          obtain ⟨w', replays, added⟩ := ih (others w rfl rfl)
          have same : a = w.feederShutdown := first
          refine ⟨w', .cons (by rw [same]; rfl) replays, added.flag, added.uf, ?_⟩
          intro key
          rw [added.fa, List.mem_cons]
          exact or_congr_right (or_iff_right (by rintro ⟨⟩)).symm
      | ufGet key =>
          obtain ⟨w', replays, added⟩ := ih (others w rfl rfl)
          have same : a = (succeed (.ufGet key) w).1 := first
          have kept : (succeed (.ufGet key) w).2 = w := by
            simp only [succeed]
            split <;> rfl
          have made : succeeding (.ufGet key) w a w := by
            show (a, w) = succeed (.ufGet key) w
            rw [same]
            exact Prod.ext rfl kept.symm
          refine ⟨w', .cons made replays, added.flag, added.uf, ?_⟩
          intro key
          rw [added.fa, List.mem_cons]
          exact or_congr_right (or_iff_right (by rintro ⟨⟩)).symm
      | faPut key =>
          obtain rfl : a = Status.ok := first
          obtain ⟨w', replays, added⟩ := ih (others (w.after (.faPut key) Status.ok) rfl rfl)
          refine ⟨w', .cons rfl replays, added.flag, added.uf, ?_⟩
          intro k
          rw [added.fa, List.mem_cons]
          have inserted : k ∈ (w.after (.faPut key) Status.ok).fa ↔ k = key ∨ k ∈ w.fa :=
            OrderedKeys.mem_insert
          have own : accepts k = ⟨.faPut key, Status.ok⟩ ↔ k = key :=
            ⟨fun same => by cases same; rfl, fun same => by rw [same]; rfl⟩
          rw [inserted, own, or_comm (a := k = key), or_assoc]
      | _ => exact first.elim

section Runs

variable {json : Json.Parser} {requests : List Request} {w₀ w t : World} {pool : Threads}
  {turns : Turns} {guard : Pool.Guard calls Fault HttpResponse World}

/-- Without a request to shut down, every thread reads the flag as it was at first. -/
theorem flag_stays (stays : ∀ request ∈ requests, request.1 ≠ .shutdown)
    (run : Run succeeding guard (serve json requests) w₀ pool w) :
    w.feederShutdown = w₀.feederShutdown ∧
      ∀ thread ∈ pool, ∀ e ∈ thread.log, ∀ shutdown, e = checked shutdown →
        shutdown = w₀.feederShutdown := by
  refine run.logged (J := fun w => w.feederShutdown = w₀.feederShutdown)
    (P := fun e => ∀ shutdown, e = checked shutdown → shutdown = w₀.feederShutdown) rfl ?_ ?_
  · intro pool w w' i c next log a _ same before turn _ made
    obtain ⟨route, req, requestAt, -, makes⟩ := turn_makes before turn
    have stay : route ≠ .shutdown := stays _ (List.mem_of_getElem? requestAt)
    obtain ⟨honest, rfl⟩ := honest_of_succeeding c w a w' made
    cases c with
    | feederShutdown =>
        refine ⟨same, ?_⟩
        intro shutdown event
        cases event
        exact Eq.trans honest same
    | ufPut key value =>
        refine ⟨?_, by rintro shutdown ⟨⟩⟩
        simp only [World.after]
        split <;> exact same
    | faPut key =>
        refine ⟨?_, by rintro shutdown ⟨⟩⟩
        simp only [World.after]
        split <;> exact same
    | setFeederShutdown => cases route <;> first | exact makes.elim | exact absurd rfl stay
    | _ => exact ⟨same, by rintro shutdown ⟨⟩⟩
  · exact fun thread member => log_of_serve member

/-- Every answer in a log was one that a database gives. -/
theorem answered_of_run (run : Run succeeding guard (serve json requests) w₀ pool w) :
    ∀ thread ∈ pool, ∀ e ∈ thread.log, ∃ before after, succeeding e.call before e.answer after := by
  refine (run.logged (J := fun _ => True)
    (P := fun e => ∃ before after, succeeding e.call before e.answer after) trivial ?_ ?_).2
  · exact fun _ _ _ _ _ made => ⟨trivial, _, _, made⟩
  · exact fun thread member => log_of_serve member

/-- What a lookup was answered, if the store still holds it. -/
theorem steady_got {key : Bytes} {answer : Status × Bytes}
    (holds : stillHolds w ⟨.ufGet key, answer⟩ = true)
    (given : ∃ before after, succeeding (.ufGet key) before answer after) :
    Steady w ⟨.ufGet key, answer⟩ := by
  obtain ⟨before, after, given⟩ := given
  simp only [succeeding, succeed] at given
  show answer = _
  cases found : before.uf key with
  | some value =>
      rw [found] at given
      obtain ⟨rfl, -⟩ := Prod.mk.inj given
      have there : w.uf key = some value := by simpa [stillHolds] using holds
      simp [succeed, there]
  | none =>
      rw [found] at given
      obtain ⟨rfl, -⟩ := Prod.mk.inj given
      have absent : w.uf key = none := by simpa [stillHolds] using holds
      simp [succeed, absent]

/-! ## The requests that have a place -/

/-- All requests but listings. -/
def Placed (requests : List Request) (i : Nat) : Prop :=
  ∃ route req, requests[i]? = some (route, req) ∧ route ≠ .userArticles

/-- Only a record is looked up before the last call, and only to be put. -/
theorem quiet_log {route : Route} {req : HttpRequest} {c : Call}
    {next : calls.Answer c → Handler HttpResponse} {log : List (Event calls)}
    (placed : route ≠ .userArticles) (stays : route ≠ .shutdown)
    (after : Program.After (handle json route req) log (.call c next))
    (noPut : ∀ key value, c ≠ .ufPut key value) :
    ∀ e ∈ log, e.call = .feederShutdown ∨ ∃ key, e.call = .faPut key := by
  have ofUpdate (update : Update) (stage : Stage json update req log (.call c next)) :
      ∀ e ∈ log, e.call = .feederShutdown ∨ ∃ key, e.call = .faPut key := by
    generalize waits : Program.call (S := calls) c next = q at stage
    cases stage with
    | fresh => exact nofun
    | stopped => cases waits
    | declined turned =>
        rcases accept_error turned with ⟨_, _, rfl, -⟩ | ⟨_, rfl⟩ <;> cases waits
    | asking accepted =>
        intro e member
        rw [List.mem_singleton.1 member]
        exact .inl rfl
    | @decided ufReq answer accepted =>
        cases decision : update.decide json ufReq answer with
        | put uf =>
            rw [decision, Decision.perform, putUser_eq] at waits
            cases waits
            exact absurd rfl (noPut _ _)
        | refuse code msg => rw [decision] at waits; cases waits
        | fault reason => rw [decision] at waits; cases waits
    | stored accepted decision => cases waits
  cases route with
  | subscribe => exact ofUpdate .subscribe (stage_of_after after)
  | unsubscribe => exact ofUpdate .unsubscribe (stage_of_after after)
  | submit =>
      intro e member
      rcases ((submitArticles_uses json req).after after).1 e member with check | ⟨key, put, -⟩
      · exact .inl check
      · exact .inr ⟨key, put⟩
  | user =>
      generalize waits : Program.call (S := calls) c next = q at after
      cases stage_of_getUser after with
      | fresh => exact nofun
      | declined failed => cases waits
      | faulted => cases waits
      | asking locates =>
          intro e member
          rw [List.mem_singleton.1 member]
          exact .inl rfl
      | answered locates => cases waits
  | userArticles => exact absurd rfl placed
  | shutdown => exact absurd rfl stays

/-- Before the last call of a placed request, everything it has been answered still holds. -/
theorem steady_log (stays : ∀ request ∈ requests, request.1 ≠ .shutdown)
    (before : Run succeeding Undisturbed (serve json requests) w₀ pool w) {i : Nat} {c : Call}
    {next : calls.Answer c → Handler HttpResponse} {log : List (Event calls)}
    (turn : pool[i]? = some ⟨.call c next, log⟩) (guarded : Undisturbed pool w i c)
    (placed : Placed requests i) : ∀ e ∈ log, Steady w e := by
  obtain ⟨route, req, requestAt, after, makes⟩ := turn_makes before turn
  have member := List.mem_of_getElem? turn
  have given := answered_of_run before _ member
  have flag : ∀ shutdown, checked shutdown ∈ log → shutdown = w.feederShutdown := by
    intro shutdown inLog
    obtain ⟨same, read⟩ := flag_stays stays before
    rw [same]
    exact read _ member _ inLog shutdown rfl
  by_cases put : ∃ key value, c = .ufPut key value
  · obtain ⟨key, value, rfl⟩ := put
    obtain ⟨request, -, ⟨put⟩⟩ := put_turn before turn
    have holds : log.all (stillHolds w) = true := by
      simpa [Undisturbed, undisturbed, turn] using guarded
    have read : got put.ufReq.user put.answer ∈ log := by simp [put.log_eq]
    have first := flag false (by simp [put.log_eq])
    rw [put.log_eq]
    refine List.forall_mem_cons.2 ⟨first, ?_⟩
    intro e inLog
    rw [List.mem_singleton.1 inLog]
    exact steady_got (List.all_eq_true.1 holds _ read) (given _ read)
  · obtain ⟨route', req', same, listing⟩ := placed
    rw [requestAt] at same
    cases same
    have quiet := quiet_log listing (stays _ (List.mem_of_getElem? requestAt)) after
      fun key value same => put ⟨key, value, same⟩
    rintro ⟨c', a⟩ inLog
    rcases quiet _ inLog with rfl | ⟨key, rfl⟩
    · exact flag a inLog
    · obtain ⟨_, _, made⟩ := given _ inLog
      exact (Prod.mk.inj made).1

/-! ## The two worlds -/

/-- A submission that has not come to its end has put the key. -/
def Underway (pool : Threads) (key : Bytes) : Prop :=
  ∃ (i : Nat) (thread : Thread calls Fault HttpResponse), pool[i]? = some thread ∧
    thread.program.ended = false ∧ accepts key ∈ thread.log

/-- The world of the run, and that of the requests that have been answered. -/
structure Joint (pool : Threads) (w t : World) : Prop where
  flag : t.feederShutdown = w.feederShutdown
  uf : t.uf = w.uf
  fa : ∀ key, key ∈ w.fa ↔ key ∈ t.fa ∨ Underway pool key

theorem underway_turn_iff {i : Nat} {c : Call} {next : calls.Answer c → Handler HttpResponse}
    {log : List (Event calls)} (turn : pool[i]? = some ⟨.call c next, log⟩) (key : Bytes) :
    Underway pool key ↔ accepts key ∈ log ∨
      ∃ (j : Nat) (thread : Thread calls Fault HttpResponse), j ≠ i ∧ pool[j]? = some thread ∧
        thread.program.ended = false ∧ accepts key ∈ thread.log := by
  constructor
  · rintro ⟨j, thread, found, goesOn, inLog⟩
    by_cases own : j = i
    · subst own
      obtain rfl := Option.some.inj (turn.symm.trans found)
      exact .inl inLog
    · exact .inr ⟨j, thread, own, found, goesOn, inLog⟩
  · rintro (inLog | ⟨j, thread, -, found, goesOn, inLog⟩)
    · exact ⟨i, _, turn, rfl, inLog⟩
    · exact ⟨j, thread, found, goesOn, inLog⟩

theorem underway_set_iff {i : Nat} {c : Call} {next : calls.Answer c → Handler HttpResponse}
    {log : List (Event calls)} (turn : pool[i]? = some ⟨.call c next, log⟩)
    (stepped : Thread calls Fault HttpResponse) (key : Bytes) :
    Underway (pool.set i stepped) key ↔
      (stepped.program.ended = false ∧ accepts key ∈ stepped.log) ∨
        ∃ (j : Nat) (thread : Thread calls Fault HttpResponse), j ≠ i ∧ pool[j]? = some thread ∧
          thread.program.ended = false ∧ accepts key ∈ thread.log := by
  have inside := (List.getElem?_eq_some_iff.1 turn).1
  constructor
  · rintro ⟨j, thread, found, goesOn, inLog⟩
    rcases Pool.getElem?_set_cases found with ⟨rfl, rfl, -⟩ | ⟨other, found⟩
    · exact .inl ⟨goesOn, inLog⟩
    · exact .inr ⟨j, thread, other, found, goesOn, inLog⟩
  · rintro (⟨goesOn, inLog⟩ | ⟨j, thread, other, found, goesOn, inLog⟩)
    · exact ⟨i, stepped, List.getElem?_set_self inside, goesOn, inLog⟩
    · exact ⟨j, thread, by rwa [List.getElem?_set_ne (Ne.symm other)], goesOn, inLog⟩

theorem adds_iff (e : Event calls) (key : Bytes) : Adds e key ↔ e = accepts key := by
  obtain ⟨c, a⟩ := e
  constructor
  · intro adds
    cases c with
    | faPut k =>
        obtain ⟨rfl, rfl⟩ := adds
        rfl
    | _ => exact adds.elim
  · rintro ⟨⟩
    exact ⟨rfl, rfl⟩

theorem joint_launch : Joint (serve json requests) w₀ w₀ where
  flag := rfl
  uf := rfl
  fa key := by
    refine (or_iff_left ?_).symm
    rintro ⟨i, thread, found, -, inLog⟩
    rw [log_of_serve (List.mem_of_getElem? found)] at inLog
    cases inLog

/-- A turn that puts no record leaves the records and the flag. -/
theorem kept_of_turn (stays : ∀ request ∈ requests, request.1 ≠ .shutdown)
    (before : Run succeeding guard (serve json requests) w₀ pool w) {i : Nat} {c : Call}
    {next : calls.Answer c → Handler HttpResponse} {log : List (Event calls)} {a : calls.Answer c}
    {w' : World} (turn : pool[i]? = some ⟨.call c next, log⟩) (made : succeeding c w a w')
    (noPut : ∀ key value, c ≠ .ufPut key value) :
    w'.feederShutdown = w.feederShutdown ∧ w'.uf = w.uf := by
  obtain ⟨route, req, requestAt, -, makes⟩ := turn_makes before turn
  have stay : route ≠ .shutdown := stays _ (List.mem_of_getElem? requestAt)
  obtain ⟨-, rfl⟩ := honest_of_succeeding c w a w' made
  cases c with
  | ufPut key value => exact absurd rfl (noPut key value)
  | faPut key =>
      simp only [World.after]
      split <;> exact ⟨rfl, rfl⟩
  | setFeederShutdown => cases route <;> first | exact makes.elim | exact absurd rfl stay
  | _ => exact ⟨rfl, rfl⟩

/-- The last call of an update is its `Put`. -/
theorem put_ends (before : Run succeeding guard (serve json requests) w₀ pool w) {i : Nat}
    {key value : Bytes} {next : Status → Handler HttpResponse} {log : List (Event calls)}
    (turn : pool[i]? = some ⟨.call (S := calls) (.ufPut key value) next, log⟩) (s : Status) :
    Placed requests i ∧ (next s).ended = true := by
  obtain ⟨request, requestAt, ⟨put⟩⟩ := put_turn before turn
  refine ⟨⟨request.1, request.2, requestAt, ?_⟩, ?_⟩
  · rw [put.route]
    cases put.update <;> exact nofun
  · rw [put.next_eq]
    rfl

/-- A listing puts no article. -/
theorem no_article_of_listing (before : Run succeeding guard (serve json requests) w₀ pool w)
    {i : Nat} {c : Call} {next : calls.Answer c → Handler HttpResponse} {log : List (Event calls)}
    (turn : pool[i]? = some ⟨.call c next, log⟩) (listing : ¬ Placed requests i) (a : calls.Answer c)
    (key : Bytes) : accepts key ∉ log ∧ (⟨c, a⟩ : Event calls) ≠ accepts key := by
  obtain ⟨route, req, requestAt, after, makes⟩ := turn_makes before turn
  obtain rfl : route = .userArticles := by
    by_contra other
    exact listing ⟨route, req, requestAt, other⟩
  refine ⟨fun inLog => ?_, ?_⟩
  · have made : Makes .userArticles (.faPut key) :=
      ((handle_makes json .userArticles req).after after).1 _ inLog
    exact made.elim
  · rintro ⟨⟩
    exact makes.elim

theorem joint_quiet (stays : ∀ request ∈ requests, request.1 ≠ .shutdown)
    (before : Run succeeding guard (serve json requests) w₀ pool w) (joint : Joint pool w t)
    {i : Nat} {c : Call} {next : calls.Answer c → Handler HttpResponse} {log : List (Event calls)}
    {a : calls.Answer c} {w' : World} (turn : pool[i]? = some ⟨.call c next, log⟩)
    (made : succeeding c w a w') (goesOn : (next a).ended = true → ¬ Placed requests i) :
    Joint (pool.set i ⟨next a, log ++ [⟨c, a⟩]⟩) w' t := by
  have noPut : ∀ key value, c ≠ .ufPut key value := by
    rintro key value rfl
    obtain ⟨placed, ended⟩ := put_ends before turn a
    exact goesOn ended placed
  obtain ⟨flag, uf⟩ := kept_of_turn stays before turn made noPut
  refine ⟨joint.flag.trans flag.symm, joint.uf.trans uf.symm, ?_⟩
  intro key
  rw [fa_after (honest_of_succeeding c w a w' made) key, adds_iff, joint.fa, underway_turn_iff turn,
    underway_set_iff turn]
  cases ended : (next a).ended with
  | true =>
      obtain ⟨unlogged, other⟩ := no_article_of_listing before turn (goesOn ended) a key
      simp [unlogged, other]
  | false =>
      simp only [List.mem_append, List.mem_singleton, true_and, eq_comm (a := accepts key)]
      rw [or_assoc, or_right_comm (a := accepts key ∈ log)]

/-- The answers of a placed request, all of them together, are those it is given alone. -/
theorem replays_last (stays : ∀ request ∈ requests, request.1 ≠ .shutdown)
    (before : Run succeeding Undisturbed (serve json requests) w₀ pool w) (joint : Joint pool w t)
    {i : Nat} {c : Call} {next : calls.Answer c → Handler HttpResponse} {log : List (Event calls)}
    {a : calls.Answer c} {w' : World} (turn : pool[i]? = some ⟨.call c next, log⟩)
    (guarded : Undisturbed pool w i c) (made : succeeding c w a w') (placed : Placed requests i) :
    ∃ t', Program.Replays succeeding t (log ++ [⟨c, a⟩]) t' ∧
      t'.feederShutdown = w'.feederShutdown ∧ t'.uf = w'.uf ∧
        ∀ key, key ∈ t'.fa ↔ key ∈ t.fa ∨ accepts key ∈ log ++ [⟨c, a⟩] := by
  have steady (e : Event calls) (inLog : e ∈ log) : Steady t e :=
    (steady_log stays before turn guarded placed e inLog).congr joint.flag joint.uf
  by_cases put : ∃ key value, c = .ufPut key value
  · obtain ⟨key, value, rfl⟩ := put
    obtain ⟨t₁, replays, added⟩ := replays_steady steady
    obtain ⟨rfl, rfl⟩ := Prod.mk.inj made
    refine ⟨t₁.after (.ufPut key value) Status.ok, replays.append (.cons rfl (.nil _)),
      added.flag.trans joint.flag, ?_, ?_⟩
    · show Function.update t₁.uf key (some value) = Function.update w.uf key (some value)
      rw [added.uf, joint.uf]
    · intro k
      rw [List.mem_append, List.mem_singleton, or_iff_left (a := accepts k ∈ log) nofun]
      exact added.fa k
  · have noPut : ∀ key value, c ≠ .ufPut key value := fun key value same => put ⟨key, value, same⟩
    obtain ⟨flag, uf⟩ := kept_of_turn stays before turn made noPut
    have last : Steady w ⟨c, a⟩ := by
      obtain ⟨route, req, requestAt, -, makes⟩ := turn_makes before turn
      obtain ⟨route', req', requestAt', listing⟩ := placed
      have stay := stays _ (List.mem_of_getElem? requestAt)
      rw [requestAt] at requestAt'
      cases requestAt'
      have given : (a, w') = succeed c w := made
      cases c with
      | feederShutdown => exact (Prod.mk.inj given).1
      | ufGet key => exact congrArg Prod.fst given
      | faPut key => exact (Prod.mk.inj given).1
      | ufPut key value => exact absurd rfl (noPut key value)
      | _ => cases route <;> first | exact makes.elim | exact absurd rfl listing | exact absurd rfl stay
    have all : ∀ e ∈ log ++ [⟨c, a⟩], Steady t e := List.forall_mem_append.2
      ⟨steady, fun e own => List.mem_singleton.1 own ▸ last.congr joint.flag joint.uf⟩
    obtain ⟨t', replays, added⟩ := replays_steady all
    exact ⟨t', replays, added.flag.trans (joint.flag.trans flag.symm),
      added.uf.trans (joint.uf.trans uf.symm), added.fa⟩

theorem joint_last (stays : ∀ request ∈ requests, request.1 ≠ .shutdown)
    (before : Run succeeding Undisturbed (serve json requests) w₀ pool w) (joint : Joint pool w t)
    {i : Nat} {c : Call} {next : calls.Answer c → Handler HttpResponse} {log : List (Event calls)}
    {a : calls.Answer c} {w' : World} (turn : pool[i]? = some ⟨.call c next, log⟩)
    (guarded : Undisturbed pool w i c) (made : succeeding c w a w') (placed : Placed requests i)
    {p : Handler HttpResponse} {outcome : Except Fault HttpResponse}
    (program : (handlers json requests)[i]? = some p) (same : next a = .ofExcept outcome) :
    ∃ t', exec succeed p t = (outcome, t') ∧
      Joint (pool.set i ⟨next a, log ++ [⟨c, a⟩]⟩) w' t' := by
  have finished : Program.Finishes p (log ++ [⟨c, a⟩]) outcome := by
    obtain ⟨p', programAt, after⟩ := before.follows.after i _ turn
    obtain rfl := Option.some.inj (program.symm.trans programAt)
    have whole := after.snoc a
    rw [same] at whole
    exact whole
  obtain ⟨t', replays, flag, uf, fa⟩ := replays_last stays before joint turn guarded made placed
  have past : (next a).ended = true := same ▸ Pool.ended_ofExcept outcome
  refine ⟨t', Program.exec_of_finishes finished replays, flag, uf, ?_⟩
  intro key
  rw [fa_after (honest_of_succeeding c w a w' made) key, adds_iff, joint.fa, underway_turn_iff turn,
    underway_set_iff turn, fa]
  simp only [past, Bool.true_eq_false, false_and, false_or, List.mem_append, List.mem_singleton,
    eq_comm (a := accepts key)]
  rw [or_assoc, or_right_comm (a := accepts key ∈ log)]
  simp only [or_assoc]

/-- Every handler makes a call. -/
theorem handlers_begin (json : Json.Parser) (requests : List Request) :
    ∀ p ∈ handlers json requests, p.ended = false := by
  intro p member
  obtain ⟨⟨route, req⟩, -, rfl⟩ := List.mem_map.1 member
  cases route <;> rfl

/-- The placed requests have the outcomes of a serial run, whose world is joint with the run's. -/
theorem serialized_joint (stays : ∀ request ∈ requests, request.1 ≠ .shutdown)
    (history : History succeeding Undisturbed (serve json requests) w₀ turns pool w) :
    ∃ order t, Serialized succeed (handlers json requests) (Placed requests) turns pool w₀ order t ∧
      Joint pool w t :=
  history.serialize (I := Joint) joint_launch (handlers_begin json requests)
    (fun before joint turn _ made goesOn => joint_quiet stays before joint turn made goesOn)
    (fun before joint turn guarded made placed program same =>
      joint_last stays before joint turn guarded made placed program same)

/-- Once nothing is under way, the articles are the same too. -/
theorem Joint.fa_of_ended (joint : Joint pool w t)
    (ended : ∀ thread ∈ pool, thread.program.ended = true) (key : Bytes) :
    key ∈ t.fa ↔ key ∈ w.fa := by
  rw [joint.fa]
  refine (or_iff_left ?_).symm
  rintro ⟨i, thread, found, goesOn, -⟩
  rw [ended thread (List.mem_of_getElem? found)] at goesOn
  cases goesOn

/-- **One after another.** In any run without a shutdown in which every database call succeeds and
every record is put over the one that was read, the requests that have been answered, listings
aside, have the answers of a server that serves each to its end before the next, in the order of
their last calls; so a request that was answered before another began comes before it. The
records are those of that server, and once all have been answered the articles are too. -/
theorem answers_linear (stays : ∀ request ∈ requests, request.1 ≠ .shutdown)
    (history : History succeeding Undisturbed (serve json requests) w₀ turns pool w) :
    ∃ order t, Serialized succeed (handlers json requests) (Placed requests) turns pool w₀ order t ∧
      t.uf = w.uf ∧ ((∀ thread ∈ pool, thread.program.ended = true) →
        ∀ key, key ∈ t.fa ↔ key ∈ w.fa) := by
  obtain ⟨order, t, serialized, joint⟩ := serialized_joint stays history
  exact ⟨order, t, serialized, joint.uf, joint.fa_of_ended⟩

/-- Two subscriptions of one user, and a lookup of that user. -/
def subscribesAndLookup : List Request :=
  [(.subscribe, putJson "\x7b\"user\":\"u\",\"feeds\":\"a\"\x7d"),
    (.subscribe, putJson "\x7b\"user\":\"u\",\"feeds\":\"b\"\x7d"),
    (.user, getPath "/user/" "u")]

theorem answers_linear_in_turn : ∃ (turns : Turns) (pool : Threads) (w : World),
    History succeeding Undisturbed (serve Json.reader subscribesAndLookup) .empty turns pool w ∧
      w.uf (ascii "u") = some (dbText ⟨lit "u", [lit "a", lit "b"]⟩) ∧
        ∃ order t, Serialized succeed (handlers Json.reader subscribesAndLookup)
          (Placed subscribesAndLookup) turns pool .empty order t ∧ t.uf = w.uf ∧
            ((∀ thread ∈ pool, thread.program.ended = true) → ∀ key, key ∈ t.fa ↔ key ∈ w.fa) := by
  obtain ⟨turns, history, -⟩ := Pool.history_play (S := calls) Undisturbed succeed
    succeeding_succeed (serve Json.reader subscribesAndLookup) .empty [0, 2, 1, 0, 0, 1, 2, 1, 2]
  exact ⟨turns, _, _, history, by decide +kernel,
    answers_linear (by simp [subscribesAndLookup]) history⟩

/-! ## Requests that do not overlap -/

/-- The first thread has no turn behind one of the second. -/
def Before (turns : Turns) (i j : Nat) : Prop :=
  ∃ later before, turns = later ++ before ∧ (∀ e, (i, e) ∉ later) ∧ ∀ e, (j, e) ∉ before

def Apart (turns : Turns) (i j : Nat) : Prop := Before turns i j ∨ Before turns j i

/-- The request has put this record. -/
def Puts (turns : Turns) (i : Nat) (key : Bytes) : Prop :=
  ∃ value s, (i, (⟨.ufPut key value, s⟩ : Event calls)) ∈ turns

/-- The request has looked this record up, and then put one. -/
def Edits (turns : Turns) (i : Nat) (key : Bytes) : Prop :=
  (∃ answer, (i, (⟨.ufGet key, answer⟩ : Event calls)) ∈ turns) ∧ ∃ key', Puts turns i key'

/-- No record is put while another request has it under way. -/
def NoOverlap (turns : Turns) : Prop :=
  ∀ i j key, i ≠ j → Edits turns i key → Puts turns j key → Apart turns i j

theorem Before.tail {turns : Turns} {turn : Nat × Event calls} {i j : Nat}
    (comes : Before (turn :: turns) i j) : Before turns i j := by
  obtain ⟨later, before, same, past, open_⟩ := comes
  cases later with
  | nil =>
      refine ⟨[], turns, rfl, fun _ => List.not_mem_nil, ?_⟩
      rw [List.nil_append] at same
      subst same
      exact fun e member => open_ e (List.mem_cons_of_mem _ member)
  | cons first later =>
      rw [List.cons_append] at same
      obtain ⟨rfl, rest⟩ := List.cons.inj same
      exact ⟨later, before, rest, fun e member => past e (List.mem_cons_of_mem _ member), open_⟩

theorem Puts.cons {turns : Turns} {i : Nat} {key : Bytes} (puts : Puts turns i key)
    (turn : Nat × Event calls) : Puts (turn :: turns) i key := by
  obtain ⟨value, s, member⟩ := puts
  exact ⟨value, s, List.mem_cons_of_mem _ member⟩

theorem NoOverlap.tail {turns : Turns} {turn : Nat × Event calls}
    (noOverlap : NoOverlap (turn :: turns)) : NoOverlap turns := by
  rintro i j key other ⟨⟨answer, looked⟩, key', put⟩ puts
  have edits : Edits (turn :: turns) i key :=
    ⟨⟨answer, List.mem_cons_of_mem _ looked⟩, key', put.cons turn⟩
  exact (noOverlap i j key other edits (puts.cons turn)).imp Before.tail Before.tail

/-- Between a lookup and a `Put` of one thread there is no room for another. -/
theorem not_apart {turns later before : Turns} {i j : Nat} {first between last : Event calls}
    (same : turns = later ++ before) (looked : (i, first) ∈ before) (other : (j, between) ∈ later) :
    ¬ Apart ((i, last) :: turns) i j := by
  subst same
  rintro (⟨front, back, split, past, open_⟩ | ⟨front, back, split, past, open_⟩)
  · cases front with
    | nil =>
        rw [List.nil_append] at split
        exact open_ between (split ▸ List.mem_cons_of_mem _ (List.mem_append_left _ other))
    | cons turn front =>
        rw [List.cons_append] at split
        exact past last ((List.cons.inj split).1 ▸ List.mem_cons_self)
  · have whole : (i, last) :: later ++ before = front ++ back := split
    rcases List.append_eq_append_iff.1 whole with ⟨middle, rfl, rfl⟩ | ⟨middle, same, rfl⟩
    · exact past between (List.mem_append_left _ (List.mem_cons_of_mem _ other))
    · exact open_ first (List.mem_append_right _ looked)

/-- What was looked up is still there, or it has been put since. -/
theorem got_since (history : History succeeding guard (serve json requests) w₀ turns pool w)
    {i : Nat} {key : Bytes} {answer : Status × Bytes}
    (looked : (i, (⟨.ufGet key, answer⟩ : Event calls)) ∈ turns) :
    stillHolds w ⟨.ufGet key, answer⟩ = true ∨
      ∃ later before j, turns = later ++ before ∧
        (i, (⟨.ufGet key, answer⟩ : Event calls)) ∈ before ∧ Puts later j key := by
  induction history with
  | start => cases looked
  | @step turns pool w w' j c next log a before turn guarded made ih =>
      obtain ⟨honest, rfl⟩ := honest_of_succeeding c w a w' made
      rcases List.mem_cons.1 looked with own | earlier
      · cases own
        refine .inl ?_
        obtain ⟨_ | text | text, value⟩ := answer
        · exact decide_eq_true honest
        · exact decide_eq_true honest
        · rfl
      · rcases ih earlier with holds | ⟨later, earliest, k, rfl, inside, value, s, puts⟩
        · by_cases put : ∃ value, c = .ufPut key value
          · obtain ⟨value, rfl⟩ := put
            exact .inr ⟨[(j, ⟨.ufPut key value, a⟩)], turns, j, rfl, earlier, value, a,
              List.mem_singleton.2 rfl⟩
          · refine .inl ?_
            have kept : (w.after c a).uf key = w.uf key := by
              cases c with
              | ufPut key' value =>
                  have other : key ≠ key' := fun same => put ⟨value, by rw [same]⟩
                  simp only [World.after]
                  split
                  · exact Function.update_of_ne other _ _
                  · rfl
              | faPut key' => simp only [World.after]; split <;> rfl
              | _ => rfl
            obtain ⟨_ | text | text, value⟩ := answer
            · simpa [stillHolds, kept] using holds
            · simpa [stillHolds, kept] using holds
            · rfl
        · exact .inr ⟨(j, ⟨c, a⟩) :: later, earliest, k, rfl, inside, value, s,
            List.mem_cons_of_mem _ puts⟩

/-- Who has put a record is an update. -/
theorem update_of_puts (history : History succeeding guard (serve json requests) w₀ turns pool w)
    {i : Nat} {key : Bytes} (puts : Puts turns i key) :
    ∃ (update : Update) (req : HttpRequest), requests[i]? = some (update.route, req) := by
  obtain ⟨value, s, member⟩ := puts
  obtain ⟨thread, found⟩ := history.turn_of_mem member
  have inLog := (history.mem_log_iff found _).2 member
  obtain ⟨route, req, requestAt, after⟩ := thread_of_run history.run found
  have makes := ((handle_makes json route req).after after).1 _ inLog
  cases route with
  | subscribe => exact ⟨.subscribe, req, requestAt⟩
  | unsubscribe => exact ⟨.unsubscribe, req, requestAt⟩
  | _ => exact makes.elim

/-- A schedule says who is over before another begins. -/
theorem before_of_sublist {later before : List Nat} {i j : Nat}
    (sublist : (turns.map Prod.fst).Sublist (later ++ before)) (past : i ∉ later)
    (fresh : j ∉ before) : Before turns i j := by
  obtain ⟨_, _, split, left, right⟩ := List.sublist_append_iff.1 sublist
  obtain ⟨front, back, rfl, rfl, rfl⟩ := List.map_eq_append_iff.1 split
  exact ⟨front, back, rfl, fun e member => past (left.subset (List.mem_map.2 ⟨_, member, rfl⟩)),
    fun e member => fresh (right.subset (List.mem_map.2 ⟨_, member, rfl⟩))⟩

/-- **Requests that do not overlap do not disturb each other.** In a run in which every database
call succeeds: when no record is put while another request that will put one has it under way,
whatever the others do meanwhile, every record is put over the one that was read. -/
theorem undisturbed_of_noOverlap (noOverlap : NoOverlap turns)
    (history : History succeeding guard (serve json requests) w₀ turns pool w) :
    History succeeding Undisturbed (serve json requests) w₀ turns pool w := by
  induction history with
  | start => exact .start
  | @step turns pool w w' i c next log a before turn guarded made ih =>
      refine .step (ih noOverlap.tail) turn ?_ made
      cases c with
      | ufPut key value =>
          obtain ⟨request, -, ⟨put⟩⟩ := put_turn before.run turn
          have looked : (i, got put.ufReq.user put.answer) ∈ turns :=
            (before.mem_log_iff turn _).1 (by simp [put.log_eq])
          have holds : stillHolds w (got put.ufReq.user put.answer) = true := by
            rcases got_since before looked with holds | ⟨later, earlier, j, same, inside, puts⟩
            · exact holds
            · -- the other `Put` lies between this request's lookup and its `Put`
              obtain ⟨value', s, other⟩ := puts
              have different : i ≠ j := by
                rintro rfl
                have own := (before.mem_log_iff turn _).2 (same ▸ List.mem_append_left _ other)
                simp only [put.log_eq, List.mem_cons, List.not_mem_nil, or_false] at own
                rcases own with own | own <;> cases own
              have edits : Edits ((i, ⟨.ufPut key value, a⟩) :: turns) i put.ufReq.user.bytes :=
                ⟨⟨put.answer, List.mem_cons_of_mem _ looked⟩, key, value, a, List.mem_cons_self⟩
              have written : Puts ((i, ⟨.ufPut key value, a⟩) :: turns) j put.ufReq.user.bytes :=
                ⟨value', s, List.mem_cons_of_mem _ (same ▸ List.mem_append_left _ other)⟩
              exact absurd (noOverlap i j _ different edits written) (not_apart same inside other)
          simp only [Undisturbed, undisturbed, turn, Option.all_some, put.log_eq, List.all_cons,
            List.all_nil, holds, Bool.and_true]
          rfl
      | _ => rfl

end Runs

/-- Each subscription has a turn of the lookup between its own, and the lookup those of both. -/
theorem undisturbed_between : ∃ (turns : Turns) (pool : Threads) (w : World),
    NoOverlap turns ∧
      History succeeding Pool.anyStep (serve Json.reader subscribesAndLookup) .empty turns pool w ∧
        w.uf (ascii "u") = some (dbText ⟨lit "u", [lit "a", lit "b"]⟩) ∧
          History succeeding Undisturbed (serve Json.reader subscribesAndLookup) .empty turns pool
            w := by
  obtain ⟨turns, history, sublist⟩ := Pool.history_play (S := calls) Pool.anyStep succeed
    succeeding_succeed (serve Json.reader subscribesAndLookup) .empty [0, 2, 0, 0, 1, 2, 1, 1]
  have split : [0, 2, 0, 0, 1, 2, 1, 1].reverse = [1, 1, 2, 1] ++ [0, 0, 2, 0] := rfl
  have first : Before turns 0 1 := before_of_sublist (split ▸ sublist) (by decide) (by decide)
  have puts {i : Nat} {key : Bytes} (puts : Puts turns i key) : i = 0 ∨ i = 1 := by
    obtain ⟨update, req, requestAt⟩ := update_of_puts history puts
    rcases i with _ | _ | _ | i
    · exact .inl rfl
    · exact .inr rfl
    · have lookup : Route.user = update.route := congrArg Prod.fst (Option.some.inj requestAt)
      cases update <;> cases lookup
    · cases requestAt
  have noOverlap : NoOverlap turns := by
    rintro i j key different ⟨-, key', edited⟩ put
    rcases puts edited with rfl | rfl <;> rcases puts put with rfl | rfl
    · exact absurd rfl different
    · exact .inl first
    · exact .inr first
    · exact absurd rfl different
  exact ⟨turns, _, _, noOverlap, history, by decide +kernel,
    undisturbed_of_noOverlap noOverlap history⟩

end Feedserver.Serving
