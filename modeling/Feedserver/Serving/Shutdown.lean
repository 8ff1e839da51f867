/-
# Serving.Shutdown — deleting the databases under the handlers

A handler looks at `feeder_shutdown` once, when it begins; `shutdown_feeder` deletes the
databases when its response is out, and looks at nothing. `LastToLeave` is the wait that
the source has as a TODO: no database is deleted while another thread has begun and not
finished. In a run that keeps to it

* `Open`: nothing is deleted, and no thread is on its way out; or
* `Closing`: one thread is, the flag is up, and every other thread has not begun, has
  finished, or waits to send or to delete in its turn, which it then may not.

`shutdown_safe` follows, and `use_after_delete` is a run without the wait.
-/
import Feedserver.Serving.Requests

namespace Feedserver.Serving

open Feedserver.Theory
open Feedserver.Source
open Feedserver.Records
open Pool (Run)

set_option autoImplicit false

/-! ## Uses of a deleted database -/

/-- The call uses, or deletes, a database that has been deleted. -/
def Misuses (w : World) : Call → Prop
  | .ufGet _ | .ufPut _ _ | .deleteUf => w.ufDeleted = true
  | .faPut _ | .faNewIterator | .itSeek _ | .itNext | .itDelete | .deleteFa => w.faDeleted = true
  | _ => False

/-- The process has not exited: after `exit` there are no steps. -/
def running : Pool.Guard calls Fault HttpResponse World := fun _ w _ _ => w.exited = false

abbrev ServerThread := Thread calls Fault HttpResponse

/-- The thread has not begun, or has finished. -/
def Idle (thread : ServerThread) : Prop := thread.log = [] ∨ thread.program.ended = true

/-- At `delete rocksdb_uf`, every other thread is idle. -/
def LastToLeave (pool : Threads) (i : Nat) (c : Call) : Prop :=
  c = .deleteUf → ∀ other ∈ pool.eraseIdx i, Idle other

def orderly : Pool.Guard calls Fault HttpResponse World :=
  fun pool w i c => w.exited = false ∧ LastToLeave pool i c

/-! ## A shutdown, call by call -/

def flagged : Event calls := ⟨.setFeederShutdown, ()⟩

/-- What is left of a shutdown when its response has been sent. -/
def callback (res : HttpResponse) : Handler HttpResponse := shutdownFeeder >>= fun _ => .done res

/-- How far a shutdown has come. -/
inductive ShutdownStage (req : HttpRequest) : List (Event calls) → Handler HttpResponse → Prop
  | fresh : ShutdownStage req [] (shutdownFeederResponse req)
  | flagged {res : HttpResponse} {log : List (Event calls)} :
      ShutdownStage req (flagged :: log) (.call (S := calls) (.send res) fun _ => callback res)
  | sent {res : HttpResponse} {log : List (Event calls)} :
      ShutdownStage req (Serving.flagged :: log) (callback res)
  | ufDeleted {res : HttpResponse} {log : List (Event calls)} :
      ShutdownStage req (Serving.flagged :: log) (.call (S := calls) .deleteFa fun _ =>
        .call (S := calls) .exit fun _ => .done res)
  | faDeleted {res : HttpResponse} {log : List (Event calls)} :
      ShutdownStage req (Serving.flagged :: log) (.call (S := calls) .exit fun _ => .done res)
  | exited {res : HttpResponse} {log : List (Event calls)} :
      ShutdownStage req (Serving.flagged :: log) (.done res)

/-- One more call takes a shutdown to its next stage. -/
theorem ShutdownStage.step {req : HttpRequest} {log : List (Event calls)} {c : Call}
    {next : calls.Answer c → Handler HttpResponse} (stage : ShutdownStage req log (.call c next))
    (answer : calls.Answer c) :
    ShutdownStage req (log ++ [⟨c, answer⟩]) (next answer) := by
  generalize waits : Program.call (S := calls) c next = q at stage
  cases stage with
  | fresh => cases waits; exact .flagged
  | flagged => cases waits; exact .sent
  | sent => cases waits; exact .ufDeleted
  | ufDeleted => cases waits; exact .faDeleted
  | faDeleted => cases waits; exact .exited
  | exited => cases waits

theorem shutdownStage_of_after {req : HttpRequest} {log : List (Event calls)}
    {q : Handler HttpResponse} (after : Program.After (shutdownFeederResponse req) log q) :
    ShutdownStage req log q := by
  have along {p : Handler HttpResponse} {first log : List (Event calls)}
      {q : Handler HttpResponse} (stage : ShutdownStage req first p)
      (after : Program.After p log q) : ShutdownStage req (first ++ log) q := by
    induction after generalizing first with
    | start p => simpa using stage
    | call rest ih => simpa using ih (stage.step _)
  simpa using along .fresh after

/-! ## First calls -/

/-- Every other handler begins with the check. -/
theorem handle_checks (json : Json.Parser) {route : Route} (other : route ≠ .shutdown)
    (req : HttpRequest) : ∃ rest, handle json route req = shutdownCheck req rest := by
  cases route with
  | subscribe => exact ⟨_, Update.handler_eq json .subscribe req⟩
  | unsubscribe => exact ⟨_, Update.handler_eq json .unsubscribe req⟩
  | submit => exact ⟨_, rfl⟩
  | user => exact ⟨_, rfl⟩
  | userArticles => exact ⟨_, rfl⟩
  | shutdown => exact absurd rfl other

/-- A handler begins with the flag: it reads it, or raises it. -/
theorem handle_begins (json : Json.Parser) (route : Route) (req : HttpRequest) :
    (handle json route req).pending = some .feederShutdown ∨
      (handle json route req).pending = some .setFeederShutdown := by
  by_cases shutdown : route = .shutdown
  · subst shutdown
    exact .inr rfl
  · obtain ⟨rest, checks⟩ := handle_checks json shutdown req
    rw [checks]
    exact .inl rfl

/-! ## Moves -/

/-- The calls of a shutdown after its first. -/
def Leaving : Option Call → Prop
  | some (.send _) | some .deleteUf | some .deleteFa | some .exit => True
  | _ => False

/-- The calls that leave the flag, the databases and the process as they are. -/
def Keeps : Call → Prop
  | .setFeederShutdown | .send _ | .deleteUf | .deleteFa | .exit => False
  | _ => True

/-- What a thread's turn can be, as far as shutting down goes: its log before the turn, the
call, and what is left of it after. -/
inductive Move (w : World) : List (Event calls) → Call → Handler HttpResponse → Prop
  | serve {log : List (Event calls)} {c : Call} {q : Handler HttpResponse} (keeps : Keeps c)
      (stays : ¬ Leaving q.pending)
      (first : log = [] → c = .feederShutdown ∧ (w.feederShutdown = true → q.ended = true)) :
      Move w log c q
  | flag {log : List (Event calls)} {res : HttpResponse} {q : Handler HttpResponse}
      (waits : q.pending = some (.send res)) : Move w log .setFeederShutdown q
  | send {log : List (Event calls)} {res : HttpResponse} {q : Handler HttpResponse}
      (begun : log ≠ []) (waits : q.pending = some .deleteUf) : Move w log (.send res) q
  | deleteUf {log : List (Event calls)} {q : Handler HttpResponse} (begun : log ≠ [])
      (waits : q.pending = some .deleteFa) : Move w log .deleteUf q
  | deleteFa {log : List (Event calls)} {q : Handler HttpResponse} (begun : log ≠ [])
      (waits : q.pending = some .exit) : Move w log .deleteFa q
  | exit {log : List (Event calls)} {q : Handler HttpResponse} (begun : log ≠ [])
      (ended : q.ended = true) : Move w log .exit q

theorem keeps_of_makes {route : Route} (other : route ≠ .shutdown) {c : Call}
    (makes : Makes route c) : Keeps c := by
  cases route with
  | shutdown => exact absurd rfl other
  | _ => cases c <;> first | exact trivial | exact makes.elim

theorem not_leaving_of_uses {q : Handler HttpResponse} {route : Route} (other : route ≠ .shutdown)
    (uses : Program.Uses (S := calls) (Makes route) q) : ¬ Leaving q.pending := by
  cases q with
  | call c next =>
      intro leaving
      have keeps := keeps_of_makes other uses.1
      cases c <;> first | exact keeps | exact leaving
  | done value => exact id
  | fault reason => exact id

theorem move_of_shutdown {req : HttpRequest} {w : World} {log : List (Event calls)} {c : Call}
    {next : calls.Answer c → Handler HttpResponse} (stage : ShutdownStage req log (.call c next))
    (answer : calls.Answer c) : Move w log c (next answer) := by
  generalize waits : Program.call (S := calls) c next = q at stage
  cases stage with
  | fresh => cases waits; exact .flag rfl
  | flagged => cases waits; exact .send (by simp) rfl
  | sent => cases waits; exact .deleteUf (by simp) rfl
  | ufDeleted => cases waits; exact .deleteFa (by simp) rfl
  | faDeleted => cases waits; exact .exit (by simp) rfl
  | exited => cases waits

/-- Every turn in a run is such a move. -/
theorem move_of_turn {json : Json.Parser} {requests : List Request}
    {sem : Program.Semantics calls World} {guard : Pool.Guard calls Fault HttpResponse World}
    {w₀ w : World} {pool : Threads} {i : Nat} {c : Call} {answer : calls.Answer c}
    {next : calls.Answer c → Handler HttpResponse} {log : List (Event calls)}
    (run : Run sem guard (serve json requests) w₀ pool w)
    (turn : pool[i]? = some ⟨.call c next, log⟩) (honest : Honest w c answer) :
    Move w log c (next answer) := by
  obtain ⟨route, req, -, after, makes⟩ := turn_makes run turn
  by_cases shutdown : route = .shutdown
  · subst shutdown
    have stage : ShutdownStage req log (.call c next) := shutdownStage_of_after after
    exact move_of_shutdown stage answer
  · have uses := ((handle_makes json route req).after (after.snoc answer)).2
    refine .serve (keeps_of_makes shutdown makes) (not_leaving_of_uses shutdown uses) ?_
    rintro rfl
    obtain ⟨rest, checks⟩ := handle_checks json shutdown req
    cases (Program.after_nil_iff.1 after).trans checks
    refine ⟨rfl, ?_⟩
    intro up
    have answered : answer = true := honest.trans up
    rw [answered]
    rfl

/-! ## The invariant -/

/-- Waiting to send, or to delete the first database. -/
def Waits (thread : ServerThread) : Prop :=
  (∃ res, thread.program.pending = some (.send res)) ∨ thread.program.pending = some .deleteUf

/-- The flag is up whenever a thread is on its way out. -/
def FlagUp (pool : Threads) (w : World) : Prop :=
  ∀ thread ∈ pool, Leaving thread.program.pending → w.feederShutdown = true

structure Open (pool : Threads) (w : World) : Prop where
  uf : w.ufDeleted = false
  fa : w.faDeleted = false
  early : ∀ thread ∈ pool, thread.program.pending ≠ some .deleteFa

/-- The thread that has deleted the first database. -/
structure Closer (w : World) (thread : ServerThread) : Prop where
  begun : thread.log ≠ []
  phase : (thread.program.pending = some .deleteFa ∧ w.faDeleted = false) ∨
    thread.program.pending = some .exit ∨ w.exited = true

structure Closing (pool : Threads) (w : World) : Prop where
  flag : w.feederShutdown = true
  closer : ∃ (i : Nat) (thread : ServerThread), pool[i]? = some thread ∧ Closer w thread ∧
    ∀ (j : Nat) (other : ServerThread), j ≠ i → pool[j]? = some other → Idle other ∨ Waits other

def Safe (pool : Threads) (w : World) : Prop := FlagUp pool w ∧ (Open pool w ∨ Closing pool w)

theorem flag_after {w : World} {c : Call} (answer : calls.Answer c) (up : w.feederShutdown = true) :
    (w.after c answer).feederShutdown = true := by
  cases c with
  | setFeederShutdown => rfl
  | ufPut key value => simp only [World.after]; split <;> exact up
  | faPut key => simp only [World.after]; split <;> exact up
  | _ => exact up

theorem deleted_after {w : World} {c : Call} (keeps : Keeps c) (answer : calls.Answer c) :
    (w.after c answer).ufDeleted = w.ufDeleted ∧ (w.after c answer).faDeleted = w.faDeleted ∧
      (w.after c answer).exited = w.exited := by
  cases c with
  | ufPut key value => simp only [World.after]; split <;> exact ⟨rfl, rfl, rfl⟩
  | faPut key => simp only [World.after]; split <;> exact ⟨rfl, rfl, rfl⟩
  | setFeederShutdown => exact keeps.elim
  | send res => exact keeps.elim
  | deleteUf => exact keeps.elim
  | deleteFa => exact keeps.elim
  | exit => exact keeps.elim
  | _ => exact ⟨rfl, rfl, rfl⟩

section Step

variable {pool : Threads} {w : World} {i : Nat} {c : Call}
  {next : calls.Answer c → Handler HttpResponse} {log : List (Event calls)}
  {answer : calls.Answer c}

theorem flagUp_step (flagUp : FlagUp pool w) (turn : pool[i]? = some ⟨.call c next, log⟩)
    (move : Move w log c (next answer)) :
    FlagUp (pool.set i ⟨next answer, log ++ [⟨c, answer⟩]⟩) (w.after c answer) := by
  intro thread member leaving
  rcases List.mem_or_eq_of_mem_set member with member | rfl
  · exact flag_after answer (flagUp thread member leaving)
  · have before := flagUp _ (List.mem_of_getElem? turn)
    cases move with
    | serve keeps stays first => exact absurd leaving stays
    | flag waits => rfl
    | send begun waits => exact before trivial
    | deleteUf begun waits => exact before trivial
    | deleteFa begun waits => exact before trivial
    | exit begun ended => rw [Program.pending_of_ended ended] at leaving; exact leaving.elim

/-- The thread that takes the first database away becomes the closer; any other turn leaves
the server open. -/
theorem open_step (flagUp : FlagUp pool w) (isOpen : Open pool w) (last : LastToLeave pool i c)
    (turn : pool[i]? = some ⟨.call c next, log⟩) (move : Move w log c (next answer)) :
    Open (pool.set i ⟨next answer, log ++ [⟨c, answer⟩]⟩) (w.after c answer) ∨
      Closing (pool.set i ⟨next answer, log ++ [⟨c, answer⟩]⟩) (w.after c answer) := by
  have inside := (List.getElem?_eq_some_iff.1 turn).1
  have stillOpen (uf : (w.after c answer).ufDeleted = false)
      (fa : (w.after c answer).faDeleted = false)
      (early : (next answer).pending ≠ some .deleteFa) :
      Open (pool.set i ⟨next answer, log ++ [⟨c, answer⟩]⟩) (w.after c answer) := by
    refine ⟨uf, fa, ?_⟩
    intro thread member
    rcases List.mem_or_eq_of_mem_set member with member | rfl
    · exact isOpen.early thread member
    · exact early
  cases move with
  | serve keeps stays first =>
      obtain ⟨uf, fa, -⟩ := deleted_after keeps answer
      refine .inl (stillOpen (uf.trans isOpen.uf) (fa.trans isOpen.fa) ?_)
      intro late
      exact stays (late ▸ trivial)
  | flag waits => exact .inl (stillOpen isOpen.uf isOpen.fa (by simp [waits]))
  | send begun waits => exact .inl (stillOpen isOpen.uf isOpen.fa (by simp [waits]))
  | deleteUf begun waits =>
      have up := flagUp _ (List.mem_of_getElem? turn) trivial
      refine .inr ⟨up, i, _, List.getElem?_set_self inside, ⟨by simp, ?_⟩, ?_⟩
      · exact .inl ⟨waits, isOpen.fa⟩
      · intro j other ne found
        rw [List.getElem?_set_ne (Ne.symm ne)] at found
        exact .inl (last rfl other (List.mem_eraseIdx_iff_getElem?.2 ⟨j, ne, found⟩))
  | deleteFa begun waits => exact absurd rfl (isOpen.early _ (List.mem_of_getElem? turn))
  | exit begun ended =>
      exact .inl (stillOpen isOpen.uf isOpen.fa (by simp [Program.pending_of_ended ended]))

/-- A closer that has a call to make is not idle. -/
theorem closer_not_idle {thread : ServerThread} (closer : Closer w thread) (live : w.exited = false) :
    ¬ Idle thread := by
  rintro (fresh | ended)
  · exact closer.begun fresh
  · have none := Program.pending_of_ended ended
    rcases closer.phase with ⟨waits, -⟩ | waits | exited
    · simp [waits] at none
    · simp [waits] at none
    · simp [live] at exited

/-- The closer goes on to the second database, and then to the exit. -/
theorem closer_step (closer : Closer w ⟨.call c next, log⟩) (live : w.exited = false)
    (move : Move w log c (next answer)) :
    Closer (w.after c answer) ⟨next answer, log ++ [⟨c, answer⟩]⟩ := by
  refine ⟨by simp, ?_⟩
  rcases closer.phase with ⟨waits, notDeleted⟩ | waits | exited
  · cases waits
    cases move with
    | serve keeps => exact keeps.elim
    | deleteFa begun waits => exact .inr (.inl waits)
  · cases waits
    exact .inr (.inr rfl)
  · simp [live] at exited

/-- With the flag up, a thread that begins now is turned away, or is a shutdown of its own. -/
theorem waits_step (flag : w.feederShutdown = true) (early : c ≠ .deleteUf)
    (before : Idle ⟨.call c next, log⟩ ∨ Waits ⟨.call c next, log⟩)
    (move : Move w log c (next answer)) :
    (Idle ⟨next answer, log ++ [⟨c, answer⟩]⟩ ∨ Waits ⟨next answer, log ++ [⟨c, answer⟩]⟩) ∧
      (w.after c answer).faDeleted = w.faDeleted ∧ (w.after c answer).exited = w.exited := by
  rcases before with (fresh | ended) | ⟨res, waiting⟩ | waiting
  · cases move with
    | serve keeps stays first =>
        obtain ⟨-, fa, exited⟩ := deleted_after keeps answer
        exact ⟨.inl (.inr ((first fresh).2 flag)), fa, exited⟩
    | flag waits => exact ⟨.inr (.inl ⟨_, waits⟩), rfl, rfl⟩
    | send begun => exact absurd fresh begun
    | deleteUf begun => exact absurd fresh begun
    | deleteFa begun => exact absurd fresh begun
    | exit begun => exact absurd fresh begun
  · cases ended
  · cases waiting
    cases move with
    | serve keeps => exact keeps.elim
    | send begun waits => exact ⟨.inr (.inr waits), rfl, rfl⟩
  · exact absurd (Option.some.inj waiting) early

/-- Only the closer goes on to delete. -/
theorem closing_step (closing : Closing pool w) (live : w.exited = false)
    (last : LastToLeave pool i c) (turn : pool[i]? = some ⟨.call c next, log⟩)
    (move : Move w log c (next answer)) :
    Closing (pool.set i ⟨next answer, log ++ [⟨c, answer⟩]⟩) (w.after c answer) := by
  have inside := (List.getElem?_eq_some_iff.1 turn).1
  obtain ⟨flag, k, thread, found, closer, others⟩ := closing
  refine ⟨flag_after answer flag, k, ?_⟩
  by_cases own : i = k
  · subst own
    cases Option.some.inj (turn.symm.trans found)
    refine ⟨_, List.getElem?_set_self inside, closer_step closer live move, ?_⟩
    intro j other ne at_j
    rw [List.getElem?_set_ne (Ne.symm ne)] at at_j
    exact others j other ne at_j
  · have early : c ≠ .deleteUf := by
      intro deletes
      have idle := last deletes thread (List.mem_eraseIdx_iff_getElem?.2 ⟨k, Ne.symm own, found⟩)
      exact closer_not_idle closer live idle
    obtain ⟨stepped, fa, exited⟩ := waits_step flag early (others i _ own turn) move
    refine ⟨thread, by rw [List.getElem?_set_ne own]; exact found, ⟨closer.begun, ?_⟩, ?_⟩
    · rw [fa, exited]
      exact closer.phase
    · intro j other ne at_j
      rcases Pool.getElem?_set_cases at_j with ⟨rfl, rfl, -⟩ | ⟨-, at_j⟩
      · exact stepped
      · exact others j other ne at_j

theorem safe_step (safe : Safe pool w) (live : w.exited = false) (last : LastToLeave pool i c)
    (turn : pool[i]? = some ⟨.call c next, log⟩) (move : Move w log c (next answer)) :
    Safe (pool.set i ⟨next answer, log ++ [⟨c, answer⟩]⟩) (w.after c answer) := by
  obtain ⟨flagUp, isOpen | closing⟩ := safe
  · exact ⟨flagUp_step flagUp turn move, open_step flagUp isOpen last turn move⟩
  · exact ⟨flagUp_step flagUp turn move, .inr (closing_step closing live last turn move)⟩

end Step

theorem safe_serve {json : Json.Parser} {requests : List Request} {w₀ : World}
    (uf : w₀.ufDeleted = false) (fa : w₀.faDeleted = false) : Safe (serve json requests) w₀ := by
  have notLeaving (thread : ServerThread) (member : thread ∈ serve json requests) :
      ¬ Leaving thread.program.pending := by
    simp only [serve, Pool.launch, handlers, List.map_map, List.mem_map] at member
    obtain ⟨⟨route, req⟩, -, rfl⟩ := member
    by_cases shutdown : route = .shutdown
    · subst shutdown
      exact id
    · exact not_leaving_of_uses shutdown (handle_makes json route req)
  refine ⟨fun thread member leaving => absurd leaving (notLeaving thread member), .inl ⟨uf, fa, ?_⟩⟩
  intro thread member late
  exact notLeaving thread member (late ▸ trivial)

theorem safe_run {json : Json.Parser} {requests : List Request} {w₀ w : World} {pool : Threads}
    (uf : w₀.ufDeleted = false) (fa : w₀.faDeleted = false)
    (run : Run honestCall orderly (serve json requests) w₀ pool w) : Safe pool w := by
  induction run with
  | start => exact safe_serve uf fa
  | step before turn guarded made ih =>
      obtain ⟨live, last⟩ := guarded
      obtain ⟨honest, rfl⟩ := made
      exact safe_step ih live last turn (move_of_turn before turn honest)

/-- **A shutdown that waits is safe.** Whatever the order of turns, as long as no thread takes
the first database away while another is in progress, no call uses or deletes a database
that has been deleted. -/
theorem shutdown_safe {json : Json.Parser} {requests : List Request} {w₀ w : World}
    {pool : Threads} {i : Nat} {c : Call} (uf : w₀.ufDeleted = false) (fa : w₀.faDeleted = false)
    (run : Run honestCall orderly (serve json requests) w₀ pool w)
    (waits : Pool.pendingAt pool i = some c) (guarded : orderly pool w i c) : ¬ Misuses w c := by
  obtain ⟨thread, found, waits⟩ := Pool.thread_of_pendingAt waits
  obtain ⟨live, last⟩ := guarded
  obtain ⟨-, isOpen | closing⟩ := safe_run uf fa run
  · have notUf := isOpen.uf
    have notFa := isOpen.fa
    cases c <;> simp [Misuses, notUf, notFa]
  · obtain ⟨-, k, closer, foundCloser, isCloser, others⟩ := closing
    by_cases own : i = k
    · subst own
      cases Option.some.inj (found.symm.trans foundCloser)
      rcases isCloser.phase with ⟨deletes, notDeleted⟩ | exits | exited
      · cases waits.symm.trans deletes
        simp [Misuses, notDeleted]
      · cases waits.symm.trans exits
        exact id
      · simp [live] at exited
    · rcases others i thread own found with (fresh | ended) | ⟨res, sends⟩ | deletes
      · obtain ⟨route, req, -, after⟩ := thread_of_run run found
        rw [fresh] at after
        have first := handle_begins json route req
        rw [← Program.after_nil_iff.1 after, waits] at first
        rcases first with same | same <;> cases same <;> exact id
      · cases waits.symm.trans (Program.pending_of_ended ended)
      · cases waits.symm.trans sends
        exact id
      · cases waits.symm.trans deletes
        have idle := last rfl closer
          (List.mem_eraseIdx_iff_getElem?.2 ⟨k, Ne.symm own, foundCloser⟩)
        exact absurd idle (closer_not_idle isCloser live)

instance (thread : ServerThread) : Decidable (Idle thread) :=
  inferInstanceAs (Decidable (_ ∨ _))

instance (pool : Threads) (i : Nat) (c : Call) : Decidable (LastToLeave pool i c) :=
  inferInstanceAs (Decidable (c = .deleteUf → ∀ other ∈ pool.eraseIdx i, Idle other))

instance (pool : Threads) (w : World) (i : Nat) (c : Call) : Decidable (orderly pool w i c) :=
  inferInstanceAs (Decidable (_ ∧ _))

instance (pool : Threads) (w : World) (i : Nat) (c : Call) : Decidable (running pool w i c) :=
  inferInstanceAs (Decidable (w.exited = false))

/-- A lookup and a shutdown. -/
def lookupAndShutdown : List Request :=
  [(.user, getPath "/user/" "u"), (.shutdown, getPath "/shutdown" "")]

/-- The lookup finishes first, and the databases go one after the other. -/
theorem shutdown_safe_after_lookup : ∃ (pool : Threads) (w : World),
    Run honestCall orderly (serve Json.reader lookupAndShutdown) .empty pool w ∧
      Pool.pendingAt pool 1 = some .deleteFa ∧ w.ufDeleted = true ∧ ¬ Misuses w .deleteFa := by
  have run := Pool.run_play (S := calls) orderly succeed honest_succeed
    (serve Json.reader lookupAndShutdown) .empty [0, 0, 1, 1, 1]
  have waits : Pool.pendingAt (Pool.play orderly succeed [0, 0, 1, 1, 1]
      (serve Json.reader lookupAndShutdown, World.empty)).1 1 = some .deleteFa := by
    decide +kernel
  exact ⟨_, _, run, waits, by decide +kernel,
    shutdown_safe rfl rfl run waits (by decide +kernel)⟩

/-- Without the wait: the lookup has passed its check when the databases go. -/
theorem use_after_delete : ¬ ∀ (requests : List Request) (pool : Threads) (w : World) (i : Nat)
    (c : Call), Run honestCall running (serve Json.reader requests) .empty pool w →
      Pool.pendingAt pool i = some c → running pool w i c → ¬ Misuses w c := by
  intro all
  have run := Pool.run_play (S := calls) running succeed honest_succeed
    (serve Json.reader lookupAndShutdown) .empty [0, 1, 1, 1]
  have waits : Pool.pendingAt (Pool.play running succeed [0, 1, 1, 1]
      (serve Json.reader lookupAndShutdown, World.empty)).1 0 = some (.ufGet (ascii "u")) := by
    decide +kernel
  exact all _ _ _ 0 _ run waits (by decide +kernel) (by unfold Misuses; decide +kernel)

end Feedserver.Serving
