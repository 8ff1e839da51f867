/-
# Serving.Moments — what a listing answers while other requests go on

A lookup or a listing reads the flag, the record and the articles in three turns, and other
requests may take theirs in between. Every database call succeeds.

* `read_moments`: the answer is the one the handler gives alone in a world put together from
  three moments of its own time, in their order.
* `listing_in_flight`: the rows are those of one set of articles. It has every article
  reported accepted before the request began, and none that was not put before it ended.
-/
import Feedserver.Serving.Linear
import Feedserver.Serving.Listings

namespace Feedserver.Serving

open Feedserver.Theory
open Feedserver.Source
open Feedserver.Records
open Feedserver.Articles
open Pool (Run History)
open Program (exec)

set_option autoImplicit false

/-! ## The turns of a reading request -/

/-- The moves of an iterator, which read nothing. -/
def Moves (c : Call) : Prop := (∃ feed, c = .itSeek feed) ∨ c = .itNext ∨ c = .itDelete

/-- How far a request that only reads has read: the flag, the record, the articles. -/
inductive ReadLog : List (Event calls) → Prop
  | flag (shutdown : Bool) : ReadLog [checked shutdown]
  | record (shutdown : Bool) (user : CString) (answer : Status × Bytes) :
      ReadLog [checked shutdown, got user answer]
  | articles (shutdown : Bool) (user : CString) (answer : Status × Bytes) (keys : List Bytes)
      (rest : List (Event calls)) (moves : ∀ e ∈ rest, Moves e.call) :
      ReadLog (checked shutdown :: got user answer :: ⟨.faNewIterator, keys⟩ :: rest)

theorem scanFeed_moves (feed : CString) (keys : List Bytes) (vec : VcVector UInt8) :
    Program.Uses (S := calls) Moves (scanFeed feed keys vec) := by
  induction keys generalizing vec with
  | nil => trivial
  | cons key rest ih =>
      unfold scanFeed
      split
      · split
        · trivial
        · exact ⟨.inr (.inl rfl), fun _ => ih _⟩
      · trivial

theorem scanFeeds_moves (keys : List Bytes) (feeds : List CString) (vec : VcVector UInt8) :
    Program.Uses (S := calls) Moves (scanFeeds keys feeds vec) := by
  induction feeds generalizing vec with
  | nil => trivial
  | cons feed rest ih =>
      exact ⟨.inl ⟨feed.bytes, rfl⟩, fun _ => (scanFeed_moves feed _ vec).bind ih⟩

theorem readLog_listArticles {json : Json.Parser} {req : HttpRequest} {dbVal : Bytes}
    {log : List (Event calls)} {outcome : Except Fault HttpResponse}
    (finished : Program.Finishes (listArticles json req dbVal) log outcome) :
    log = [] ∨ ∃ keys rest, log = ⟨.faNewIterator, keys⟩ :: rest ∧ ∀ e ∈ rest, Moves e.call := by
  unfold listArticles at finished
  split at finished
  · exact .inl (Program.finishes_fault_iff.1 finished).1
  · exact .inl (Program.finishes_done_iff.1 finished).1
  · obtain ⟨keys, rest, rfl, scans⟩ := Program.finishes_call_iff.1 finished
    refine .inr ⟨keys, rest, rfl, ?_⟩
    refine (Program.Uses.after ?_ scans).1
    exact (scanFeeds_moves keys _ _).bind fun _ => ⟨.inr (.inr rfl), fun _ => trivial⟩

theorem readLog_lookupUser {req : HttpRequest} {found : Bytes → Handler HttpResponse}
    {log : List (Event calls)} {outcome : Except Fault HttpResponse}
    (later : ∀ dbVal log, Program.Finishes (found dbVal) log outcome → log = [] ∨
      ∃ keys rest, log = ⟨.faNewIterator, keys⟩ :: rest ∧ ∀ e ∈ rest, Moves e.call)
    (finished : Program.Finishes (lookupUser req found) log outcome) : ReadLog log := by
  unfold lookupUser shutdownCheck at finished
  obtain ⟨shutdown, rest, rfl, ends⟩ := Program.finishes_call_iff.1 finished
  clear finished
  have stop (nil : rest = []) : ReadLog (⟨.feederShutdown, shutdown⟩ :: rest) :=
    nil ▸ .flag shutdown
  split at ends
  · exact stop (Program.finishes_done_iff.1 ends).1
  · split at ends
    · exact stop (Program.finishes_done_iff.1 ends).1
    · split at ends
      · exact stop (Program.finishes_fault_iff.1 ends).1
      · exact stop (Program.finishes_done_iff.1 ends).1
      · rename_i user _
        split at ends
        · exact stop (Program.finishes_done_iff.1 ends).1
        · obtain ⟨answer, rest, rfl, answered⟩ := Program.finishes_call_iff.1 ends
          have looked : rest = [] ∨ ∃ keys rest', rest = ⟨.faNewIterator, keys⟩ :: rest' ∧
              ∀ e ∈ rest', Moves e.call := by
            obtain ⟨_ | text | text, dbVal⟩ := answer
            · have looked : Program.Finishes (if dbVal.length ≤ 0 then
                  .done (decline .status500 Status.ok.toCStr req) else found dbVal) rest outcome :=
                answered
              split at looked
              · exact .inl (Program.finishes_done_iff.1 looked).1
              · exact later dbVal rest looked
            · exact .inl (Program.finishes_done_iff.1 answered).1
            · exact .inl (Program.finishes_done_iff.1 answered).1
          rcases looked with rfl | ⟨keys, rest', rfl, moves⟩
          · exact .record shutdown user answer
          · exact .articles shutdown user answer keys rest' moves

theorem readLog_of_finished {json : Json.Parser} {route : Route} {req : HttpRequest}
    {log : List (Event calls)} {outcome : Except Fault HttpResponse}
    (reads : route = .user ∨ route = .userArticles)
    (finished : Program.Finishes (handle json route req) log outcome) : ReadLog log := by
  rcases reads with rfl | rfl
  · exact readLog_lookupUser (fun _ _ ends => .inl (Program.finishes_done_iff.1 ends).1) finished
  · exact readLog_lookupUser (fun _ _ ends => readLog_listArticles ends) finished

/-! ## Moments -/

/-- The world that a turn of the request was taken in, and the turns before that one. -/
def Moment (guard : Pool.Guard calls Fault HttpResponse World) (json : Json.Parser)
    (requests : List Request) (w₀ : World) (turns : Turns) (i : Nat) (before : Turns)
    (w : World) : Prop :=
  (∃ e later, turns = later ++ (i, e) :: before) ∧
    ∃ pool, History succeeding guard (serve json requests) w₀ before pool w

/-- Three moments of one request, one after the other. -/
structure InTurn (guard : Pool.Guard calls Fault HttpResponse World) (json : Json.Parser)
    (requests : List Request) (w₀ : World) (turns : Turns) (i : Nat) (b₁ b₂ b₃ : Turns)
    (w₁ w₂ w₃ : World) : Prop where
  flag : Moment guard json requests w₀ turns i b₁ w₁
  record : Moment guard json requests w₀ turns i b₂ w₂
  articles : Moment guard json requests w₀ turns i b₃ w₃
  flagFirst : b₁ <:+ b₂
  recordFirst : b₂ <:+ b₃

/-- The flag of one world, the records of another, the rest of a third. -/
def World.pieced (w₁ w₂ w₃ : World) : World :=
  { w₃ with feederShutdown := w₁.feederShutdown, uf := w₂.uf }

/-- Reads that a world gives as they are recorded, one after another. -/
theorem replays_of_given {t : World} {log : List (Event calls)}
    (given : ∀ e ∈ log, succeeding e.call t e.answer t) :
    Program.Replays succeeding t log t := by
  induction log with
  | nil => exact .nil t
  | cons e rest ih =>
      obtain ⟨first, later⟩ := List.forall_mem_cons.1 given
      exact .cons first (ih later)

theorem given_checked {t : World} {shutdown : Bool} (same : shutdown = t.feederShutdown) :
    succeeding .feederShutdown t shutdown t := by
  rw [same]
  rfl

theorem given_got {t w w' : World} {key : Bytes} {answer : Status × Bytes} (same : t.uf = w.uf)
    (made : succeeding (.ufGet key) w answer w') : succeeding (.ufGet key) t answer t := by
  have given : (answer, w') = succeed (.ufGet key) w := made
  show (answer, t) = succeed (.ufGet key) t
  simp only [succeed, same] at given ⊢
  cases found : w.uf key with
  | some value =>
      rw [found] at given
      exact Prod.ext (Prod.mk.inj given).1 rfl
  | none =>
      rw [found] at given
      exact Prod.ext (Prod.mk.inj given).1 rfl

theorem given_moves {t : World} {e : Event calls} (moves : Moves e.call) :
    succeeding e.call t e.answer t := by
  obtain ⟨c, a⟩ := e
  rcases moves with ⟨feed, same⟩ | same | same
  all_goals
    obtain rfl : c = _ := same
    rfl

section Runs

variable {json : Json.Parser} {requests : List Request} {w₀ w : World} {pool : Threads}
  {turns before : Turns} {guard : Pool.Guard calls Fault HttpResponse World} {i : Nat}
  {b₁ b₂ b₃ : Turns} {w₁ w₂ w₃ : World}

theorem Moment.later (moment : Moment guard json requests w₀ before i b₁ w₁)
    (suffix : before <:+ turns) : Moment guard json requests w₀ turns i b₁ w₁ := by
  obtain ⟨⟨e, later, rfl⟩, reached⟩ := moment
  obtain ⟨front, rfl⟩ := suffix
  exact ⟨⟨e, front ++ later, (List.append_assoc _ _ _).symm⟩, reached⟩

theorem Moment.suffix (moment : Moment guard json requests w₀ turns i b₁ w₁) : b₁ <:+ turns := by
  obtain ⟨⟨e, later, rfl⟩, -⟩ := moment
  exact ⟨later ++ [(i, e)], by simp⟩

/-- A turn in the log of a thread was taken at some moment. -/
theorem moment_of_log (history : History succeeding guard (serve json requests) w₀ turns pool w)
    {thread : Thread calls Fault HttpResponse} {rest : List (Event calls)} {e : Event calls}
    (found : pool[i]? = some thread) (front : List (Event calls))
    (placed : thread.log = front ++ e :: rest) :
    ∃ before pool' w' next w'', Moment guard json requests w₀ turns i before w' ∧
      History succeeding guard (serve json requests) w₀ before pool' w' ∧
        pool'[i]? = some ⟨.call e.call next, front⟩ ∧ succeeding e.call w' e.answer w'' := by
  obtain ⟨later, before, pool', w', next, w'', rfl, reached, turn, made⟩ :=
    history.moment found placed
  exact ⟨before, pool', w', next, w'', ⟨⟨e, later, rfl⟩, pool', reached⟩, reached, turn, made⟩

/-- The moments of a request that only reads, and the world its reads are of. -/
theorem replays_moments (history : History succeeding guard (serve json requests) w₀ turns pool w)
    {log : List (Event calls)} {program : Handler HttpResponse}
    (found : pool[i]? = some ⟨program, log⟩) (read : ReadLog log) :
    ∃ b₁ b₂ b₃ w₁ w₂ w₃, InTurn guard json requests w₀ turns i b₁ b₂ b₃ w₁ w₂ w₃ ∧
      Program.Replays succeeding (World.pieced w₁ w₂ w₃) log (World.pieced w₁ w₂ w₃) := by
  cases read with
  | flag shutdown =>
      obtain ⟨b, _, w', _, _, moment, -, -, made⟩ := moment_of_log history found [] rfl
      refine ⟨b, b, b, w', w', w', ⟨moment, moment, moment, List.suffix_rfl, List.suffix_rfl⟩,
        replays_of_given ?_⟩
      exact List.forall_mem_cons.2 ⟨given_checked (Prod.mk.inj made).1, nofun⟩
  | record shutdown user answer =>
      obtain ⟨b₂, pool₂, w₂, _, _, second, history₂, turn₂, looked⟩ :=
        moment_of_log history found [checked shutdown] rfl
      obtain ⟨b₁, _, w₁, _, _, first, -, -, made⟩ := moment_of_log history₂ turn₂ [] rfl
      refine ⟨b₁, b₂, b₂, w₁, w₂, w₂, ⟨first.later second.suffix, second, second, first.suffix,
        List.suffix_rfl⟩, replays_of_given ?_⟩
      exact List.forall_mem_cons.2 ⟨given_checked (Prod.mk.inj made).1,
        List.forall_mem_cons.2 ⟨given_got (w := w₂) rfl looked, nofun⟩⟩
  | articles shutdown user answer keys rest moves =>
      obtain ⟨b₃, pool₃, w₃, _, _, third, history₃, turn₃, snapshot⟩ :=
        moment_of_log history found [checked shutdown, got user answer] rfl
      obtain ⟨b₂, pool₂, w₂, _, _, second, history₂, turn₂, looked⟩ :=
        moment_of_log history₃ turn₃ [checked shutdown] rfl
      obtain ⟨b₁, _, w₁, _, _, first, -, -, made⟩ := moment_of_log history₂ turn₂ [] rfl
      refine ⟨b₁, b₂, b₃, w₁, w₂, w₃, ⟨(first.later second.suffix).later third.suffix,
        second.later third.suffix, third, first.suffix, second.suffix⟩, replays_of_given ?_⟩
      have snapshotOf : keys = w₃.fa.keys := (Prod.mk.inj snapshot).1
      have taken : succeeding .faNewIterator (World.pieced w₁ w₂ w₃) keys
          (World.pieced w₁ w₂ w₃) := by
        rw [snapshotOf]
        rfl
      exact List.forall_mem_cons.2 ⟨given_checked (Prod.mk.inj made).1,
        List.forall_mem_cons.2 ⟨given_got (w := w₂) rfl looked,
          List.forall_mem_cons.2 ⟨taken, fun e member => given_moves (moves e member)⟩⟩⟩

/-- A thread that has come to its end ran its request's handler. -/
theorem finished_of_run (run : Run succeeding guard (serve json requests) w₀ pool w) {route : Route}
    {req : HttpRequest} (request : requests[i]? = some (route, req))
    {outcome : Except Fault HttpResponse} {log : List (Event calls)}
    (found : pool[i]? = some ⟨.ofExcept outcome, log⟩) :
    Program.Finishes (handle json route req) log outcome := by
  obtain ⟨route', req', request', after⟩ := thread_of_run run found
  rw [request] at request'
  cases request'
  exact after

/-- **A read is of three moments.** In any run in which every database call succeeds, whatever the
others do meanwhile, a lookup or a listing is answered what its handler answers alone in one
world: its flag, its records and its articles are those of three moments of the request's own
time, in this order. -/
theorem read_moments (history : History succeeding guard (serve json requests) w₀ turns pool w)
    {route : Route} {req : HttpRequest} (reads : route = .user ∨ route = .userArticles)
    (request : requests[i]? = some (route, req)) {outcome : Except Fault HttpResponse}
    {log : List (Event calls)} (found : pool[i]? = some ⟨.ofExcept outcome, log⟩) :
    ∃ b₁ b₂ b₃ w₁ w₂ w₃, InTurn guard json requests w₀ turns i b₁ b₂ b₃ w₁ w₂ w₃ ∧
      exec succeed (handle json route req) (World.pieced w₁ w₂ w₃) =
        (outcome, World.pieced w₁ w₂ w₃) := by
  have finished := finished_of_run history.run request found
  obtain ⟨b₁, b₂, b₃, w₁, w₂, w₃, inTurn, replays⟩ :=
    replays_moments history found (readLog_of_finished reads finished)
  exact ⟨b₁, b₂, b₃, w₁, w₂, w₃, inTurn, Program.exec_of_finishes finished replays⟩

/-! ## The articles of a listing -/

/-- Some request has submitted the content to the feed, and has put it in one of these turns. -/
def Taken (json : Json.Parser) (requests : List Request) (turns : Turns) (feed : CString)
    (content : Bytes) : Prop :=
  ∃ j req contents, requests[j]? = some (.submit, req) ∧ Submits json req feed contents ∧
    content ∈ contents ∧ (j, accepts (articleKey feed (cstr content)).bytes) ∈ turns

theorem Taken.later {feed : CString} {content : Bytes} (taken : Taken json requests before feed content)
    (suffix : before <:+ turns) : Taken json requests turns feed content := by
  obtain ⟨j, req, contents, request, submits, inside, put⟩ := taken
  exact ⟨j, req, contents, request, submits, inside, suffix.mem put⟩

/-- What is in the article database has been submitted and put. -/
theorem mem_fa_iff_taken
    (history : History succeeding guard (serve json requests) .empty turns pool w) (key : Bytes) :
    key ∈ w.fa ↔ ∃ feed content, Taken json requests turns feed content ∧
      key = (articleKey feed (cstr content)).bytes := by
  have run := history.run.mono honest_of_succeeding
  have added := run.accumulates (fun w k => k ∈ w.fa) Adds (fun _ _ _ _ => fa_after) key
  rw [added]
  simp only [World.empty, OrderedKeys.not_mem_empty, false_or, adds_iff]
  constructor
  · rintro ⟨thread, member, e, inLog, rfl⟩
    obtain ⟨j, found⟩ := List.mem_iff_getElem?.1 member
    obtain ⟨route, req, requestAt, after⟩ := thread_of_run run found
    have makes : Makes route (.faPut key) := ((handle_makes json route req).after after).1 _ inLog
    obtain rfl : route = .submit := by cases route <;> first | rfl | exact makes.elim
    rcases ((submitArticles_uses json req).after after).1 _ inLog with impossible | ⟨key', same, submits⟩
    · cases impossible
    · cases same
      obtain ⟨feed, contents, content, submits, inside, rfl⟩ := submits
      exact ⟨feed, content, ⟨j, req, contents, requestAt, submits, inside,
        (history.mem_log_iff found _).1 inLog⟩, rfl⟩
  · rintro ⟨feed, content, ⟨j, req, contents, request, submits, inside, put⟩, rfl⟩
    obtain ⟨thread, found⟩ := history.turn_of_mem put
    exact ⟨thread, List.mem_of_getElem? found, _, (history.mem_log_iff found _).2 put, rfl⟩

/-- What a finished request reports accepted has been put. -/
theorem taken_of_accepted
    (history : History succeeding guard (serve json requests) w₀ turns pool w) {feed : CString}
    {content : Bytes} (took : Accepted json requests pool feed content) :
    Taken json requests turns feed content := by
  obtain ⟨j, k, req, res, log, contents, flags, requestAt, found, submits, reports, at_k, flag⟩ :=
    took
  have finished : Program.Finishes (submitArticles json req) log (.ok res) :=
    finished_of_run history.run requestAt found
  rcases finished_submission finished (puts_ok history.run _ (List.mem_of_getElem? found)) with
    ⟨-, declined⟩ | ⟨feed', contents', res', submits', answered, reports', puts⟩
  · exact absurd reports.1 (declined res rfl)
  · cases answered
    obtain ⟨rfl, rfl⟩ := submits.unique submits'
    obtain rfl := reports_inj reports reports'
    rw [List.getElem?_map, at_k, Option.map_some] at flag
    refine ⟨j, req, contents, requestAt, submits, List.mem_of_getElem? at_k, ?_⟩
    exact (history.mem_log_iff found _).1
      ((puts _).2 ⟨content, List.mem_of_getElem? at_k, Option.some.inj flag, rfl⟩)

/-- Turns before the request's first are before each of its moments. -/
theorem Moment.begun (moment : Moment guard json requests w₀ turns i b₁ w₁)
    (suffix : before <:+ turns) (unbegun : ∀ e, (i, e) ∉ before) : before <:+ b₁ := by
  obtain ⟨⟨e, later, rfl⟩, -⟩ := moment
  obtain ⟨front, same⟩ := suffix
  rcases List.append_eq_append_iff.1 same with ⟨middle, rfl, rfl⟩ | ⟨middle, rfl, split⟩
  · exact absurd (by simp) (unbegun e)
  · cases middle with
    | nil =>
        rw [List.nil_append] at split
        exact absurd (split ▸ List.mem_cons_self) (unbegun e)
    | cons turn middle =>
        rw [List.cons_append] at split
        exact ⟨middle, (List.cons.inj split).2.symm⟩

theorem exec_lookup_stopped {req : HttpRequest} {lookedUp : Bytes → Handler HttpResponse}
    (down : w.feederShutdown = true) : exec succeed (lookupUser req lookedUp) w =
      (.ok (decline .status503 (lit "Shutting down!") req), w) := by
  unfold lookupUser shutdownCheck
  show exec (S := calls) (F := Fault) succeed (if w.feederShutdown = true then
    .done (decline .status503 (lit "Shutting down!") req) else _) w = _
  rw [if_pos down]
  rfl

/-- The articles put by some moment are what a listing then would be of. -/
theorem keeps_of_moment
    (contents : ∀ req contents, (.submit, req) ∈ requests →
      submitted json req.body = some contents → [] ∉ contents)
    (history : History succeeding guard (serve json requests) .empty turns pool w) :
    KeepsAccepted w.fa (Taken json requests turns) where
  mem_iff := mem_fa_iff_taken history
  valid := fun ⟨_, _, _, _, submits, _⟩ => submits.valid
  nonempty := by
    rintro feed content ⟨j, req, all, request, submits, inside, -⟩ rfl
    exact contents req all (List.mem_of_getElem? request) submits.contents inside

/-- **A listing in flight.** In any run from the empty databases in which every database call
succeeds, with valid names and no empty content, while any other requests are served beside it: a
listing that has been answered found the server shutting down, or the user unknown, or it lists
the articles put by one moment of its own time to the feeds the user had at an earlier one,
exactly when these are `Unambiguous`. Whatever was reported accepted before the request began is
among them. -/
theorem listing_in_flight (names : ∀ request ∈ requests, ValidPayload json request)
    (contents : ∀ req contents, (.submit, req) ∈ requests →
      submitted json req.body = some contents → [] ∉ contents)
    (history : History succeeding guard (serve json requests) .empty turns pool w)
    {req : HttpRequest} {user : CString} (request : requests[i]? = some (.userArticles, req))
    (get : req.method = .get) (locates : Locates req user) (valid : ValidName user)
    {outcome : Except Fault HttpResponse} {log : List (Event calls)}
    (found : pool[i]? = some ⟨.ofExcept outcome, log⟩) :
    ∃ b₁ b₂ b₃ w₁ w₂ w₃, InTurn guard json requests .empty turns i b₁ b₂ b₃ w₁ w₂ w₃ ∧
      (∀ before pool' w' feed content, before <:+ turns → (∀ e, (i, e) ∉ before) →
        History succeeding guard (serve json requests) .empty before pool' w' →
          Accepted json requests pool' feed content → Taken json requests b₃ feed content) ∧
      ((w₁.feederShutdown = true ∧
          outcome = .ok (decline .status503 (lit "Shutting down!") req)) ∨
        (w₂.uf user.bytes = none ∧
          outcome = .ok (decline .status404 (lit "User not found!") req)) ∨
        ∃ value p, w₂.uf user.bytes = some value ∧
          ufPairFromDbvalue json value = .ok (some p) ∧ p.user = user ∧
            (Lists (Taken json requests b₃) p.feeds req outcome ↔
              Unambiguous (Taken json requests b₃) p.feeds)) := by
  have finished := finished_of_run history.run request found
  obtain ⟨b₁, b₂, b₃, w₁, w₂, w₃, inTurn, replays⟩ :=
    replays_moments history found (readLog_of_finished (.inr rfl) finished)
  have answered : exec succeed (getArticles json req) (World.pieced w₁ w₂ w₃) =
      (outcome, World.pieced w₁ w₂ w₃) := Program.exec_of_finishes finished replays
  refine ⟨b₁, b₂, b₃, w₁, w₂, w₃, inTurn, ?_, ?_⟩
  · intro before pool' w' feed content suffix unbegun earlier took
    exact (taken_of_accepted earlier took).later (inTurn.articles.begun suffix unbegun)
  cases flag : w₁.feederShutdown with
  | true =>
      refine .inl ⟨rfl, ?_⟩
      have down : (World.pieced w₁ w₂ w₃).feederShutdown = true := flag
      rw [getArticles, exec_lookup_stopped down] at answered
      exact (Prod.mk.inj answered).1.symm
  | false =>
      refine .inr ?_
      have up : (World.pieced w₁ w₂ w₃).feederShutdown = false := flag
      cases record : w₂.uf user.bytes with
      | none =>
          refine .inl ⟨rfl, ?_⟩
          rw [getArticles, exec_lookup_unknown get locates valid up record] at answered
          exact (Prod.mk.inj answered).1.symm
      | some value =>
          obtain ⟨-, pool₂, history₂⟩ := inTurn.record
          obtain ⟨-, pool₃, history₃⟩ := inTurn.articles
          have stored := stored_of_valid names (history₂.run.mono honest_of_succeeding)
          obtain ⟨user', feeds, key, rfl, isUser, areFeeds⟩ := stored _ _ record
          obtain rfl : user = user' := CString.ext key
          have read :=
            Stored.read json (fun _ => ValidName.plain) (fun _ => ValidName.plain) isUser areFeeds
          have keeps := keeps_of_moment contents history₃
          have lists : Lists _ _ req _ ↔ _ :=
            lists_iff (w := World.pieced w₁ w₂ w₃) keeps areFeeds feeds.nodup read
          rw [getArticles, exec_lookup_found get locates valid up record (dbText_ne_nil _)] at answered
          rw [answered] at lists
          exact .inr ⟨_, _, rfl, read, rfl, lists⟩

end Runs

/-- A subscription, a submission, and a listing of the subscribed user's articles. -/
def listingBeside : List Request := [plainSubscribe, plainSubmission, (.userArticles, askArticles)]

/-- The listing begins before the submission and ends after it. -/
def listingTurns : List Nat := [0, 0, 0, 2, 1, 2, 1, 2, 2, 2, 2, 2]

theorem played_listingBeside : ∃ turns pool w outcome log,
    History succeeding Pool.anyStep (serve Json.reader listingBeside) .empty turns pool w ∧
      pool[2]? = some ⟨.ofExcept outcome, log⟩ ∧ ascii "a/x" ∈ w.fa.keys := by
  obtain ⟨turns, history, -⟩ := Pool.history_play (S := calls) Pool.anyStep succeed
    succeeding_succeed (serve Json.reader listingBeside) .empty listingTurns
  have past : ((played listingBeside listingTurns).1[2]?.map fun thread => thread.program.ended) =
      some true := by decide +kernel
  have put : ascii "a/x" ∈ (played listingBeside listingTurns).2.fa.keys := by decide +kernel
  obtain ⟨⟨program, log⟩, found, ended⟩ := Option.map_eq_some_iff.1 past
  obtain ⟨outcome, same⟩ := Program.outcome_of_ended ended
  rw [show program = .ofExcept outcome from same] at found
  exact ⟨turns, (played listingBeside listingTurns).1, (played listingBeside listingTurns).2, outcome,
    log, history, found, put⟩

theorem read_moments_beside : ∃ turns pool w outcome log,
    History succeeding Pool.anyStep (serve Json.reader listingBeside) .empty turns pool w ∧
      pool[2]? = some ⟨.ofExcept outcome, log⟩ ∧
        ∃ b₁ b₂ b₃ w₁ w₂ w₃,
          InTurn Pool.anyStep Json.reader listingBeside .empty turns 2 b₁ b₂ b₃ w₁ w₂ w₃ ∧
            exec succeed (handle Json.reader .userArticles askArticles) (World.pieced w₁ w₂ w₃) =
              (outcome, World.pieced w₁ w₂ w₃) := by
  obtain ⟨turns, pool, w, outcome, log, history, found, -⟩ := played_listingBeside
  exact ⟨turns, pool, w, outcome, log, history, found, read_moments history (.inr rfl) rfl found⟩

theorem listing_in_flight_beside : ∃ turns pool w outcome log,
    History succeeding Pool.anyStep (serve Json.reader listingBeside) .empty turns pool w ∧
      pool[2]? = some ⟨.ofExcept outcome, log⟩ ∧
        ∃ b₁ b₂ b₃ w₁ w₂ w₃,
          InTurn Pool.anyStep Json.reader listingBeside .empty turns 2 b₁ b₂ b₃ w₁ w₂ w₃ ∧
          (∀ before pool' w' feed content, before <:+ turns → (∀ e, (2, e) ∉ before) →
            History succeeding Pool.anyStep (serve Json.reader listingBeside) .empty before pool' w' →
              Accepted Json.reader listingBeside pool' feed content →
                Taken Json.reader listingBeside b₃ feed content) ∧
          ((w₁.feederShutdown = true ∧
              outcome = .ok (decline .status503 (lit "Shutting down!") askArticles)) ∨
            (w₂.uf (lit "u").bytes = none ∧
              outcome = .ok (decline .status404 (lit "User not found!") askArticles)) ∨
            ∃ value p, w₂.uf (lit "u").bytes = some value ∧
              ufPairFromDbvalue Json.reader value = .ok (some p) ∧ p.user = lit "u" ∧
                (Lists (Taken Json.reader listingBeside b₃) p.feeds askArticles outcome ↔
                  Unambiguous (Taken Json.reader listingBeside b₃) p.feeds)) := by
  obtain ⟨turns, pool, w, outcome, log, history, found, -⟩ := played_listingBeside
  have names : ∀ request ∈ listingBeside, ValidPayload Json.reader request := by
    intro request member
    simp only [listingBeside, List.mem_cons, List.not_mem_nil, or_false] at member
    rcases member with rfl | rfl | rfl
    · exact validPayload_plainSubscribe
    · exact nofun
    · exact nofun
  have contents : ∀ req contents, (.submit, req) ∈ listingBeside →
      submitted Json.reader req.body = some contents → [] ∉ contents := by
    intro req contents member read
    obtain rfl : req = plainSubmission.2 := by
      simpa [listingBeside, plainSubscribe, plainSubmission] using member
    obtain rfl := Option.some.inj (submits_plainSubmission.contents.symm.trans read)
    decide
  exact ⟨turns, pool, w, outcome, log, history, found, listing_in_flight names contents history rfl rfl
    locates_askArticles (by decide) found⟩

end Feedserver.Serving
