/-
# Serving.Runs — the server as a pool of handlers

`serve` starts one thread for each request; `Pool.Run` lets them make their calls in any
order, which is what the worker threads of the server may do.

* `Makes`, `handle_makes`: which calls each route's handler can come to.
* `put_turn`: a thread about to put a user record is an update that has looked its user
  up, and the record is what it decided on the answer.
* `run_records`: what every put record has, given that every record looked up had it, all
  records have in every run; `run_articles`: the same of the keys of articles.
-/
import Feedserver.Records.Stored
import Feedserver.Articles.Keys
import Feedserver.Theory.Pool

namespace Feedserver.Serving

open Feedserver.Theory
open Feedserver.Source
open Feedserver.Records
open Pool (Run)

set_option autoImplicit false

/-- A request and the route it came in on. -/
abbrev Request := Route × HttpRequest

def handlers (json : Json.Parser) (requests : List Request) : List (Handler HttpResponse) :=
  requests.map fun request => handle json request.1 request.2

abbrev Threads := List (Thread calls Fault HttpResponse)

/-- One thread for each request, none of which has begun. -/
def serve (json : Json.Parser) (requests : List Request) : Threads :=
  Pool.launch (handlers json requests)

theorem log_of_serve {json : Json.Parser} {requests : List Request}
    {thread : Thread calls Fault HttpResponse} (member : thread ∈ serve json requests) :
    thread.log = [] := by
  simp only [serve, Pool.launch, List.mem_map] at member
  obtain ⟨p, -, rfl⟩ := member
  rfl

/-! ## The calls of a route -/

def Makes : Route → Call → Prop
  | .subscribe, .feederShutdown | .subscribe, .ufGet _ | .subscribe, .ufPut _ _ => True
  | .unsubscribe, .feederShutdown | .unsubscribe, .ufGet _ | .unsubscribe, .ufPut _ _ => True
  | .submit, .feederShutdown | .submit, .faPut _ => True
  | .user, .feederShutdown | .user, .ufGet _ => True
  | .userArticles, .feederShutdown | .userArticles, .ufGet _ | .userArticles, .faNewIterator
  | .userArticles, .itSeek _ | .userArticles, .itNext | .userArticles, .itDelete => True
  | .shutdown, .setFeederShutdown | .shutdown, .send _ | .shutdown, .deleteUf
  | .shutdown, .deleteFa | .shutdown, .exit => True
  | _, _ => False

theorem uses_shutdownCheck {allowed : Call → Prop} {req : HttpRequest} {rest : Handler HttpResponse}
    (check : allowed .feederShutdown) (uses : Program.Uses (S := calls) allowed rest) :
    Program.Uses (S := calls) allowed (shutdownCheck req rest) := by
  refine ⟨check, ?_⟩
  intro shutdown
  cases shutdown with
  | true => trivial
  | false => exact uses

theorem uses_perform {allowed : Call → Prop} (put : ∀ key value, allowed (.ufPut key value))
    (req : HttpRequest) (d : Decision) : Program.Uses (S := calls) allowed (d.perform req) := by
  cases d with
  | put uf => rw [Decision.perform, putUser_eq]; exact ⟨put _ _, fun _ => trivial⟩
  | refuse code msg => trivial
  | fault reason => trivial

theorem update_makes (json : Json.Parser) (update : Update) (req : HttpRequest) :
    Program.Uses (S := calls) (Makes update.route) (update.handler json req) := by
  have put (key value : Bytes) : Makes update.route (.ufPut key value) := by
    cases update <;> trivial
  have get (key : Bytes) : Makes update.route (.ufGet key) := by cases update <;> trivial
  rw [Update.handler_eq]
  apply uses_shutdownCheck (by cases update <;> trivial)
  unfold Update.body
  split
  · exact uses_perform put req _
  · exact ⟨get _, fun answer => uses_perform put req _⟩

theorem submit_makes (json : Json.Parser) (req : HttpRequest) :
    Program.Uses (S := calls) (Makes .submit) (submitArticles json req) := by
  apply (Articles.submitArticles_uses json req).mono
  rintro c (rfl | ⟨key, rfl, -⟩) <;> trivial

theorem lookup_makes {route : Route} {req : HttpRequest} {found : Bytes → Handler HttpResponse}
    (check : Makes route .feederShutdown) (get : ∀ key, Makes route (.ufGet key))
    (rest : ∀ dbVal, Program.Uses (S := calls) (Makes route) (found dbVal)) :
    Program.Uses (S := calls) (Makes route) (lookupUser req found) := by
  apply uses_shutdownCheck check
  split
  · trivial
  · split
    · trivial
    · trivial
    · split
      · trivial
      · refine ⟨get _, ?_⟩
        intro answer
        obtain ⟨_ | text | text, dbVal⟩ := answer
        · show Program.Uses (S := calls) (Makes route) (if dbVal.length ≤ 0 then _ else _)
          split
          · trivial
          · exact rest dbVal
        · trivial
        · trivial

theorem scanFeed_makes (feed : CString) (keys : List Bytes) (vec : VcVector UInt8) :
    Program.Uses (S := calls) (Makes .userArticles) (scanFeed feed keys vec) := by
  induction keys generalizing vec with
  | nil => trivial
  | cons key rest ih =>
      unfold scanFeed
      split
      · split
        · trivial
        · exact ⟨trivial, fun _ => ih _⟩
      · trivial

theorem scanFeeds_makes (keys : List Bytes) (feeds : List CString) (vec : VcVector UInt8) :
    Program.Uses (S := calls) (Makes .userArticles) (scanFeeds keys feeds vec) := by
  induction feeds generalizing vec with
  | nil => trivial
  | cons feed rest ih =>
      exact ⟨trivial, fun _ => (scanFeed_makes feed _ vec).bind fun vec => ih vec⟩

theorem listArticles_makes (json : Json.Parser) (req : HttpRequest) (dbVal : Bytes) :
    Program.Uses (S := calls) (Makes .userArticles) (listArticles json req dbVal) := by
  unfold listArticles
  split
  · trivial
  · trivial
  · refine ⟨trivial, ?_⟩
    intro keys
    exact (scanFeeds_makes keys _ _).bind fun _ => ⟨trivial, fun _ => trivial⟩

/-- A handler comes to no call but those of its route. -/
theorem handle_makes (json : Json.Parser) (route : Route) (req : HttpRequest) :
    Program.Uses (S := calls) (Makes route) (handle json route req) := by
  cases route with
  | subscribe => exact update_makes json .subscribe req
  | unsubscribe => exact update_makes json .unsubscribe req
  | submit => exact submit_makes json req
  | user => exact lookup_makes trivial (fun _ => trivial) fun _ => trivial
  | userArticles => exact lookup_makes trivial (fun _ => trivial) (listArticles_makes json req)
  | shutdown =>
      exact ⟨trivial, fun _ => ⟨trivial, fun _ => ⟨trivial, fun _ => ⟨trivial, fun _ =>
        ⟨trivial, fun _ => trivial⟩⟩⟩⟩⟩

/-! ## Whose turn it is -/

section Turns

variable {json : Json.Parser} {requests : List Request} {sem : Program.Semantics calls World}
  {guard : Pool.Guard calls Fault HttpResponse World} {w₀ w : World} {pool : Threads}

/-- Every thread is the handler of its request, after the calls in its log. -/
theorem thread_of_run (run : Run sem guard (serve json requests) w₀ pool w) {i : Nat}
    {thread : Thread calls Fault HttpResponse} (found : pool[i]? = some thread) :
    ∃ route req, requests[i]? = some (route, req) ∧
      Program.After (handle json route req) thread.log thread.program := by
  obtain ⟨p, programAt, after⟩ := run.follows.after i thread found
  simp only [handlers, List.getElem?_map, Option.map_eq_some_iff, Prod.exists] at programAt
  obtain ⟨route, req, requestAt, rfl⟩ := programAt
  exact ⟨route, req, requestAt, after⟩

/-- The call a thread waits for is one of its route's. -/
theorem turn_makes (run : Run sem guard (serve json requests) w₀ pool w) {i : Nat} {c : Call}
    {next : calls.Answer c → Handler HttpResponse} {log : List (Event calls)}
    (turn : pool[i]? = some ⟨.call c next, log⟩) :
    ∃ route req, requests[i]? = some (route, req) ∧
      Program.After (handle json route req) log (.call c next) ∧ Makes route c := by
  obtain ⟨route, req, requestAt, after⟩ := thread_of_run run turn
  exact ⟨route, req, requestAt, after, ((handle_makes json route req).after after).2.1⟩

/-- What stands behind a record about to be put. -/
structure PutTurn (json : Json.Parser) (request : Request) (log : List (Event calls))
    (key value : Bytes) (next : Status → Handler HttpResponse) where
  update : Update
  route : request.1 = update.route
  ufReq : UfPair
  answer : Status × Bytes
  uf : UfPair
  accepted : accept json request.2 = .ok ufReq
  log_eq : log = [checked false, got ufReq.user answer]
  decision : update.decide json ufReq answer = .put uf
  key_eq : key = uf.user.bytes
  value_eq : value = dbText uf
  next_eq : next = fun s => .done (putResponse request.2 uf s)

theorem put_turn (run : Run sem guard (serve json requests) w₀ pool w) {i : Nat}
    {key value : Bytes} {next : Status → Handler HttpResponse} {log : List (Event calls)}
    (turn : pool[i]? = some ⟨.call (S := calls) (.ufPut key value) next, log⟩) :
    ∃ request, requests[i]? = some request ∧
      Nonempty (PutTurn json request log key value next) := by
  obtain ⟨route, req, requestAt, after, makes⟩ := turn_makes run turn
  have update : ∃ update : Update, route = update.route := by
    cases route with
    | subscribe => exact ⟨.subscribe, rfl⟩
    | unsubscribe => exact ⟨.unsubscribe, rfl⟩
    | _ => exact makes.elim
  obtain ⟨update, rfl⟩ := update
  obtain ⟨ufReq, answer, uf, accepted, log_eq, decision, key_eq, value_eq, next_eq⟩ :=
    (stage_of_after after).put
  exact ⟨_, requestAt, ⟨update, rfl, ufReq, answer, uf, accepted, log_eq, decision, key_eq,
    value_eq, next_eq⟩⟩

/-! ## What all records have in common -/

/-- A value that was looked up and found has the property. -/
def Looked (Good : Bytes → Bytes → Prop) (e : Event calls) : Prop :=
  ∀ key value, e = ⟨.ufGet key, (Status.ok, value)⟩ → Good key value

theorem looked_of_other {Good : Bytes → Bytes → Prop} {e : Event calls}
    (other : ∀ key, e.call ≠ .ufGet key) : Looked Good e := by
  intro key value same
  subst same
  exact absurd rfl (other key)

/-- **An invariant of records.** If every update puts only good records whenever the record
it was given was good, all records are good in every run from a world of good ones, in
whatever order the handlers take their turns. -/
theorem run_records {Good : Bytes → Bytes → Prop}
    (keeps : ∀ {update : Update} {req : HttpRequest} {ufReq uf : UfPair} {answer : Status × Bytes},
      (update.route, req) ∈ requests → accept json req = .ok ufReq →
        (∀ value, answer = (.ok, value) → Good ufReq.user.bytes value) →
          update.decide json ufReq answer = .put uf → Good uf.user.bytes (dbText uf))
    (init : ∀ key value, w₀.uf key = some value → Good key value)
    (run : Run honestCall guard (serve json requests) w₀ pool w) :
    (∀ key value, w.uf key = some value → Good key value) ∧
      ∀ thread ∈ pool, ∀ e ∈ thread.log, Looked Good e := by
  refine run.logged (J := fun w => ∀ key value, w.uf key = some value → Good key value) init ?_ ?_
  · intro pool w w' i c next log answer looked good before turn guarded made
    obtain ⟨honest, rfl⟩ := made
    cases c with
    | ufPut key value =>
        obtain ⟨request, requestAt, ⟨put⟩⟩ := put_turn before turn
        refine ⟨fun k v found => ?_, looked_of_other (by simp)⟩
        simp only [World.after] at found
        split at found
        · by_cases own : k = key
          · subst own
            have stored : v = dbText put.uf := by
              simpa [put.value_eq] using found.symm
            rw [put.key_eq, stored]
            refine keeps (put.route ▸ List.mem_of_getElem? requestAt) put.accepted ?_ put.decision
            intro value same
            refine looked _ (List.mem_of_getElem? turn) (got put.ufReq.user put.answer) ?_ _ _ ?_
            · simp [put.log_eq]
            · rw [same]; rfl
          · exact good k v (by simpa [own] using found)
        · exact good k v found
    | ufGet key =>
        refine ⟨good, ?_⟩
        intro k v same
        cases same
        exact good _ _ honest
    | faPut key =>
        refine ⟨fun k v found => good k v ?_, looked_of_other (by simp)⟩
        simp only [World.after] at found
        split at found <;> exact found
    | _ => exact ⟨good, looked_of_other (by simp)⟩
  · exact fun thread member => log_of_serve member

/-- **An invariant of articles.** What every key has that some submission can put, all keys
have in every run. -/
theorem run_articles {Good : Bytes → Prop}
    (puts : ∀ req key, (.submit, req) ∈ requests → Articles.SubmitsKey json req key → Good key)
    (init : ∀ key ∈ w₀.fa, Good key) (run : Run honestCall guard (serve json requests) w₀ pool w) :
    ∀ key ∈ w.fa, Good key := by
  induction run with
  | start => exact init
  | @step pool w w' i c next log answer before turn guarded made ih =>
      obtain ⟨-, rfl⟩ := made
      intro key member
      cases c with
      | faPut k =>
          obtain ⟨route, req, requestAt, after, makes⟩ := turn_makes before turn
          obtain rfl : route = .submit := by cases route <;> first | rfl | exact makes.elim
          obtain ⟨allowed, -⟩ := ((Articles.submitArticles_uses json req).after after).2
          simp only [World.after] at member
          split at member
          · rcases OrderedKeys.mem_insert.1 member with rfl | old
            · rcases allowed with impossible | ⟨k', same, submits⟩
              · cases impossible
              · cases same
                exact puts req _ (List.mem_of_getElem? requestAt) submits
            · exact ih key old
          · exact ih key member
      | ufPut k value =>
          simp only [World.after] at member
          split at member <;> exact ih key member
      | _ => exact ih key member

end Turns

end Feedserver.Serving
