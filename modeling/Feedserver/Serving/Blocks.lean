/-
# Serving.Blocks — the server with its pairs in blocks, and the records it comes by

`serveOnBlocks` starts the handlers that fault where they leave a block (`Records.Blocks`). A run
of these is a run of `serve` in which some threads are cut short (`whole_run`).

* `ArisesFrom`: the records that some of the updates can bring about, one after the other.
* `arisen_of_run`: in every run every record has arisen, from updates that have been put by then.
* `run_of_arises`: and each record that can arise does so in some run, in which the other threads
  have not begun.
-/
import Feedserver.Records.Blocks
import Feedserver.Serving.Names
import Feedserver.Serving.Updates

namespace Feedserver.Serving

open Feedserver.Theory
open Feedserver.Source
open Feedserver.Records
open Pool (Run)

set_option autoImplicit false

/-! ## Handlers -/

def handleOnBlocks (json : Json.Parser) : Route → HttpRequest → Handler HttpResponse
  | .subscribe, req => Update.subscribe.handlerOnBlock json req
  | .unsubscribe, req => Update.unsubscribe.handlerOnBlock json req
  | route, req => handle json route req

/-- One thread for each request, none of which has begun. -/
def serveOnBlocks (json : Json.Parser) (requests : List Request) : Threads :=
  Pool.launch (requests.map fun request => handleOnBlocks json request.1 request.2)

theorem handleOnBlocks_update (json : Json.Parser) (update : Update) (req : HttpRequest) :
    handleOnBlocks json update.route req = update.handlerOnBlock json req := by
  cases update <;> rfl

/-- The other handlers delete no feed. -/
theorem handleOnBlocks_other {route : Route} (other : ∀ update : Update, route ≠ update.route)
    (json : Json.Parser) (req : HttpRequest) :
    handleOnBlocks json route req = handle json route req := by
  cases route with
  | subscribe => exact absurd rfl (other .subscribe)
  | unsubscribe => exact absurd rfl (other .unsubscribe)
  | _ => rfl

theorem cut_handle (json : Json.Parser) (route : Route) (req : HttpRequest) :
    (handleOnBlocks json route req).Cuts (handle json route req) := by
  cases route with
  | subscribe => exact Update.cut_handler json .subscribe req
  | unsubscribe => exact Update.cut_handler json .unsubscribe req
  | _ => exact .refl _

section Runs

variable {json : Json.Parser} {requests : List Request} {w : World} {pool : Threads}

theorem serveOnBlocks_at {i : Nat} {request : Request} (requestAt : requests[i]? = some request) :
    (serveOnBlocks json requests)[i]? = some ⟨handleOnBlocks json request.1 request.2, []⟩ := by
  simp [serveOnBlocks, Pool.launch, requestAt]

theorem whole_run (run : Run honestCall Pool.anyStep (serveOnBlocks json requests) .empty pool w) :
    ∃ whole, Run honestCall Pool.anyStep (serve json requests) .empty whole w ∧
      Pool.CutShort pool whole := by
  refine Run.whole (fun i thread found => ?_) run
  simp only [serveOnBlocks, Pool.launch, List.map_map, List.getElem?_map,
    Option.map_eq_some_iff] at found
  obtain ⟨⟨route, req⟩, requestAt, rfl⟩ := found
  refine ⟨handle json route req, ?_, cut_handle json route req⟩
  simp [serve, Pool.launch, handlers, requestAt]

theorem thread_on_blocks
    (run : Run honestCall Pool.anyStep (serveOnBlocks json requests) .empty pool w) {i : Nat}
    {thread : Thread calls Fault HttpResponse} (found : pool[i]? = some thread) :
    ∃ route req, requests[i]? = some (route, req) ∧
      Program.After (handleOnBlocks json route req) thread.log thread.program := by
  obtain ⟨p, programAt, after⟩ := run.follows.after i thread found
  simp only [List.getElem?_map, Option.map_eq_some_iff, Prod.exists] at programAt
  obtain ⟨route, req, requestAt, rfl⟩ := programAt
  exact ⟨route, req, requestAt, after⟩

/-- A thread about to put has decided so on what it has looked up, and has left no block. -/
theorem put_on_blocks
    (run : Run honestCall Pool.anyStep (serveOnBlocks json requests) .empty pool w) {i : Nat}
    {key value : Bytes} {next : Status → Handler HttpResponse} {log : List (Event calls)}
    (turn : pool[i]? = some ⟨.call (S := calls) (.ufPut key value) next, log⟩) :
    ∃ (update : Update) (req : HttpRequest) (ufReq uf : UfPair) (answer : Status × Bytes),
      requests[i]? = some (update.route, req) ∧ accept json req = .ok ufReq ∧
        log = [checked false, got ufReq.user answer] ∧
          update.decideOnBlock json ufReq answer = .put uf ∧
            key = uf.user.bytes ∧ value = dbText uf := by
  obtain ⟨whole, wholeRun, short⟩ := whole_run run
  obtain ⟨_, there, next', rfl, -⟩ := short i _ turn
  obtain ⟨⟨_, req⟩, requestAt, ⟨update, route, ufReq, answer, -, accepted, logged, -⟩⟩ :=
    put_turn wholeRun there
  obtain rfl : _ = update.route := route
  obtain rfl : log = _ := logged
  obtain ⟨_, _, requestAt', after⟩ := thread_on_blocks run turn
  cases requestAt.symm.trans requestAt'
  rw [handleOnBlocks_update] at after
  have waits := after.unique (Update.after_lookup update accepted answer)
  obtain ⟨uf, decision, keyed, valued, -⟩ := put_of_perform waits.symm
  exact ⟨update, req, ufReq, uf, answer, requestAt, accepted, rfl, decision, keyed, valued⟩

end Runs

/-! ## Records that arise -/

section ArisesFrom

variable (json : Json.Parser) (requests : List Request)

/-- The record that a subscribe makes, or that an update makes of one that has arisen without
it; the updates that have had a part are listed. -/
inductive ArisesFrom : List Nat → UfPair → Prop
  | first {i : Nat} {req : HttpRequest} {uf : UfPair}
      (requestAt : requests[i]? = some (.subscribe, req)) (accepted : accept json req = .ok uf) :
      ArisesFrom [i] uf
  | next {order : List Nat} {i : Nat} {update : Update} {req : HttpRequest}
      {ufReq ufDb uf : UfPair} (before : ArisesFrom order ufDb) (fresh : i ∉ order)
      (requestAt : requests[i]? = some (update.route, req)) (accepted : accept json req = .ok ufReq)
      (own : ufReq.user = ufDb.user) (inside : ¬ update.Overreads ufReq ufDb)
      (decision : update.decideStored ufReq ufDb = .put uf) : ArisesFrom (order ++ [i]) uf

end ArisesFrom

section Valid

variable {json : Json.Parser} {requests : List Request} {order : List Nat} {uf : UfPair}

/-- With valid names, what arises has valid names and no duplicates, -/
theorem ArisesFrom.fit (valid : ∀ request ∈ requests, ValidPayload json request)
    (arises : ArisesFrom json requests order uf) : Fit ValidName ValidName uf ∧ uf.feeds.Nodup := by
  induction arises with
  | first requestAt accepted =>
      have brought := valid _ (List.mem_of_getElem? requestAt) rfl
      exact ⟨fit_of_accept accepted brought, nodup_of_accept accepted⟩
  | next before fresh requestAt accepted own inside decision ih =>
      exact ih.1.edited ih.2 (fit_of_valid valid (List.mem_of_getElem? requestAt) accepted) decision

/-- and is read back as it is. -/
theorem ArisesFrom.read (valid : ∀ request ∈ requests, ValidPayload json request)
    (arises : ArisesFrom json requests order uf) :
    ufPairFromDbvalue json (dbText uf) = .ok (some uf) := by
  obtain ⟨⟨isUser, areFeeds⟩, unique⟩ := arises.fit valid
  exact fromDbvalue_dbText json (ValidName.plain isUser)
    (fun f member => ValidName.plain (areFeeds f member)) unique

theorem ArisesFrom.leaves_iff (valid : ∀ request ∈ requests, ValidPayload json request)
    (arises : ArisesFrom json requests order uf) (update : Update) (ufReq : UfPair) :
    update.leaves json ufReq (.ok, dbText uf) = true ↔ update.Overreads ufReq uf :=
  Update.leaves_iff (arises.fit valid).2 (arises.read valid)

end Valid

/-! ## Every record has arisen -/

/-- The thread has made its `Put`. -/
def HasPut (pool : Threads) (i : Nat) : Prop :=
  ∃ thread, pool[i]? = some thread ∧
    ∃ (key value : Bytes) (s : Status), ⟨.ufPut key value, s⟩ ∈ thread.log

/-- A record that has arisen from updates that have been put. -/
def Arisen (json : Json.Parser) (requests : List Request) (pool : Threads) (key value : Bytes) :
    Prop :=
  ∃ order uf, ArisesFrom json requests order uf ∧ key = uf.user.bytes ∧ value = dbText uf ∧
    ∀ j ∈ order, HasPut pool j

section Step

variable {json : Json.Parser} {requests : List Request} {w w' : World} {pool : Threads} {i : Nat}
  {c : Call} {next : calls.Answer c → Handler HttpResponse} {log : List (Event calls)}
  {answer : calls.Answer c}

/-- A turn undoes no `Put`. -/
theorem HasPut.turn (turn : pool[i]? = some ⟨.call c next, log⟩) {j : Nat} (put : HasPut pool j) :
    HasPut (pool.set i ⟨next answer, log ++ [⟨c, answer⟩]⟩) j := by
  obtain ⟨thread, found, key, value, s, logged⟩ := put
  by_cases own : j = i
  · subst own
    cases turn.symm.trans found
    exact ⟨_, List.getElem?_set_self (List.getElem?_eq_some_iff.1 turn).1, key, value, s,
      List.mem_append_left _ logged⟩
  · exact ⟨thread, by rwa [List.getElem?_set_ne (Ne.symm own)], key, value, s, logged⟩

theorem Arisen.turn (turn : pool[i]? = some ⟨.call c next, log⟩) {key value : Bytes}
    (arisen : Arisen json requests pool key value) :
    Arisen json requests (pool.set i ⟨next answer, log ++ [⟨c, answer⟩]⟩) key value := by
  obtain ⟨order, uf, arises, keyed, valued, puts⟩ := arisen
  exact ⟨order, uf, arises, keyed, valued, fun j member => (puts j member).turn turn⟩

/-- A thread that has looked up its record has put none. -/
theorem not_hasPut {p : Handler HttpResponse} {ufReq : UfPair} {found : Status × Bytes}
    (turn : pool[i]? = some ⟨p, [checked false, got ufReq.user found]⟩) : ¬ HasPut pool i := by
  rintro ⟨thread, there, key, value, s, logged⟩
  cases turn.symm.trans there
  rcases List.mem_cons.1 logged with impossible | logged
  · cases impossible
  · cases List.mem_singleton.1 logged

/-- What a thread puts has arisen, if what it has looked up had. -/
theorem arisen_put (valid : ∀ request ∈ requests, ValidPayload json request)
    (run : Run honestCall Pool.anyStep (serveOnBlocks json requests) .empty pool w)
    (looked : ∀ thread ∈ pool, ∀ e ∈ thread.log, Looked (Arisen json requests pool) e)
    {key value : Bytes} {next : Status → Handler HttpResponse} {s : Status}
    (turn : pool[i]? = some ⟨.call (S := calls) (.ufPut key value) next, log⟩) :
    Arisen json requests (pool.set i ⟨next s, log ++ [⟨.ufPut key value, s⟩]⟩) key value := by
  obtain ⟨update, req, ufReq, uf, answer, requestAt, accepted, rfl, decision, rfl, rfl⟩ :=
    put_on_blocks run turn
  have inPool := (List.getElem?_eq_some_iff.1 turn).1
  have own : HasPut (pool.set i ⟨next s,
      [checked false, got ufReq.user answer] ++ [⟨.ufPut uf.user.bytes (dbText uf), s⟩]⟩) i :=
    ⟨_, List.getElem?_set_self inPool, _, _, s, List.mem_append_right _ List.mem_cons_self⟩
  obtain ⟨inside, decision⟩ := Update.decideOnBlock_put decision
  rcases Update.put_cases decision with ⟨rfl, -, rfl⟩ | ⟨ufDb, ok, read, edited⟩
  · refine ⟨[i], uf, .first requestAt accepted, rfl, rfl, ?_⟩
    rintro j member
    rwa [List.mem_singleton.1 member]
  · obtain ⟨status, dbVal⟩ := answer
    obtain rfl : status = .ok := ok
    obtain ⟨order, ufDb', arises, same, rfl, puts⟩ :=
      looked _ (List.mem_of_getElem? turn) (got ufReq.user (.ok, dbVal)) (by simp) _ _ rfl
    rw [arises.read valid] at read
    cases read
    -- the others in the order have put already, and this thread has not
    have fresh : i ∉ order := fun member => not_hasPut turn (puts i member)
    rw [arises.leaves_iff valid] at inside
    refine ⟨order ++ [i], uf, .next arises fresh requestAt accepted (CString.ext same) inside
      edited, rfl, rfl, ?_⟩
    intro j member
    rcases List.mem_append.1 member with before | last
    · exact (puts j before).turn turn
    · rwa [List.mem_singleton.1 last]

end Step

section Runs

variable {json : Json.Parser} {requests : List Request} {w : World} {pool : Threads}

/-- In every run, whatever is stored and whatever has been looked up has arisen. -/
theorem arisen_of_run (valid : ∀ request ∈ requests, ValidPayload json request)
    (run : Run honestCall Pool.anyStep (serveOnBlocks json requests) .empty pool w) :
    (∀ key value, w.uf key = some value → Arisen json requests pool key value) ∧
      ∀ thread ∈ pool, ∀ e ∈ thread.log, Looked (Arisen json requests pool) e := by
  induction run with
  | start =>
      refine ⟨by simp [World.empty], fun thread member e logged => ?_⟩
      simp only [serveOnBlocks, Pool.launch, List.map_map, List.mem_map] at member
      obtain ⟨request, -, rfl⟩ := member
      cases logged
  | @step pool w w' i c next log answer before turn _ made ih =>
      obtain ⟨records, looked⟩ := ih
      obtain ⟨honest, rfl⟩ := made
      refine ⟨fun key value found => ?_, fun thread member e logged => ?_⟩
      · by_cases changes : ∃ k v, (⟨c, answer⟩ : Event calls) = ⟨.ufPut k v, Status.ok⟩
        · obtain ⟨k, v, event⟩ := changes
          cases event
          by_cases own : key = k
          · obtain rfl : v = value := by simpa [World.after, Status.isOk, own] using found
            rw [own]
            exact arisen_put valid before looked turn
          · refine (records key value ?_).turn turn
            simpa [World.after, Status.isOk, own] using found
        · rw [uf_after fun k v event => changes ⟨k, v, event⟩] at found
          exact (records key value found).turn turn
      · have earlier {thread} (member : thread ∈ pool) (logged : e ∈ thread.log) :
            Looked (Arisen json requests (pool.set i ⟨next answer, log ++ [⟨c, answer⟩]⟩)) e :=
          fun key value same => (looked thread member e logged key value same).turn turn
        rcases List.mem_or_eq_of_mem_set member with member | rfl
        · exact earlier member logged
        · rcases List.mem_append.1 logged with logged | last
          · exact earlier (List.mem_of_getElem? turn) logged
          · rw [List.mem_singleton.1 last]
            intro key value same
            cases same
            exact (records key value honest).turn turn

/-! ## Every such record arises -/

section Alone

variable {i : Nat} {update : Update} {req : HttpRequest} {ufReq : UfPair}

/-- An update that has not begun looks its user up, and the others wait. -/
theorem run_lookup (run : Run honestCall Pool.anyStep (serveOnBlocks json requests) .empty pool w)
    (up : w.feederShutdown = false) (turn : pool[i]? = some ⟨update.handlerOnBlock json req, []⟩)
    (accepted : accept json req = .ok ufReq) :
    Run honestCall Pool.anyStep (serveOnBlocks json requests) .empty
      (pool.set i ⟨(update.decideOnBlock json ufReq (lookup w ufReq.user)).perform req,
        [checked false, got ufReq.user (lookup w ufReq.user)]⟩) w := by
  have check : honestCall .feederShutdown w false w := ⟨up.symm, rfl⟩
  have look : honestCall (.ufGet ufReq.user.bytes) w (lookup w ufReq.user) w :=
    ⟨(honest_succeed (.ufGet ufReq.user.bytes) w).1, rfl⟩
  exact run.alone turn (Update.after_lookup update accepted _) (.cons check (.cons look (.nil w)))

/-- It goes on to put the record that it decides on. -/
theorem run_update (run : Run honestCall Pool.anyStep (serveOnBlocks json requests) .empty pool w)
    (up : w.feederShutdown = false) (turn : pool[i]? = some ⟨update.handlerOnBlock json req, []⟩)
    (accepted : accept json req = .ok ufReq) {uf : UfPair}
    (decision : update.decideOnBlock json ufReq (lookup w ufReq.user) = .put uf) :
    ∃ thread, Run honestCall Pool.anyStep (serveOnBlocks json requests) .empty
      (pool.set i thread) (World.store w uf) := by
  have asked := run_lookup run up turn accepted
  rw [decision, Decision.perform, putUser_eq] at asked
  have put : honestCall (.ufPut uf.user.bytes (dbText uf)) w Status.ok (World.store w uf) :=
    honest_succeed (.ufPut uf.user.bytes (dbText uf)) w
  have stored := Run.step asked
    (List.getElem?_set_self (List.getElem?_eq_some_iff.1 turn).1) trivial put
  rw [List.set_set] at stored
  exact ⟨_, stored⟩

end Alone

/-- What arises does so in a run, before any other thread has begun. -/
theorem run_of_arises (valid : ∀ request ∈ requests, ValidPayload json request)
    {order : List Nat} {uf : UfPair} (arises : ArisesFrom json requests order uf) :
    ∃ pool w, Run honestCall Pool.anyStep (serveOnBlocks json requests) .empty pool w ∧
      w.feederShutdown = false ∧ w.uf uf.user.bytes = some (dbText uf) ∧
        ∀ j, j ∉ order → pool[j]? = (serveOnBlocks json requests)[j]? := by
  induction arises with
  | @first i req uf requestAt accepted =>
      have turn : (serveOnBlocks json requests)[i]? =
          some ⟨Update.subscribe.handlerOnBlock json req, []⟩ := serveOnBlocks_at requestAt
      have decision :
          Update.subscribe.decideOnBlock json uf (lookup .empty uf.user) = .put uf := rfl
      obtain ⟨thread, run⟩ := run_update .start rfl turn accepted decision
      refine ⟨_, _, run, rfl, by simp [World.store], fun j other => ?_⟩
      exact List.getElem?_set_ne fun same => other (List.mem_singleton.2 same.symm)
  | @next order i update req ufReq ufDb uf before fresh requestAt accepted own inside decision ih =>
      obtain ⟨pool, w, run, up, record, untouched⟩ := ih
      have turn : pool[i]? = some ⟨update.handlerOnBlock json req, []⟩ := by
        rw [untouched i fresh, serveOnBlocks_at requestAt, handleOnBlocks_update]
      rw [← before.leaves_iff valid] at inside
      have decided : update.decideOnBlock json ufReq (lookup w ufReq.user) = .put uf := by
        rw [own, lookup_some record, Update.decideOnBlock_of_not inside,
          Update.decide_found update (dbText_ne_nil ufDb) (before.read valid)]
        exact decision
      obtain ⟨thread, run'⟩ := run_update run up turn accepted decided
      refine ⟨_, _, run', up, by simp [World.store], fun j other => ?_⟩
      rw [List.mem_append, List.mem_singleton, not_or] at other
      rw [List.getElem?_set_ne (Ne.symm other.2)]
      exact untouched j other.1

end Runs

end Feedserver.Serving
