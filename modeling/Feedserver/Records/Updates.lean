/-
# Records.Updates — one subscribe or unsubscribe request, call by call

Both handlers ask the same three questions and then decide: is the server shutting down,
what does the payload ask for (`accept`), what does the store hold (`Get`). Everything
after `Get` is a function of its answer (`Update.decide`), and a decision makes at most
one more call (`Decision.perform`).

* `handler_eq`: the handler is that sequence.
* `Stage`, `stage_of_after`: the logs such a handler can have and what is left of it, so
  that a thread in the middle of a run is known from the calls it has made.
* `Stage.succeeded`, `Stage.failed`: a finished handler answered 200 after one successful `Put`,
  and otherwise left the world alone.
-/
import Feedserver.Records.Encoding

namespace Feedserver.Records

open Feedserver.Theory
open Feedserver.Source

set_option autoImplicit false

/-! ## Responses -/

@[simp] theorem sendBoilerplate_status (req : HttpRequest) (res : HttpResponse) :
    (sendBoilerplate req res).status = res.status := by
  unfold sendBoilerplate
  split <;> rfl

@[simp] theorem sendBoilerplate_body (req : HttpRequest) (res : HttpResponse) :
    (sendBoilerplate req res).body = res.body := by
  unfold sendBoilerplate
  split <;> rfl

@[simp] theorem decline_status (code : HttpStatus) (msg : CString) (req : HttpRequest) :
    (decline code msg req).status = code := sendBoilerplate_status _ _

@[simp] theorem respondJson_status (value : VcVector UInt8) (length : Nat) (req : HttpRequest) :
    (respondJson value length req).status = .status200 := sendBoilerplate_status _ _

@[simp] theorem respondJson_body (value : VcVector UInt8) (length : Nat) (req : HttpRequest) :
    (respondJson value length req).body = value.take length := sendBoilerplate_body _ _

/-- The answer after a `Put` of the pair: its text and a terminator, or the error. -/
def putResponse (req : HttpRequest) (uf : UfPair) (s : Status) : HttpResponse :=
  if s.isOk then
    sendBoilerplate req
      ⟨.status200, [("Content-Type", "application/json")], none, dbText uf ++ [0]⟩
  else decline .status500 s.toCStr req

theorem putResponse_status_iff {req : HttpRequest} {uf : UfPair} {s : Status} :
    (putResponse req uf s).status = .status200 ↔ s = .ok := by
  cases s <;> simp [putResponse, Status.isOk]

theorem putUser_eq (req : HttpRequest) (uf : UfPair) :
    putUser req uf = .call (S := calls) (.ufPut uf.user.bytes (dbText uf)) fun s =>
      .done (putResponse req uf s) := by
  have text : ufPairToDbvalue uf USER_URI FEED_URI = dbText uf ++ [0] := builds_toDbvalue uf
  have whole : (dbText uf ++ [0]).take (vcVectorSize (dbText uf ++ [0])) = dbText uf ++ [0] :=
    List.take_length
  have put : putUser req uf = .call (S := calls)
      (.ufPut uf.user.bytes (vcStringBegin (ufPairToDbvalue uf USER_URI FEED_URI)).bytes)
      fun s => if Status.isOk s then
        .done (respondJson (ufPairToDbvalue uf USER_URI FEED_URI)
          (vcVectorSize (ufPairToDbvalue uf USER_URI FEED_URI)) req)
        else .done (decline .status500 (Status.toCStr s) req) := rfl
  rw [put, begin_toDbvalue, text]
  congr 1
  funext s
  unfold putResponse respondJson
  rw [whole]
  split <;> rfl

/-! ## Decisions -/

inductive Update where
  | subscribe
  | unsubscribe
deriving DecidableEq

namespace Update

def route : Update → Route
  | .subscribe => .subscribe
  | .unsubscribe => .unsubscribe

def edit : Update → UfPair → CString → UfPair × Bool
  | .subscribe => ufPairAddFeed
  | .unsubscribe => ufPairDeleteFeed

def unchanged : Update → String
  | .subscribe => "User already subscribed!"
  | .unsubscribe => "User Not Subscribed!"

end Update

/-- What is left to do once nothing more has to be asked. -/
inductive Decision where
  | put (uf : UfPair)
  | refuse (code : HttpStatus) (msg : CString)
  | fault (reason : Fault)
deriving DecidableEq

def Decision.perform (req : HttpRequest) : Decision → Handler HttpResponse
  | .put uf => putUser req uf
  | .refuse code msg => .done (decline code msg req)
  | .fault reason => .fault reason

/-- The pair a request asks for, or why it is turned away. -/
def accept (json : Json.Parser) (req : HttpRequest) : Except Decision UfPair :=
  if req.method ≠ .put then .error (.refuse .status501 (lit "Not Implemented!"))
  else if req.body.length ≤ 0 then .error (.refuse .status400 (lit "Empty JSON Payload!"))
  else
    match ufPairFromRequest json req.body with
    | .error reason => .error (.fault reason)
    | .ok none => .error (.refuse .status500 (lit "Parse error in payload!"))
    | .ok (some ufReq) => .ok ufReq

namespace Update

variable (json : Json.Parser) (update : Update)

/-- The stored pair, edited. -/
def decideStored (ufReq ufDb : UfPair) : Decision :=
  let (ufDb, changed) := editFeeds update.edit ufReq.feeds (ufDb, false)
  if changed then .put ufDb else .refuse .status304 (lit update.unchanged)

/-- A value was found: nothing is done with one that cannot be read. -/
def decideFound (ufReq : UfPair) (dbVal : Bytes) : Decision :=
  match ufPairFromDbvalue json dbVal with
  | .error reason => .fault reason
  | .ok none => .refuse .status500 (lit "uf_pair_from_dbvalue(uf_db) fail!")
  | .ok (some ufDb) => update.decideStored ufReq ufDb

/-- The decision after `Get`, a function of its answer. -/
def decide (ufReq : UfPair) : Status × Bytes → Decision
  | (.notFound _, _) =>
      match update with
      | .subscribe => .put ufReq
      | .unsubscribe => .refuse .status404 (lit "User not found!")
  | (.error text, _) => .refuse .status500 text.text
  | (.ok, dbVal) =>
      if dbVal.length ≤ 0 then .refuse .status500 Status.ok.toCStr
      else update.decideFound json ufReq dbVal

/-- The handler of an update. -/
def handler (req : HttpRequest) : Handler HttpResponse := handle json update.route req

/-- What follows the shutdown check. -/
def body (req : HttpRequest) : Handler HttpResponse :=
  match accept json req with
  | .error decision => decision.perform req
  | .ok ufReq => .call (S := calls) (.ufGet ufReq.user.bytes) fun answer =>
      (update.decide json ufReq answer).perform req

theorem editUser_eq (req : HttpRequest) (ufReq : UfPair) (dbVal : Bytes) :
    editUser json update.edit update.unchanged req ufReq dbVal =
      (update.decideFound json ufReq dbVal).perform req := by
  unfold editUser decideFound
  cases ufPairFromDbvalue json dbVal with
  | error reason => rfl
  | ok found =>
      cases found with
      | none => rfl
      | some ufDb =>
          simp only [decideStored]
          split <;> rfl

theorem withLookup_eq {unknown : HttpRequest → UfPair → Handler HttpResponse}
    (same : ∀ req ufReq text value, unknown req ufReq =
      (update.decide json ufReq (.notFound text, value)).perform req)
    (req : HttpRequest) (ufReq : UfPair) (answer : Status × Bytes) :
    withLookup json unknown update.edit update.unchanged req ufReq answer =
      (update.decide json ufReq answer).perform req := by
  obtain ⟨_ | text | text, value⟩ := answer
  · simp only [withLookup, decide]
    split
    · rfl
    · exact editUser_eq json update req ufReq value
  · exact same req ufReq text value
  · rfl

theorem updateUser_eq {unknown : HttpRequest → UfPair → Handler HttpResponse}
    (same : ∀ req ufReq text value, unknown req ufReq =
      (update.decide json ufReq (.notFound text, value)).perform req) (req : HttpRequest) :
    updateUser json unknown update.edit update.unchanged req =
      shutdownCheck req (update.body json req) := by
  unfold updateUser body accept
  congr 1
  split
  · rfl
  · split
    · rfl
    · cases ufPairFromRequest json req.body with
      | error reason => rfl
      | ok accepted =>
          cases accepted with
          | none => rfl
          | some ufReq => exact congrArg _ (funext (withLookup_eq json update same req ufReq))

theorem handler_eq (req : HttpRequest) :
    update.handler json req = shutdownCheck req (update.body json req) := by
  cases update with
  | subscribe => exact updateUser_eq json .subscribe (fun _ _ _ _ => rfl) req
  | unsubscribe => exact updateUser_eq json .unsubscribe (fun _ _ _ _ => rfl) req

end Update

theorem accept_error {json : Json.Parser} {req : HttpRequest} {d : Decision}
    (turned : accept json req = .error d) :
    (∃ code msg, d = .refuse code msg ∧ code ≠ .status200) ∨ ∃ reason, d = .fault reason := by
  unfold accept at turned
  split at turned
  · cases turned; exact .inl ⟨_, _, rfl, by simp⟩
  · split at turned
    · cases turned; exact .inl ⟨_, _, rfl, by simp⟩
    · split at turned
      · cases turned; exact .inr ⟨_, rfl⟩
      · cases turned; exact .inl ⟨_, _, rfl, by simp⟩
      · cases turned

/-- A request that is accepted has a payload that names its pair. -/
theorem request_of_accept {json : Json.Parser} {req : HttpRequest} {ufReq : UfPair}
    (accepted : accept json req = .ok ufReq) :
    req.method = .put ∧ req.body ≠ [] ∧ ufPairFromRequest json req.body = .ok (some ufReq) := by
  unfold accept at accepted
  split at accepted
  · cases accepted
  · rename_i method
    split at accepted
    · cases accepted
    · rename_i body
      split at accepted
      · cases accepted
      · cases accepted
      · rename_i found
        cases accepted
        exact ⟨by simpa using method, fun empty => body (by simp [empty]), found⟩

namespace Update

theorem decideFound_refuse {json : Json.Parser} {update : Update} {ufReq : UfPair} {dbVal : Bytes}
    {code : HttpStatus} {msg : CString}
    (refused : update.decideFound json ufReq dbVal = .refuse code msg) : code ≠ .status200 := by
  unfold decideFound decideStored at refused
  split at refused
  · cases refused
  · cases refused; simp
  · simp only at refused
    split at refused <;> cases refused
    simp

/-- No refusal is a 200. -/
theorem decide_refuse {json : Json.Parser} {update : Update} {ufReq : UfPair}
    {answer : Status × Bytes} {code : HttpStatus} {msg : CString}
    (refused : update.decide json ufReq answer = .refuse code msg) : code ≠ .status200 := by
  unfold decide at refused
  split at refused
  · split at refused <;> cases refused
    simp
  · cases refused; simp
  · split at refused
    · cases refused; simp
    · exact decideFound_refuse refused

end Update

/-! ## Logs -/

/-- The shutdown flag was read. -/
def checked (shutdown : Bool) : Event calls := ⟨.feederShutdown, shutdown⟩

/-- A user was looked up. -/
def got (key : CString) (answer : Status × Bytes) : Event calls := ⟨.ufGet key.bytes, answer⟩

/-- A pair was put under its own user. -/
def stored (uf : UfPair) (s : Status) : Event calls := ⟨.ufPut uf.user.bytes (dbText uf), s⟩

theorem after_perform {req : HttpRequest} {d : Decision} {log : List (Event calls)}
    {q : Handler HttpResponse} (after : Program.After (d.perform req) log q) :
    (log = [] ∧ q = d.perform req) ∨
      ∃ uf s, d = .put uf ∧ log = [stored uf s] ∧ q = .done (putResponse req uf s) := by
  cases d with
  | put uf =>
      simp only [Decision.perform, putUser_eq] at after ⊢
      rcases Program.after_call_iff.1 after with ⟨rfl, rfl⟩ | ⟨s, rest, rfl, answered⟩
      · exact .inl ⟨rfl, rfl⟩
      · obtain ⟨rfl, rfl⟩ := Program.after_done_iff.1 answered
        exact .inr ⟨uf, s, rfl, rfl, rfl⟩
  | refuse code msg => exact .inl (Program.after_done_iff.1 after)
  | fault reason => exact .inl (Program.after_fault_iff.1 after)

/-- A decision that waits for a call waits for a `Put`. -/
theorem put_of_perform {req : HttpRequest} {d : Decision} {key value : Bytes}
    {next : Status → Handler HttpResponse}
    (waits : d.perform req = .call (S := calls) (.ufPut key value) next) :
    ∃ uf, d = .put uf ∧ key = uf.user.bytes ∧ value = dbText uf ∧
      next = fun s => .done (putResponse req uf s) := by
  cases d with
  | put uf =>
      rw [Decision.perform, putUser_eq] at waits
      cases waits
      exact ⟨uf, rfl, rfl, rfl, rfl⟩
  | refuse code msg => cases waits
  | fault reason => cases waits

section Stage

variable (json : Json.Parser) (update : Update) (req : HttpRequest)

/-- How far a handler has come: its log, and what is left of it. -/
inductive Stage : List (Event calls) → Handler HttpResponse → Prop
  | fresh : Stage [] (update.handler json req)
  | stopped : Stage [checked true] (.done (decline .status503 (lit "Shutting down!") req))
  | declined {d : Decision} (turned : accept json req = .error d) :
      Stage [checked false] (d.perform req)
  | asking {ufReq : UfPair} (accepted : accept json req = .ok ufReq) :
      Stage [checked false] (.call (S := calls) (.ufGet ufReq.user.bytes) fun answer =>
        (update.decide json ufReq answer).perform req)
  | decided {ufReq : UfPair} {answer : Status × Bytes} (accepted : accept json req = .ok ufReq) :
      Stage [checked false, got ufReq.user answer] ((update.decide json ufReq answer).perform req)
  | stored {ufReq uf : UfPair} {answer : Status × Bytes} {s : Status}
      (accepted : accept json req = .ok ufReq)
      (decision : update.decide json ufReq answer = .put uf) :
      Stage [checked false, got ufReq.user answer, stored uf s] (.done (putResponse req uf s))

variable {json update req}

/-- Every log of a handler is one of these. -/
theorem stage_of_after {log : List (Event calls)} {q : Handler HttpResponse}
    (after : Program.After (update.handler json req) log q) : Stage json update req log q := by
  have whole := update.handler_eq json req
  rw [whole] at after
  rcases Program.after_call_iff.1 after with ⟨rfl, rfl⟩ | ⟨shutdown, rest, rfl, entered⟩
  · rw [← shutdownCheck, ← whole]
    exact .fresh
  · cases shutdown with
    | true =>
        obtain ⟨rfl, rfl⟩ := Program.after_done_iff.1 entered
        exact .stopped
    | false =>
        change Program.After (update.body json req) rest q at entered
        unfold Update.body at entered
        cases accepted : accept json req with
        | error d =>
            rw [accepted] at entered
            rcases after_perform entered with ⟨rfl, rfl⟩ | ⟨uf, s, rfl, -, -⟩
            · exact .declined accepted
            · rcases accept_error accepted with ⟨_, _, impossible, -⟩ | ⟨_, impossible⟩ <;>
                cases impossible
        | ok ufReq =>
            rw [accepted] at entered
            rcases Program.after_call_iff.1 entered with ⟨rfl, rfl⟩ | ⟨answer, rest, rfl, asked⟩
            · exact .asking accepted
            · rcases after_perform asked with ⟨rfl, rfl⟩ | ⟨uf, s, decision, rfl, rfl⟩
              · exact .decided accepted
              · exact .stored accepted decision

/-- A handler about to put has looked its user up and decided on what it puts. -/
theorem Stage.put {log : List (Event calls)} {key value : Bytes}
    {next : Status → Handler HttpResponse}
    (stage : Stage json update req log (.call (S := calls) (.ufPut key value) next)) :
    ∃ ufReq answer uf, accept json req = .ok ufReq ∧
      log = [checked false, got ufReq.user answer] ∧
      update.decide json ufReq answer = .put uf ∧ key = uf.user.bytes ∧ value = dbText uf ∧
      next = fun s => .done (putResponse req uf s) := by
  generalize waits : Program.call (S := calls) (Call.ufPut key value) next = q at stage
  cases stage with
  | fresh =>
      rw [update.handler_eq] at waits
      cases waits
  | stopped => cases waits
  | declined turned =>
      obtain ⟨uf, rfl, -⟩ := put_of_perform waits.symm
      rcases accept_error turned with ⟨_, _, impossible, -⟩ | ⟨_, impossible⟩ <;> cases impossible
  | asking accepted => cases waits
  | decided accepted =>
      obtain ⟨uf, decision, found, text, following⟩ := put_of_perform waits.symm
      exact ⟨_, _, uf, accepted, rfl, decision, found, text, following⟩
  | stored accepted decision => cases waits

/-- A handler that has answered 200 put what it decided on, and the `Put` succeeded. -/
theorem Stage.succeeded {log : List (Event calls)} {res : HttpResponse}
    (stage : Stage json update req log (.done res)) (succeeded : res.status = .status200) :
    ∃ ufReq answer uf, accept json req = .ok ufReq ∧
      update.decide json ufReq answer = .put uf ∧
      log = [checked false, got ufReq.user answer, Records.stored uf .ok] ∧
      res = putResponse req uf .ok := by
  generalize finished : Program.done res = q at stage
  cases stage with
  | fresh =>
      rw [update.handler_eq] at finished
      cases finished
  | stopped => cases finished; simp at succeeded
  | declined turned =>
      rcases accept_error turned with ⟨code, msg, rfl, failed⟩ | ⟨reason, rfl⟩
      · cases finished; simp [failed] at succeeded
      · cases finished
  | asking accepted => cases finished
  | @decided ufReq answer accepted =>
      cases decision : update.decide json ufReq answer with
      | put uf => rw [decision, Decision.perform, putUser_eq] at finished; cases finished
      | refuse code msg =>
          rw [decision] at finished
          cases finished
          simp [Update.decide_refuse decision] at succeeded
      | fault reason => rw [decision] at finished; cases finished
  | stored accepted decision =>
      cases finished
      obtain rfl := putResponse_status_iff.1 succeeded
      exact ⟨_, _, _, accepted, decision, rfl, rfl⟩

/-- A handler that has answered anything else has left the world alone. -/
theorem Stage.failed {log : List (Event calls)} {res : HttpResponse}
    (stage : Stage json update req log (.done res)) (failed : res.status ≠ .status200)
    {w w' : World} (replays : Program.Replays anyCall w log w') : w' = w := by
  generalize finished : Program.done res = q at stage
  cases stage with
  | fresh => exact (Program.replays_nil_iff _).1 replays
  | stopped => simpa [checked, anyCall, World.after] using replays
  | declined turned => simpa [checked, anyCall, World.after] using replays
  | asking accepted => simpa [checked, anyCall, World.after] using replays
  | decided accepted => simpa [checked, got, anyCall, World.after] using replays
  | @stored _ uf _ s accepted decision =>
      cases finished
      have notOk : s.isOk ≠ true := by
        cases s with
        | ok => exact absurd (putResponse_status_iff.2 rfl) failed
        | notFound text => simp [Status.isOk]
        | error text => simp [Status.isOk]
      simpa [checked, got, Records.stored, anyCall, World.after, notOk] using replays

end Stage

end Feedserver.Records
