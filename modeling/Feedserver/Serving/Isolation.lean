/-
# Serving.Isolation — an update writes under the user it names, and under no other key

The lookup goes by the name in the request; the record is put under the name read from the
record that was found. The two agree as long as every stored name is read back as itself,
which is a matter of the names that subscribes bring (`OwnName`): no NUL byte, where the C
string of a name ends, and verbatim between the quotation marks of a record.

`users_isolated` is about every step of every run; `other_user_written` is a run of two
subscribes of one user, the second of which writes under another.
-/
import Feedserver.Records.Names
import Feedserver.Records.Reading
import Feedserver.Serving.Requests

namespace Feedserver.Serving

open Feedserver.Theory
open Feedserver.Source
open Feedserver.Records
open Pool (Run)

set_option autoImplicit false

/-- No part of the name that an update gives is lost on the way to the store and back. -/
def OwnName (json : Json.Parser) (request : Request) : Prop :=
  ∀ user feeds, Asks json request.2.body user feeds →
    (request.1 = .subscribe → 0 ∉ user ∧ Json.Verbatim user) ∧
      (request.1 = .unsubscribe → 0 ∉ user)

/-- What is read from the record under a key is that user's, and the next step of an update
leaves the entries of all but its own user alone. -/
structure Isolated (json : Json.Parser) (requests : List Request) (pool : Threads) (w : World) :
    Prop where
  own : ∀ {key value : Bytes} {p : UfPair}, w.uf key = some value →
    ufPairFromDbvalue json value = .ok (some p) → p.user.bytes = key
  frame : ∀ {update : Update} {i : Nat} {req : HttpRequest} {user : Bytes} {feeds : List Bytes}
    {c : Call} {next : calls.Answer c → Handler HttpResponse} {log : List (Event calls)}
    {answer : c.Answer} {w' : World}, requests[i]? = some (update.route, req) →
      Asks json req.body user feeds → pool[i]? = some ⟨.call c next, log⟩ →
        honestCall c w answer w' → ∀ key, key ≠ user → w'.uf key = w.uf key

/-- The text of some pair of that user, whose name is verbatim. -/
def OwnRecord (key value : Bytes) : Prop :=
  ∃ p : UfPair, key = p.user.bytes ∧ value = dbText p ∧ Json.Verbatim p.user.bytes

/-- The user of a pair that an update puts is the user it was asked to look up. -/
theorem user_of_put {json : Json.Parser} {update : Update} {ufReq uf : UfPair}
    {answer : Status × Bytes}
    (found : ∀ value, answer = (.ok, value) → OwnRecord ufReq.user.bytes value)
    (decision : update.decide json ufReq answer = .put uf) : uf.user = ufReq.user := by
  rcases Update.put_cases decision with ⟨-, -, rfl⟩ | ⟨ufDb, ok, read, decided⟩
  · rfl
  · obtain ⟨status, value⟩ := answer
    obtain rfl : status = .ok := ok
    obtain ⟨p, key, rfl, verbatim⟩ := found value rfl
    rw [Update.user_of_decideStored decided, user_kept verbatim read]
    exact (CString.ext key).symm

theorem verbatim_of_put {json : Json.Parser} {update : Update} {ufReq uf : UfPair}
    {answer : Status × Bytes} (subscribe : update = .subscribe → Json.Verbatim ufReq.user.bytes)
    (found : ∀ value, answer = (.ok, value) → OwnRecord ufReq.user.bytes value)
    (decision : update.decide json ufReq answer = .put uf) : Json.Verbatim ufReq.user.bytes := by
  rcases Update.put_cases decision with ⟨isSubscribe, -, -⟩ | ⟨ufDb, ok, read, decided⟩
  · exact subscribe isSubscribe
  · obtain ⟨status, value⟩ := answer
    obtain rfl : status = .ok := ok
    obtain ⟨p, key, -, verbatim⟩ := found value rfl
    rw [key]
    exact verbatim

section Runs

variable {json : Json.Parser} {requests : List Request} {w : World} {pool : Threads}
  {guard : Pool.Guard calls Fault HttpResponse World}

/-- The name an accepted update asks for has no NUL byte in it. -/
theorem user_of_asks {request : Request} {update : Update} {ufReq : UfPair} {user : Bytes}
    {feeds : List Bytes} (own : OwnName json request) (route : request.1 = update.route)
    (asks : Asks json request.2.body user feeds) (accepted : accept json request.2 = .ok ufReq) :
    ufReq.user.bytes = user := by
  have parsed := (request_of_accept accepted).2.2
  rw [fromRequest_eq_some_iff.2 ⟨user, feeds, asks, rfl⟩] at parsed
  cases parsed
  rw [requested_user]
  apply cstr_bytes_of_nulFree
  obtain ⟨bySubscribe, byUnsubscribe⟩ := own user feeds asks
  cases update with
  | subscribe => exact (bySubscribe route).1
  | unsubscribe => exact byUnsubscribe route

theorem own_records (own : ∀ request ∈ requests, OwnName json request)
    (run : Run honestCall guard (serve json requests) .empty pool w) :
    (∀ key value, w.uf key = some value → OwnRecord key value) ∧
      ∀ thread ∈ pool, ∀ e ∈ thread.log, Looked OwnRecord e := by
  refine run_records ?_ (by simp [World.empty]) run
  intro update req ufReq uf answer member accepted found decision
  obtain ⟨user, feeds, asks, -⟩ := asks_of_accept accepted
  have named := user_of_asks (own _ member) rfl asks accepted
  have verbatim : Json.Verbatim ufReq.user.bytes := by
    refine verbatim_of_put (fun subscribe => ?_) found decision
    rw [named]
    exact (((own _ member) user feeds asks).1 (by rw [subscribe]; rfl)).2
  refine ⟨uf, rfl, rfl, ?_⟩
  rw [user_of_put found decision]
  exact verbatim

/-- **No user's entry is another's.** While the names that updates bring are their own, this
holds in every state of every run from the empty databases, whatever order the requests
take their turns in and whichever database calls fail. -/
theorem users_isolated (own : ∀ request ∈ requests, OwnName json request)
    (run : Run honestCall Pool.anyStep (serve json requests) .empty pool w) :
    Isolated json requests pool w := by
  obtain ⟨records, looked⟩ := own_records own run
  constructor
  · intro key value p stored read
    obtain ⟨q, rfl, rfl, verbatim⟩ := records key value stored
    rw [user_kept verbatim read]
  · intro update i req user feeds c next log answer w' requestAt asks turn made key other
    obtain ⟨-, rfl⟩ := made
    obtain ⟨route, req', requestAt', -, makes⟩ := turn_makes run turn
    obtain ⟨rfl, rfl⟩ : update.route = route ∧ req = req' := by
      simpa using requestAt.symm.trans requestAt'
    cases c with
    | ufPut k value =>
        obtain ⟨request, requestAt'', ⟨put⟩⟩ := put_turn run turn
        obtain rfl : (update.route, req) = request :=
          Option.some.inj (requestAt.symm.trans requestAt'')
        have named := user_of_asks (own _ (List.mem_of_getElem? requestAt)) rfl asks put.accepted
        have target : k = user := by
          rw [put.key_eq, ← named, user_of_put ?_ put.decision]
          intro value found
          refine looked _ (List.mem_of_getElem? turn) (got put.ufReq.user put.answer) ?_ _ _ ?_
          · simp [put.log_eq]
          · rw [found]; rfl
        subst target
        simp only [World.after]
        split
        · exact Function.update_of_ne other _ _
        · rfl
    | feederShutdown => rfl
    | ufGet k => rfl
    | _ => cases update <;> exact makes.elim

end Runs

/-- One payload names one user. -/
theorem ownName_of_asked {json : Json.Parser} {request : Request} {name : Bytes}
    {names : List Bytes} (asks : asked json request.2.body = some (name, names)) (whole : 0 ∉ name)
    (verbatim : Json.Verbatim name) : OwnName json request := by
  intro user feeds asks'
  obtain ⟨rfl, rfl⟩ : name = user ∧ names = feeds := by
    simpa using asks.symm.trans (asked_eq_some_iff.2 asks')
  exact ⟨fun _ => ⟨whole, verbatim⟩, fun _ => whole⟩

theorem users_isolated_plainSubscribe : ∃ pool w,
    Run honestCall Pool.anyStep (serve Json.reader [plainSubscribe]) .empty pool w ∧
      (w.uf (ascii "u")).isSome = true ∧ Isolated Json.reader [plainSubscribe] pool w := by
  have run := run_played [plainSubscribe] [0, 0, 0]
  refine ⟨_, _, run, by decide +kernel, users_isolated (fun request member => ?_) run⟩
  obtain rfl := List.mem_singleton.1 member
  have asks : asked Json.reader plainSubscribe.2.body =
      some (ascii "u", [ascii "a", ascii "b"]) := by decide +kernel
  exact ownName_of_asked asks (by decide) (by decide +kernel)

/-- The user `a\/b`, twice: a backslash and a slash, which a record gives back as a slash. -/
def backslashSubscribes : List Request :=
  [(.subscribe, putJson "\x7b\"user\":\"a\\\\/b\",\"feeds\":\"x\"\x7d"),
    (.subscribe, putJson "\x7b\"user\":\"a\\\\/b\",\"feeds\":\"y\"\x7d")]

theorem other_user_written : ¬ ∀ (requests : List Request) (pool : Threads) (w : World),
    Run honestCall Pool.anyStep (serve Json.reader requests) .empty pool w →
      Isolated Json.reader requests pool w := by
  intro all
  -- the second request is about to put the record it has read
  have isolated := all _ _ _ (run_played backslashSubscribes [0, 0, 0, 1, 1])
  have waits : Pool.pendingAt (played backslashSubscribes [0, 0, 0, 1, 1]).1 1 =
      some (.ufPut (ascii "a/b") (dbText ⟨lit "a/b", [lit "x", lit "y"]⟩)) := by decide +kernel
  obtain ⟨⟨program, log⟩, turn, pending⟩ := Pool.thread_of_pendingAt waits
  obtain ⟨next, rfl⟩ := Program.call_of_pending pending
  have asks : asked Json.reader (backslashSubscribes[1]).2.body =
      some (ascii "a\\/b", [ascii "y"]) := by decide +kernel
  have second : backslashSubscribes[1]? = some (Update.subscribe.route, _) := rfl
  have unchanged := isolated.frame second (asked_eq_some_iff.1 asks) turn (honest_succeed _ _)
    (ascii "a/b") (by decide)
  have absent : (played backslashSubscribes [0, 0, 0, 1, 1]).2.uf (ascii "a/b") = none := by
    decide +kernel
  rw [absent] at unchanged
  simp [succeed, World.after, Status.isOk] at unchanged

end Feedserver.Serving
