/-
# Serving.Names — which names get into the user database

Handlers that take a name from a URI check it with `isobject_valid`; the two that take
names from a payload do not. What `names_valid` says of every run therefore depends on the
payloads alone: while every subscribe brings valid names (`ValidPayload`), every key and
every feed in every record is valid, in whatever order the threads take their turns.
`blank_user_stored` is a payload outside that condition and the record it leaves.
-/
import Feedserver.Records.Names
import Feedserver.Serving.Requests

namespace Feedserver.Serving

open Feedserver.Theory
open Feedserver.Source
open Feedserver.Records
open Pool (Run)

set_option autoImplicit false

/-- The names a subscribe brings are valid; nothing is asked of other requests. -/
def ValidPayload (json : Json.Parser) (request : Request) : Prop :=
  request.1 = .subscribe → Brings ValidName ValidName json request.2.body

/-- Every record is read back under its own key, and all names in it are valid. -/
def ValidRecords (json : Json.Parser) (w : World) : Prop :=
  ∀ key value, w.uf key = some value → ∃ p, ufPairFromDbvalue json value = .ok (some p) ∧
    p.user.bytes = key ∧ isobjectValid p.user = true ∧ ∀ f ∈ p.feeds, isobjectValid f = true

/-- A user whose subscribe was answered 200, and its feeds, pass the check of the handlers
that take a name from a URI. -/
def ValidSubscribers (json : Json.Parser) (requests : List Request) (pool : Threads) : Prop :=
  ∀ (i : Nat) (req : HttpRequest) (log : List (Event calls)) (res : HttpResponse) (ufReq : UfPair),
    requests[i]? = some (.subscribe, req) → pool[i]? = some ⟨.done res, log⟩ →
      res.status = .status200 → ufPairFromRequest json req.body = .ok (some ufReq) →
        isobjectValid ufReq.user = true ∧ ∀ f ∈ ufReq.feeds, isobjectValid f = true

theorem fit_of_valid {json : Json.Parser} {requests : List Request} {update : Update}
    {req : HttpRequest} {ufReq : UfPair} (valid : ∀ request ∈ requests, ValidPayload json request)
    (member : (update.route, req) ∈ requests) (accepted : accept json req = .ok ufReq)
    (subscribe : update = .subscribe) : Fit ValidName ValidName ufReq :=
  fit_of_accept accepted (valid _ member (by rw [subscribe]; rfl))

theorem records_of_valid {json : Json.Parser} {requests : List Request} {w : World} {pool : Threads}
    {guard : Pool.Guard calls Fault HttpResponse World}
    (valid : ∀ request ∈ requests, ValidPayload json request)
    (run : Run honestCall guard (serve json requests) .empty pool w) :
    (∀ key value, w.uf key = some value → Stored ValidName ValidName key value) ∧
      ∀ thread ∈ pool, ∀ e ∈ thread.log, Looked (Stored ValidName ValidName) e := by
  refine run_records ?_ (by simp [World.empty]) run
  intro update req ufReq uf answer member accepted found decision
  exact (Stored.kept (fun _ => ValidName.verbatim) (fun _ => ValidName.verbatim)
    (fit_of_valid valid member accepted) (nodup_of_accept accepted) found decision).1

theorem stored_of_valid {json : Json.Parser} {requests : List Request} {w : World} {pool : Threads}
    {guard : Pool.Guard calls Fault HttpResponse World}
    (valid : ∀ request ∈ requests, ValidPayload json request)
    (run : Run honestCall guard (serve json requests) .empty pool w) :
    ∀ key value, w.uf key = some value → Stored ValidName ValidName key value :=
  (records_of_valid valid run).1

theorem validRecords_of_stored (json : Json.Parser) {w : World}
    (stored : ∀ key value, w.uf key = some value → Stored ValidName ValidName key value) :
    ValidRecords json w := by
  intro key value found
  obtain ⟨user, feeds, rfl, rfl, isUser, areFeeds⟩ := stored key value found
  exact ⟨pairOf user feeds, Stored.read json (fun _ => ValidName.plain) (fun _ => ValidName.plain)
    isUser areFeeds, rfl, isUser, areFeeds⟩

/-- **Valid names stay valid.** If every subscribe brings valid names, then in every run from
the empty databases, under any order of turns and any outcome of the database calls, every
key and every subscribed feed is valid. -/
theorem names_valid {json : Json.Parser} {requests : List Request} {w : World} {pool : Threads}
    (valid : ∀ request ∈ requests, ValidPayload json request)
    (run : Run honestCall Pool.anyStep (serve json requests) .empty pool w) :
    ValidRecords json w ∧ ValidSubscribers json requests pool := by
  refine ⟨validRecords_of_stored json (stored_of_valid valid run), ?_⟩
  intro i req log res ufReq requestAt _ _ parsed
  obtain ⟨user, feeds, asks, rfl⟩ := fromRequest_eq_some_iff.1 parsed
  obtain ⟨isUser, areFeeds⟩ := valid _ (List.mem_of_getElem? requestAt) rfl user feeds asks
  refine ⟨by rw [requested_user]; exact isUser, ?_⟩
  intro f member
  obtain ⟨g, named, rfl⟩ := mem_requested.1 member
  exact areFeeds g named

theorem validPayload_plainSubscribe : ValidPayload Json.reader plainSubscribe :=
  fun _ => brings_of_fromRequest read_plainSubscribe ⟨by decide, by decide⟩

/-- The run of that one request, and what it leaves. -/
theorem names_valid_plainSubscribe : ∃ pool w,
    Run honestCall Pool.anyStep (serve Json.reader [plainSubscribe]) .empty pool w ∧
      (w.uf (ascii "u")).isSome = true ∧ ValidRecords Json.reader w ∧
        ValidSubscribers Json.reader [plainSubscribe] pool := by
  have run := run_played [plainSubscribe] [0, 0, 0]
  refine ⟨_, _, run, by decide +kernel, names_valid (fun request member => ?_) run⟩
  rw [List.mem_singleton.1 member]
  exact validPayload_plainSubscribe

/-- A user whose name is not alphanumeric. -/
def blankSubscribe : Request := (.subscribe, putJson "\x7b\"user\":\"a b\",\"feeds\":\"x\"\x7d")

theorem blank_user_stored : ¬ ∀ (requests : List Request) (pool : Threads) (w : World),
    Run honestCall Pool.anyStep (serve Json.reader requests) .empty pool w →
      ValidRecords Json.reader w ∧ ValidSubscribers Json.reader requests pool := by
  intro all
  have stored : (played [blankSubscribe] [0, 0, 0]).2.uf (ascii "a b") =
      some (dbText ⟨lit "a b", [lit "x"]⟩) := by decide +kernel
  obtain ⟨p, -, key, valid, -⟩ := (all _ _ _ (run_played _ _)).1 _ _ stored
  have named : p.user = lit "a b" := CString.ext key
  rw [named] at valid
  exact absurd valid (by decide)

end Feedserver.Serving
