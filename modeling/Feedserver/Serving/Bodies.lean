/-
# Serving.Bodies — a record as the updates answer with it, and as get_user does

Both responses carry the text of one record. An update takes the length of its body from the
buffer, which counts the terminator (`vc_vector_size`); a lookup sends the value that `Put`
was given as a C string, without it.

* `LookupStage`, `stage_of_getUser`: how far a lookup has come, call by call.
* `put_before`: what the store holds for a user was put by the update of the user that
  succeeded last, and that update has been answered 200.
* `bodies_agree_iff`: the two bodies agree in no run in which there are two to compare; the
  update's is the lookup's and a NUL byte, which is no JSON text.
-/
import Feedserver.Serving.Addresses
import Feedserver.Serving.Names
import Feedserver.Serving.Updates

namespace Feedserver.Serving

open Feedserver.Theory
open Feedserver.Source
open Feedserver.Records
open Pool (Run History)

set_option autoImplicit false

/-! ## Lookups -/

/-- What `get_user` answers once the user has been looked up. -/
def lookupResponse (req : HttpRequest) : Status × Bytes → HttpResponse
  | (.notFound _, _) => decline .status404 (lit "User not found!") req
  | (.error text, _) => decline .status500 text.text req
  | (.ok, dbVal) =>
      if dbVal.length ≤ 0 then decline .status500 Status.ok.toCStr req
      else respondJson dbVal dbVal.length req

theorem lookupResponse_found {req : HttpRequest} {dbVal : Bytes} (present : dbVal ≠ []) :
    lookupResponse req (.ok, dbVal) = respondJson dbVal dbVal.length req := by
  have nonempty : ¬ dbVal.length ≤ 0 := by simpa using present
  exact if_neg nonempty

/-- Only what was found is answered 200, and it is the body. -/
theorem found_of_status {req : HttpRequest} {answer : Status × Bytes}
    (succeeded : (lookupResponse req answer).status = .status200) :
    ∃ dbVal, answer = (.ok, dbVal) ∧ (lookupResponse req answer).body = dbVal := by
  obtain ⟨_ | text | text, dbVal⟩ := answer
  · refine ⟨dbVal, rfl, ?_⟩
    simp only [lookupResponse] at succeeded ⊢
    split at succeeded
    · simp at succeeded
    · rename_i present
      rw [if_neg present, respondJson_body, List.take_length]
  · simp [lookupResponse] at succeeded
  · simp [lookupResponse] at succeeded

section Stage

variable (req : HttpRequest)

/-- How far `get_user` has come: its log, and what is left of it. -/
inductive LookupStage : List (Event calls) → Handler HttpResponse → Prop
  | fresh : LookupStage [] (getUser req)
  | declined {shutdown : Bool} {res : HttpResponse} (failed : res.status ≠ .status200) :
      LookupStage [checked shutdown] (.done res)
  | faulted {reason : Fault} : LookupStage [checked false] (.fault reason)
  | asking {user : CString} (locates : Locates req user) :
      LookupStage [checked false] (.call (S := calls) (.ufGet user.bytes) fun answer =>
        .done (lookupResponse req answer))
  | answered {user : CString} {answer : Status × Bytes} (locates : Locates req user) :
      LookupStage [checked false, got user answer] (.done (lookupResponse req answer))

variable {req}

theorem lookUp_eq (user : CString) :
    lookUp req (fun dbVal => .done (respondJson dbVal dbVal.length req)) user =
      .call (S := calls) (.ufGet user.bytes) fun answer => .done (lookupResponse req answer) := by
  show Program.call (S := calls) (.ufGet user.bytes) _ = _
  congr 1
  funext answer
  obtain ⟨_ | text | text, dbVal⟩ := answer
  · show (if dbVal.length ≤ 0 then _ else _) = Program.done (if dbVal.length ≤ 0 then _ else _)
    split <;> rfl
  · rfl
  · rfl

theorem stage_of_getUser {log : List (Event calls)} {q : Handler HttpResponse}
    (after : Program.After (getUser req) log q) : LookupStage req log q := by
  rcases Program.after_call_iff.1 after with ⟨rfl, rfl⟩ | ⟨shutdown, rest, rfl, entered⟩
  · exact .fresh
  · cases shutdown with
    | true =>
        obtain ⟨rfl, rfl⟩ := Program.after_done_iff.1 entered
        exact .declined (by simp)
    | false =>
        simp only [Bool.false_eq_true, if_false] at entered
        split at entered
        · obtain ⟨rfl, rfl⟩ := Program.after_done_iff.1 entered
          exact .declined (by simp)
        · split at entered
          · obtain ⟨rfl, rfl⟩ := Program.after_fault_iff.1 entered
            exact .faulted
          · obtain ⟨rfl, rfl⟩ := Program.after_done_iff.1 entered
            exact .declined (by simp)
          · rename_i user located
            split at entered
            · obtain ⟨rfl, rfl⟩ := Program.after_done_iff.1 entered
              exact .declined (by simp)
            · have asking : Program.After (lookUp req _ user) rest q := entered
              rw [lookUp_eq] at asking
              rcases Program.after_call_iff.1 asking with ⟨rfl, rfl⟩ | ⟨answer, rest, rfl, asked⟩
              · exact .asking (locates_of_routeObject located)
              · obtain ⟨rfl, rfl⟩ := Program.after_done_iff.1 asked
                exact .answered (locates_of_routeObject located)

/-- A lookup answered 200 has found its user's value. -/
theorem LookupStage.succeeded {log : List (Event calls)} {res : HttpResponse}
    (stage : LookupStage req log (.done res)) (succeeded : res.status = .status200) :
    ∃ user dbVal, Locates req user ∧ log = [checked false, got user (.ok, dbVal)] ∧
      res.body = dbVal := by
  generalize finished : Program.done res = q at stage
  cases stage with
  | fresh => cases finished
  | declined failed => cases finished; exact absurd succeeded failed
  | faulted => cases finished
  | asking locates => cases finished
  | @answered user answer locates =>
      cases finished
      obtain ⟨dbVal, rfl, body⟩ := found_of_status succeeded
      exact ⟨user, dbVal, locates, rfl, body⟩

/-- A lookup that has found a value has answered with it. -/
theorem LookupStage.found {log : List (Event calls)} {q : Handler HttpResponse} {key dbVal : Bytes}
    (stage : LookupStage req log q)
    (found : (⟨.ufGet key, (Status.ok, dbVal)⟩ : Event calls) ∈ log) :
    ∃ user, Locates req user ∧ key = user.bytes ∧ q = .done (lookupResponse req (.ok, dbVal)) := by
  cases stage with
  | fresh => simp at found
  | declined failed => cases List.mem_singleton.1 found
  | faulted => cases List.mem_singleton.1 found
  | asking locates => cases List.mem_singleton.1 found
  | @answered user answer locates =>
      rcases List.mem_cons.1 found with same | found
      · cases same
      · cases List.mem_singleton.1 found
        exact ⟨user, locates, rfl, rfl⟩

end Stage

/-! ## The update before a lookup -/

abbrev Turns := List (Nat × Event calls)

/-- The request's payload names this user. -/
def namesUser (json : Json.Parser) (user : CString) (req : HttpRequest) : Bool :=
  match accept json req with
  | .ok ufReq => ufReq.user = user
  | .error _ => false

/-- The turn with which an update of the user succeeds: its `Put`, the last call it makes. -/
def updatesUser (json : Json.Parser) (requests : List Request) (user : CString) :
    Nat × Event calls → Bool
  | (i, ⟨.ufPut _ _, s⟩) =>
      Status.isOk s && requests[i]?.any fun request => namesUser json user request.2
  | _ => false

/-- The update of the user that succeeded last. -/
def lastUpdate (json : Json.Parser) (requests : List Request) (user : CString) (turns : Turns) :
    Option Nat :=
  (turns.find? (updatesUser json requests user)).map Prod.fst

/-- The client of the thread at this index has been answered 200, with this response. -/
def Succeeded (pool : Threads) (i : Nat) (res : HttpResponse) : Prop :=
  res.status = .status200 ∧ ∃ log, pool[i]? = some ⟨.done res, log⟩

/-- An update that is the last to have succeeded for the user, and its body. -/
structure PutBefore (json : Json.Parser) (requests : List Request) (turns : Turns) (pool : Threads)
    (user : CString) (value : Bytes) : Prop where
  intro ::
  update : ∃ (k : Nat) (update : Update) (req : HttpRequest) (res : HttpResponse),
    lastUpdate json requests user turns = some k ∧ requests[k]? = some (update.route, req) ∧
      Succeeded pool k res ∧ res.body = value ++ [0]

section Updates

variable {json : Json.Parser} {requests : List Request} {w : World} {pool : Threads} {turns : Turns}
  {guard : Pool.Guard calls Fault HttpResponse World} {user : CString} {value : Bytes}

/-- It stays the last as long as turns are no updates of the user that succeed. -/
theorem PutBefore.kept {i : Nat} {c : Call} {next : calls.Answer c → Handler HttpResponse}
    {log : List (Event calls)} {answer : calls.Answer c}
    {thread : Thread calls Fault HttpResponse} (before : PutBefore json requests turns pool user value)
    (turn : pool[i]? = some ⟨.call c next, log⟩)
    (other : updatesUser json requests user (i, ⟨c, answer⟩) = false) :
    PutBefore json requests ((i, ⟨c, answer⟩) :: turns) (pool.set i thread) user value := by
  obtain ⟨k, update, req, res, last, requestAt, ⟨status, log', found⟩, body⟩ := before
  refine ⟨k, update, req, res, ?_, requestAt, ⟨status, log', ?_⟩, body⟩
  · rw [lastUpdate, List.find?_cons_of_neg (by simp [other])]
    exact last
  · exact Pool.ended_of_turn turn rfl found

/-- The user an update puts is the one its payload names. -/
theorem user_of_put_turn (valid : ∀ request ∈ requests, ValidPayload json request)
    (run : Run honestCall guard (serve json requests) .empty pool w) {i : Nat} {request : Request}
    {key text : Bytes} {next : Status → Handler HttpResponse} {log : List (Event calls)}
    (turn : pool[i]? = some ⟨.call (S := calls) (.ufPut key text) next, log⟩)
    (requestAt : requests[i]? = some request) (put : PutTurn json request log key text next) :
    put.uf.user = put.ufReq.user := by
  have member : (put.update.route, request.2) ∈ requests :=
    put.route ▸ List.mem_of_getElem? requestAt
  refine (Stored.kept (fun _ => ValidName.verbatim) (fun _ => ValidName.verbatim)
    (fit_of_valid valid member put.accepted) (nodup_of_accept put.accepted) ?_ put.decision).2
  intro value same
  have looked := (records_of_valid valid run).2 _ (List.mem_of_getElem? turn)
    (got put.ufReq.user put.answer) (by simp [put.log_eq])
  exact looked _ _ (by rw [same]; rfl)

/-- An update of the user that succeeds is the last one so far. -/
theorem putBefore_of_turn {i : Nat} {request : Request} {key text : Bytes}
    {next : Status → Handler HttpResponse} {log : List (Event calls)}
    (turn : pool[i]? = some ⟨.call (S := calls) (.ufPut key text) next, log⟩)
    (requestAt : requests[i]? = some request) (put : PutTurn json request log key text next) :
    PutBefore json requests ((i, ⟨.ufPut key text, Status.ok⟩) :: turns)
      (pool.set i ⟨next .ok, log ++ [⟨.ufPut key text, Status.ok⟩]⟩) put.ufReq.user
        (dbText put.uf) := by
  have names : updatesUser json requests put.ufReq.user (i, ⟨.ufPut key text, Status.ok⟩) = true := by
    simp [updatesUser, Status.isOk, requestAt, namesUser, put.accepted]
  refine ⟨i, put.update, request.2, putResponse request.2 put.uf .ok, ?_, ?_,
    ⟨putResponse_status_iff.2 rfl, log ++ [⟨.ufPut key text, Status.ok⟩], ?_⟩, ?_⟩
  · rw [lastUpdate, List.find?_cons_of_pos names]
    rfl
  · rw [← put.route]
    exact requestAt
  · have inside := (List.getElem?_eq_some_iff.1 turn).1
    have ends : next .ok = .done (putResponse request.2 put.uf .ok) := congrFun put.next_eq _
    rw [List.getElem?_set_self inside, ends]
  · simp [putResponse, Status.isOk]

/-- What the store holds for a user was put by the last update that succeeded for it. -/
theorem put_before (valid : ∀ request ∈ requests, ValidPayload json request)
    (history : History honestCall guard (serve json requests) .empty turns pool w)
    (stored : w.uf user.bytes = some value) : PutBefore json requests turns pool user value := by
  induction history generalizing value with
  | start => cases stored
  | @step turns pool w w' i c next log answer before turn guarded made ih =>
      obtain ⟨-, rfl⟩ := made
      by_cases succeeds : ∃ key text, (⟨c, answer⟩ : Event calls) = ⟨.ufPut key text, Status.ok⟩
      · obtain ⟨key, text, event⟩ := succeeds
        cases event
        obtain ⟨request, requestAt, ⟨put⟩⟩ := put_turn before.run turn
        have named := user_of_put_turn valid before.run turn requestAt put
        by_cases own : put.ufReq.user = user
        · subst own
          have text_eq : dbText put.uf = value := by
            rw [← put.value_eq]
            simpa [World.after, Status.isOk, put.key_eq, named] using stored
          rw [← text_eq]
          exact putBefore_of_turn turn requestAt put
        · have different : user.bytes ≠ key := by
            rw [put.key_eq, named]
            intro same
            exact own (CString.ext same.symm)
          have unchanged : w.uf user.bytes = some value := by
            simpa [World.after, Status.isOk, different] using stored
          apply (ih unchanged).kept turn
          simp [updatesUser, requestAt, namesUser, put.accepted, own]
      · have quiet : ∀ key text, (⟨c, answer⟩ : Event calls) ≠ ⟨.ufPut key text, Status.ok⟩ :=
          fun key text same => succeeds ⟨key, text, same⟩
        rw [uf_after quiet] at stored
        apply (ih stored).kept turn
        cases c with
        | ufPut key text =>
            rcases answer with _ | text' | text'
            · exact absurd rfl (quiet key text)
            · rfl
            · rfl
        | _ => rfl

end Updates

/-! ## The two bodies -/

/-- The body is one JSON text, and nothing comes after it but white space. -/
def OneText (body : Bytes) : Prop := ∃ v, Json.Denotes body v

/-- A user's record as a lookup has answered with it, and as the update did that succeeded
last before the lookup. -/
structure BothViews (json : Json.Parser) (requests : List Request) (turns : Turns) (pool : Threads)
    (user : CString) (looked updated : HttpResponse) : Prop where
  intro ::
  views : ∃ (g k : Nat) (req : HttpRequest) (answer : Status × Bytes) (later before : Turns),
    requests[g]? = some (.user, req) ∧ Locates req user ∧ Succeeded pool g looked ∧
      turns = later ++ (g, got user answer) :: before ∧
        lastUpdate json requests user before = some k ∧ Succeeded pool k updated

/-- The record is seen the same either way. -/
structure Agree (looked updated : HttpResponse) : Prop where
  same : looked.body = updated.body
  looked : OneText looked.body
  updated : OneText updated.body

/-- No `get_user` request has found a record. -/
def NothingFound (requests : List Request) (turns : Turns) : Prop :=
  ∀ (g : Nat) (req : HttpRequest) (key value : Bytes), requests[g]? = some (.user, req) →
    (g, (⟨.ufGet key, (Status.ok, value)⟩ : Event calls)) ∉ turns

section Bodies

variable {json : Json.Parser} {requests : List Request} {w : World} {pool : Threads} {turns : Turns}
  {guard : Pool.Guard calls Fault HttpResponse World} {user : CString}

theorem stage_of_lookup (history : History honestCall guard (serve json requests) .empty turns pool w)
    {g : Nat} {req : HttpRequest} (requestAt : requests[g]? = some (.user, req))
    {thread : Thread calls Fault HttpResponse} (found : pool[g]? = some thread) :
    LookupStage req thread.log thread.program := by
  obtain ⟨route, req', requestAt', after⟩ := thread_of_run history.run found
  cases requestAt.symm.trans requestAt'
  exact stage_of_getUser after

/-- A value that is found has been put before, by the update that answered with it and a
terminator behind it. -/
theorem found_put (valid : ∀ request ∈ requests, ValidPayload json request)
    (history : History honestCall guard (serve json requests) .empty turns pool w) {g : Nat}
    {value : Bytes} {later before : Turns}
    (listed : turns = later ++ (g, ⟨.ufGet user.bytes, (Status.ok, value)⟩) :: before) :
    Stored ValidName ValidName user.bytes value ∧ ∃ k updated,
      lastUpdate json requests user before = some k ∧ Succeeded pool k updated ∧
        updated.body = value ++ [0] := by
  subst listed
  obtain ⟨pool', w', upTo, kept⟩ := history.earlier
  cases upTo with
  | step earlier turn guarded made =>
      obtain ⟨stored, rfl⟩ := made
      obtain ⟨k, update, req, updated, last, -, ⟨status, log, put⟩, body⟩ :=
        put_before valid earlier stored
      refine ⟨stored_of_valid valid earlier.run _ _ stored, k, updated, last, ⟨status, log, ?_⟩, body⟩
      exact kept k _ (Pool.ended_of_turn turn rfl put) rfl

/-- A lookup answered 200 is the lookup of a value that was found. -/
theorem value_of_views (history : History honestCall guard (serve json requests) .empty turns pool w)
    {g : Nat} {req : HttpRequest} {looked : HttpResponse} {answer : Status × Bytes}
    (requestAt : requests[g]? = some (.user, req)) (succeeded : Succeeded pool g looked)
    (member : (g, got user answer) ∈ turns) : answer = (.ok, looked.body) := by
  obtain ⟨status, log, found⟩ := succeeded
  obtain ⟨user', value, -, rfl, rfl⟩ := (stage_of_lookup history requestAt found).succeeded status
  have logged := (history.mem_log_iff found _).2 member
  rcases List.mem_cons.1 logged with same | logged
  · cases same
  · injection List.mem_singleton.1 logged

/-- The update's body is the lookup's with a NUL byte behind it, and so no JSON text. -/
theorem terminator_of_views (valid : ∀ request ∈ requests, ValidPayload json request)
    (history : History honestCall guard (serve json requests) .empty turns pool w)
    {looked updated : HttpResponse} (both : BothViews json requests turns pool user looked updated) :
    updated.body = looked.body ++ [0] ∧ OneText looked.body ∧ ¬ OneText updated.body := by
  obtain ⟨g, k, req, answer, later, before, requestAt, -, succeeded, listed, last, -, log, found⟩ := both
  have member : (g, got user answer) ∈ turns := by simp [listed]
  obtain rfl := value_of_views history requestAt succeeded member
  obtain ⟨stored, k', updated', last', ⟨-, log', found'⟩, body⟩ := found_put valid history listed
  obtain rfl : k = k' := Option.some.inj (last.symm.trans last')
  cases found.symm.trans found'
  obtain ⟨name, feeds, -, text, isUser, areFeeds⟩ := stored
  refine ⟨body, ⟨dbTree (pairOf name feeds), ?_⟩, ?_⟩
  · rw [text]
    exact denotes_dbText isUser.plain fun f member => (areFeeds f member).plain
  · rintro ⟨v, denotes⟩
    exact denotes.nulFree (by simp [body])

/-- A lookup that has found a record has been answered with it, after the update that put it. -/
theorem views_of_found (valid : ∀ request ∈ requests, ValidPayload json request)
    (history : History honestCall guard (serve json requests) .empty turns pool w) {g : Nat}
    {req : HttpRequest} {key value : Bytes} (requestAt : requests[g]? = some (.user, req))
    (member : (g, (⟨.ufGet key, (Status.ok, value)⟩ : Event calls)) ∈ turns) :
    ∃ user looked updated, BothViews json requests turns pool user looked updated := by
  obtain ⟨thread, found⟩ := history.turn_of_mem member
  have stage := stage_of_lookup history requestAt found
  obtain ⟨user, locates, rfl, ends⟩ := stage.found ((history.mem_log_iff found _).2 member)
  obtain ⟨later, before, listed⟩ := List.append_of_mem member
  obtain ⟨⟨name, feeds, -, text, -, -⟩, k, updated, last, succeeded, -⟩ :=
    found_put valid history listed
  have present : value ≠ [] := by
    rw [text]
    exact dbText_ne_nil _
  rw [lookupResponse_found present] at ends
  refine ⟨user, respondJson value value.length req, updated, g, k, req, (.ok, value), later, before,
    requestAt, locates, ⟨respondJson_status _ _ _, thread.log, ?_⟩, listed, last, succeeded⟩
  rw [found, ← ends]

/-- **The two views of a record never agree.** In every run with valid names, from the empty
databases, whatever order the requests take their turns in and whichever database calls fail:
the bodies agree only where no lookup has found a record, since the update's is one byte
longer. -/
theorem bodies_agree_iff (valid : ∀ request ∈ requests, ValidPayload json request)
    (history : History honestCall Pool.anyStep (serve json requests) .empty turns pool w) :
    ((∀ user looked updated, BothViews json requests turns pool user looked updated →
      Agree looked updated) ↔ NothingFound requests turns) ∧
    ∀ user looked updated, BothViews json requests turns pool user looked updated →
      updated.body = looked.body ++ [0] ∧ OneText looked.body ∧ ¬ OneText updated.body := by
  refine ⟨⟨?_, ?_⟩, fun user looked updated both => terminator_of_views valid history both⟩
  · intro agree g req key value requestAt member
    obtain ⟨user, looked, updated, both⟩ := views_of_found valid history requestAt member
    exact (terminator_of_views valid history both).2.2 (agree user looked updated both).updated
  · rintro nothing user looked updated
      ⟨g, k, req, answer, later, before, requestAt, -, succeeded, listed, -⟩
    have member : (g, got user answer) ∈ turns := by simp [listed]
    obtain rfl := value_of_views history requestAt succeeded member
    exact absurd member (nothing g req _ _ requestAt)

end Bodies

/-- Two feeds for the user `u`, and a look at them. -/
def subscribeAndLook : List Request := [plainSubscribe, (.user, getPath "/user/" "u")]

theorem valid_subscribeAndLook : ∀ request ∈ subscribeAndLook, ValidPayload Json.reader request := by
  intro request member
  rcases List.mem_cons.1 member with rfl | member
  · exact validPayload_plainSubscribe
  · rw [List.mem_singleton.1 member]
    intro subscribe
    cases subscribe

/-- In turn, the lookup finds the record. -/
theorem found_subscribeAndLook : ∃ turns,
    History honestCall Pool.anyStep (serve Json.reader subscribeAndLook) .empty turns
        (played subscribeAndLook [0, 0, 0, 1, 1]).1 (played subscribeAndLook [0, 0, 0, 1, 1]).2 ∧
      (1, got (lit "u") (.ok, dbText plainPair)) ∈ turns := by
  obtain ⟨turns, history⟩ := (run_played subscribeAndLook [0, 0, 0, 1, 1]).history
  refine ⟨turns, history, ?_⟩
  have logs : ((played subscribeAndLook [0, 0, 0, 1, 1]).1[1]?).map Thread.log =
      some [checked false, got (lit "u") (.ok, dbText plainPair)] := by rfl
  obtain ⟨thread, found, log⟩ := Option.map_eq_some_iff.1 logs
  apply (history.mem_log_iff found _).1
  simp [log]

theorem bodies_agree_iff_look : ∃ (turns : Turns) (pool : Threads) (w : World),
    History honestCall Pool.anyStep (serve Json.reader subscribeAndLook) .empty turns pool w ∧
      ((∀ user looked updated,
        BothViews Json.reader subscribeAndLook turns pool user looked updated →
          Agree looked updated) ↔ NothingFound subscribeAndLook turns) ∧
      ¬ NothingFound subscribeAndLook turns := by
  obtain ⟨turns, history, member⟩ := found_subscribeAndLook
  refine ⟨turns, _, _, history, (bodies_agree_iff valid_subscribeAndLook history).1, ?_⟩
  intro nothing
  exact nothing 1 _ _ _ rfl member

/-- The lookup is sent the record, the subscribe the record and its terminator. -/
theorem terminator_sent : ¬ ∀ (requests : List Request) (turns : Turns) (pool : Threads) (w : World),
    (∀ request ∈ requests, ValidPayload Json.reader request) →
      History honestCall Pool.anyStep (serve Json.reader requests) .empty turns pool w →
        ∀ user looked updated, BothViews Json.reader requests turns pool user looked updated →
          Agree looked updated := by
  intro all
  obtain ⟨turns, history, member⟩ := found_subscribeAndLook
  obtain ⟨user, looked, updated, both⟩ :=
    views_of_found valid_subscribeAndLook history (g := 1) rfl member
  have agree := all _ _ _ _ valid_subscribeAndLook history user looked updated both
  exact (terminator_of_views valid_subscribeAndLook history both).2.2 agree.updated

end Feedserver.Serving
