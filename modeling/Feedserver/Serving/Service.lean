/-
# Serving.Service — what the whole server is for

A map from users to the feeds they follow, and the articles of each feed. `Service` has no
text in it: users, feeds and contents are any three types, and `fit` says which contents a
feed takes. Commands on the map are those of `Records.Subscriptions`; a submission is answered
content by content.

* `served_simulates`: a request served alone does what its command does.
* `service_linear`: requests that carry commands (`AllCarry`: well formed, with valid names, and
  no shutdown), served at the same time by databases that do not fail, with every record put over
  the one that was read, are answered as the service answers their commands in one order, which
  respects real time, and leave what it has then.
-/
import Feedserver.Serving.Dispositions
import Feedserver.Serving.Moments
import Feedserver.Serving.Refinement

namespace Feedserver.Serving

open Feedserver.Theory
open Feedserver.Source
open Feedserver.Records
open Feedserver.Articles
open Pool (Run History Serial Serialized)
open Program (exec)

set_option autoImplicit false

/-! ## The service -/

structure Service (U F C : Type) where
  subscriptions : Subscriptions U F
  articles : F → C → Prop

inductive Ask (U F C : Type) where
  | record (command : Command U F)
  | submit (feed : F) (contents : List C)

inductive Told (U F : Type) where
  | record (reply : Reply U F)
  | dispositions (accepted : List Bool)

namespace Service

variable {U F C : Type} [DecidableEq U] [DecidableEq F]

def empty : Service U F C := ⟨Subscriptions.empty, fun _ _ => False⟩

/-- One command: what it is answered, and the service after it. -/
def perform (fit : C → Bool) : Machine (Service U F C) (Ask U F C) (Told U F)
  | s, .record command =>
      (.record (Subscriptions.perform s.subscriptions command).1,
        { s with subscriptions := (Subscriptions.perform s.subscriptions command).2 })
  | s, .submit feed contents =>
      (.dispositions (contents.map fit),
        { s with articles := fun f c => s.articles f c ∨ f = feed ∧ c ∈ contents ∧ fit c = true })

end Service

/-! ## The server -/

/-- A content is fit when all of it is printable or white space. -/
def fitContent (content : CString) : Bool := printable content.bytes

abbrev FeedService := Service CString CString CString

abbrev FeedAsk := Ask CString CString CString

/-- The service after these commands. -/
def serviceAfter (asks : List FeedAsk) : FeedService :=
  Machine.final (Service.perform fitContent) Service.empty asks

/-- The request is this command, all its names valid. -/
inductive Carries (json : Json.Parser) : Request → FeedAsk → Prop
  | record {request : Request} {command : Command CString CString}
      (issues : Issues json request command) : Carries json request (.record command)
  | submit {req : HttpRequest} {feed : CString} {contents : List Bytes} (method : req.method = .post)
      (submits : Submits json req feed contents) :
      Carries json (.submit, req) (.submit feed (contents.map cstr))

/-- The response says what the service tells. -/
def Tells (answer : Except Fault HttpResponse) : Told CString CString → Prop
  | .record reply => Says answer reply
  | .dispositions accepted => ∃ res, answer = .ok res ∧ Reports res accepted

/-- The keys of the article database are those of the articles. -/
def HoldsArticles (w : World) (articles : CString → CString → Prop) : Prop :=
  ∀ key, key ∈ w.fa ↔ ∃ feed content, articles feed content ∧ key = (articleKey feed content).bytes

/-- What holds between the server and the service at every step. -/
structure Bound (w : World) (s : FeedService) : Prop where
  tied : Tied w s.subscriptions
  articles : HoldsArticles w s.articles

section Step

variable {json : Json.Parser} {w : World} {s : FeedService}

theorem fa_of_replays {w' : World} {log : List (Event calls)}
    (replays : Program.Replays succeeding w log w') (key : Bytes) :
    key ∈ w'.fa ↔ key ∈ w.fa ∨ accepts key ∈ log := by
  induction replays with
  | nil w => simp
  | @cons w between w' e rest made _ ih =>
      rw [ih, fa_after (honest_of_succeeding _ _ _ _ made), adds_iff, List.mem_cons, or_assoc]
      exact or_congr_right (or_congr_left ⟨Eq.symm, Eq.symm⟩)

/-- A command on a record leaves the articles alone. -/
theorem fa_of_issues {request : Request} {command : Command CString CString}
    (issues : Issues json request command) (key : Bytes) :
    key ∈ (serveNext json w request).2.fa ↔ key ∈ w.fa := by
  obtain ⟨log, finished, replays⟩ := Program.exec_runs succeed succeeding_succeed
    (handle json request.1 request.2) w
  have none : accepts key ∉ log := by
    intro inLog
    have makes := ((handle_makes json request.1 request.2).after finished).1 _ inLog
    cases issues <;> exact makes.elim
  rw [serveNext, fa_of_replays replays]
  exact or_iff_left none

theorem record_simulates (bound : Bound w s) {request : Request} {command : Command CString CString}
    (issues : Issues json request command) :
    Tells (serveNext json w request).1 (Service.perform fitContent s (.record command)).1 ∧
      Bound (serveNext json w request).2 (Service.perform fitContent s (.record command)).2 := by
  obtain ⟨answered, tied⟩ := (serveNext_simulates json).step bound.tied issues
  exact ⟨answered, tied, fun key => (fa_of_issues issues key).trans (bound.articles key)⟩

/-- The calls of a submission add the keys of its fit contents. -/
theorem accepts_mem_succeededLog {feed : CString} (valid : ValidName feed) (contents : List Bytes)
    (key : Bytes) : accepts key ∈ succeededLog feed contents ↔
      ∃ content ∈ contents.map cstr, fitContent content = true ∧
        key = (articleKey feed content).bytes := by
  have other : accepts key ≠ ⟨.feederShutdown, false⟩ := nofun
  rw [succeededLog, List.mem_cons, or_iff_right other, accepts_mem_iff]
  simp only [keysOf, List.mem_map, exists_exists_and_eq_and]
  refine exists_congr fun content => and_congr_right fun _ => ?_
  rw [isarticleValid_articleKey valid]
  rfl

theorem submit_simulates (bound : Bound w s) {req : HttpRequest} {feed : CString}
    {contents : List Bytes} (post : req.method = .post) (submits : Submits json req feed contents) :
    Tells (serveNext json w (.submit, req)).1
        (Service.perform fitContent s (.submit feed (contents.map cstr))).1 ∧
      Bound (serveNext json w (.submit, req)).2
        (Service.perform fitContent s (.submit feed (contents.map cstr))).2 := by
  obtain ⟨res, finished, -⟩ := finishes_of_submits post submits
  obtain ⟨_, same, reports, -⟩ := finished_of_ok post submits finished fun article s member =>
    succeededLog_ok feed contents article s (List.mem_cons_of_mem _ member)
  cases same
  have steady : ∀ e ∈ succeededLog feed contents, Steady w e := by
    intro e member
    rcases List.mem_cons.1 member with rfl | put
    · exact bound.tied.up.symm
    · rw [putEvents_tryPut] at put
      obtain ⟨article, -, rfl⟩ := List.mem_map.1 put
      rfl
  obtain ⟨w', replays, added⟩ := replays_steady steady
  have ran : serveNext json w (.submit, req) = (.ok res, w') :=
    Program.exec_of_finishes finished replays
  rw [ran]
  refine ⟨⟨res, rfl, ?_⟩, ⟨added.flag.trans bound.tied.up, bound.tied.names, ?_⟩, ?_⟩
  · rw [map_valid_keysOf submits.valid] at reports
    simpa [fitContent, Function.comp_def] using reports
  · intro key value
    rw [added.uf]
    exact bound.tied.holds key value
  · intro key
    rw [added.fa, bound.articles, accepts_mem_succeededLog submits.valid]
    constructor
    · rintro (⟨f, c, old, rfl⟩ | ⟨c, inside, fit, rfl⟩)
      · exact ⟨f, c, .inl old, rfl⟩
      · exact ⟨feed, c, .inr ⟨rfl, inside, fit⟩, rfl⟩
    · rintro ⟨f, c, old | ⟨rfl, inside, fit⟩, rfl⟩
      · exact .inl ⟨f, c, old, rfl⟩
      · exact .inr ⟨c, inside, fit, rfl⟩

/-- One request does what its command does. -/
theorem served_simulates (json : Json.Parser) :
    Simulates (serveNext json) (Service.perform fitContent) Bound (Carries json) Tells where
  step := by
    intro w s request ask bound carries
    cases carries with
    | record issues => exact record_simulates bound issues
    | submit post submits => exact submit_simulates bound post submits

end Step

/-! ## Requests at the same time -/

section Runs

variable {json : Json.Parser} {requests : List Request} {w t : World} {pool : Threads} {turns : Turns}

/-- Every request but a listing carries a command: it is well formed, its names are valid, and it
is no shutdown. -/
def AllCarry (json : Json.Parser) (requests : List Request) : Prop :=
  ∀ request ∈ requests, request.1 ≠ .userArticles → ∃ ask, Carries json request ask

/-- No command shuts the server down. -/
theorem AllCarry.stays (carry : AllCarry json requests) :
    ∀ request ∈ requests, request.1 ≠ .shutdown := by
  rintro ⟨route, req⟩ member rfl
  obtain ⟨ask, carries⟩ := carry _ member nofun
  cases carries with
  | record issues => cases issues

/-- The requests of an order, their commands and what these are told. -/
structure Answered (json : Json.Parser) (requests : List Request)
    (order : List (Nat × Except Fault HttpResponse)) (asks : List FeedAsk) : Prop where
  carried : List.Forall₂ (fun placed ask => ∃ request, requests[placed.1]? = some request ∧
    Carries json request ask) order asks
  told : List.Forall₂ (fun placed done => Tells placed.2 done.1) order
    (Machine.trace (Service.perform fitContent) Service.empty asks)

/-- Requests served one after the other are the service's commands one after the other. -/
theorem serial_answered (carry : AllCarry json requests)
    {order : List (Nat × Except Fault HttpResponse)}
    (serial : Serial succeed (handlers json requests) World.empty order t)
    (placed : ∀ p ∈ order, Placed requests p.1) :
    ∃ asks, Answered json requests order asks ∧ Bound t (serviceAfter asks) := by
  induction serial with
  | nil =>
      refine ⟨[], ⟨.nil, .nil⟩, ⟨rfl, nofun, ?_⟩, ?_⟩
      · intro key value
        simp [World.empty, serviceAfter, Machine.final, Service.empty, Subscriptions.empty]
      · intro key
        simp [World.empty, serviceAfter, Machine.final, Service.empty]
  | @snoc order i p outcome t t' _ program ran ih =>
      obtain ⟨asks, answered, bound⟩ := ih fun p member => placed p (List.mem_append_left _ member)
      obtain ⟨route, req, requestAt, notListing⟩ := placed (i, outcome) (by simp)
      obtain ⟨ask, carries⟩ := carry _ (List.mem_of_getElem? requestAt) notListing
      have served : serveNext json t (route, req) = (outcome, t') := by
        simp only [handlers, List.getElem?_map, requestAt, Option.map_some, Option.some.injEq] at program
        rw [← ran, ← program]
        rfl
      have step := (served_simulates json).step bound carries
      rw [served] at step
      refine ⟨asks ++ [ask], ⟨?_, ?_⟩, ?_⟩
      · exact List.rel_append answered.carried (.cons ⟨_, requestAt, carries⟩ .nil)
      · rw [Machine.trace_concat]
        exact List.rel_append answered.told (.cons step.1 .nil)
      · rw [serviceAfter, Machine.final_concat]
        exact step.2

/-- **The server is that service.** Let every request be a listing or carry a command: be well
formed, with valid names, and no shutdown. In any run of such requests from the empty databases
in which every database call succeeds and every record is put over the one that was read,
whatever listings run beside: the requests that have been answered, in the order of their last
calls, have the answers of the service to their commands in that order, and a request that was
answered before another began comes before it. The records are the service's, and once all have
been answered the articles are too. -/
theorem service_linear (carry : AllCarry json requests)
    (history : History succeeding Undisturbed (serve json requests) .empty turns pool w) :
    ∃ order asks, Answered json requests order asks ∧ Pool.InOrder turns (order.map Prod.fst) ∧
      (order.map Prod.fst).Nodup ∧
      (∀ i outcome, (i, outcome) ∈ order ↔ Placed requests i ∧
        ∃ log, pool[i]? = some ⟨.ofExcept outcome, log⟩) ∧
      Holds w (serviceAfter asks).subscriptions ∧
      ((∀ thread ∈ pool, thread.program.ended = true) →
        HoldsArticles w (serviceAfter asks).articles) := by
  obtain ⟨order, t, serialized, joint⟩ := serialized_joint carry.stays history
  obtain ⟨asks, answered, bound⟩ := serial_answered carry serialized.serial fun p member =>
    ((serialized.ended p.1 p.2).1 member).1
  refine ⟨order, asks, answered, serialized.inOrder, serialized.nodup, serialized.ended, ?_, ?_⟩
  · intro key value
    rw [← joint.uf]
    exact bound.tied.holds key value
  · intro ended key
    rw [← joint.fa_of_ended ended]
    exact bound.articles key

end Runs

theorem carries_plainSubscribe : Carries Json.reader plainSubscribe
    (.record (.subscribe (lit "u") [lit "a", lit "b"])) := by
  refine .record (.subscribe rfl (asked_eq_some_iff.1 ?_) (by decide))
  decide +kernel

theorem carries_plainSubmission : Carries Json.reader plainSubmission
    (.submit (lit "a") ([ascii "x"].map cstr)) :=
  .submit rfl submits_plainSubmission

/-- The listing is under way when the submission begins and when it ends. -/
theorem service_linear_beside : ∃ (turns : Turns) (pool : Threads) (w : World),
    History succeeding Undisturbed (serve Json.reader listingBeside) .empty turns pool w ∧
      ascii "a/x" ∈ w.fa.keys ∧
        ∃ order asks, Answered Json.reader listingBeside order asks ∧
          Pool.InOrder turns (order.map Prod.fst) ∧ (order.map Prod.fst).Nodup ∧
          (∀ i outcome, (i, outcome) ∈ order ↔ Placed listingBeside i ∧
            ∃ log, pool[i]? = some ⟨.ofExcept outcome, log⟩) ∧
          Holds w (serviceAfter asks).subscriptions ∧
          ((∀ thread ∈ pool, thread.program.ended = true) →
            HoldsArticles w (serviceAfter asks).articles) := by
  have carry : AllCarry Json.reader listingBeside := by
    intro request member notListing
    simp only [listingBeside, List.mem_cons, List.not_mem_nil, or_false] at member
    rcases member with rfl | rfl | rfl
    · exact ⟨_, carries_plainSubscribe⟩
    · exact ⟨_, carries_plainSubmission⟩
    · exact absurd rfl notListing
  obtain ⟨turns, history, -⟩ := Pool.history_play (S := calls) Undisturbed succeed
    succeeding_succeed (serve Json.reader listingBeside) .empty [0, 2, 0, 1, 0, 1, 2, 2, 2, 2]
  exact ⟨turns, _, _, history, by decide +kernel, service_linear carry history⟩

end Feedserver.Serving
