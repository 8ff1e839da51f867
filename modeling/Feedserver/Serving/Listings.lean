/-
# Serving.Listings — what get_articles answers once every request has been served

The run is of any number of requests in any order of turns, with valid names and no empty
content, no shutdown, and no database call failing (`Proper`, `succeeding`).

* `mem_fa_iff`: the article database is then the keys of the contents reported accepted.
* `articles_listed_iff`: for a user with a record, the answer lists the accepted contents of
  each of its feeds, exactly when these are `Unambiguous`.
* `prefix_feed_listed` is a run of alphanumeric names that is not: the article of `ab` is
  listed under `a`.
-/
import Feedserver.Articles.Accepted
import Feedserver.Articles.Reports
import Feedserver.Serving.Names
import Feedserver.Serving.Sequential
import Feedserver.Serving.Submission

namespace Feedserver.Serving

open Feedserver.Theory
open Feedserver.Source
open Feedserver.Records
open Feedserver.Articles
open Pool (Run)
open Program (exec)

set_option autoImplicit false

/-- A request with valid names and no empty content, and not to shut down. -/
structure Proper (json : Json.Parser) (request : Request) : Prop where
  stays : request.1 ≠ .shutdown
  names : ValidPayload json request
  contents : request.1 = .submit → ∀ contents, submitted json request.2.body = some contents →
    [] ∉ contents

/-- Some finished request submitted the content to the feed, and its response reports that
one accepted. -/
def Accepted (json : Json.Parser) (requests : List Request) (pool : Threads) (feed : CString)
    (content : Bytes) : Prop :=
  ∃ (i j : Nat) (req : HttpRequest) (res : HttpResponse) (log : List (Event calls))
    (contents : List Bytes) (flags : List Bool), requests[i]? = some (.submit, req) ∧
      pool[i]? = some ⟨.done res, log⟩ ∧ Submits json req feed contents ∧ Reports res flags ∧
        contents[j]? = some content ∧ flags[j]? = some true

section Runs

variable {json : Json.Parser} {requests : List Request} {w₀ w : World} {pool : Threads}
  {guard : Pool.Guard calls Fault HttpResponse World}

/-- When no database call fails, the log has no `Put` that did. -/
theorem puts_ok (run : Run succeeding guard (serve json requests) w₀ pool w) :
    ∀ thread ∈ pool, ∀ article s, putEvent article s ∈ thread.log → s = .ok := by
  have logged := (run.logged (J := fun _ => True)
    (P := fun e => ∀ article s, e = putEvent article s → s = .ok) trivial ?_ ?_).2
  · exact fun thread member article s inLog => logged thread member _ inLog article s rfl
  · intro pool w w' i c next log answer _ _ _ _ _ made
    refine ⟨trivial, ?_⟩
    intro article s same
    cases same
    cases made
    rfl
  · exact fun thread member => log_of_serve member

/-- Without a request to shut down, the flag stays as it is. -/
theorem up_of_run (stays : ∀ request ∈ requests, request.1 ≠ .shutdown)
    (run : Run honestCall guard (serve json requests) w₀ pool w) (up : w₀.feederShutdown = false) :
    w.feederShutdown = false := by
  induction run with
  | start => exact up
  | @step pool w w' i c next log answer before turn guarded made ih =>
      obtain ⟨-, rfl⟩ := made
      cases c with
      | setFeederShutdown =>
          obtain ⟨route, req, requestAt, -, makes⟩ := turn_makes before turn
          have other : route ≠ .shutdown := stays _ (List.mem_of_getElem? requestAt)
          cases route with
          | shutdown => exact absurd rfl other
          | _ => exact makes.elim
      | ufPut key value =>
          simp only [World.after]
          split <;> exact ih
      | faPut key =>
          simp only [World.after]
          split <;> exact ih
      | _ => exact ih

/-- A key that some thread put is that of a content it reports accepted. -/
theorem accepted_of_accepts (run : Run succeeding guard (serve json requests) w₀ pool w)
    {thread : Thread calls Fault HttpResponse} (member : thread ∈ pool)
    (ended : thread.program.ended = true) {key : Bytes} (inLog : accepts key ∈ thread.log) :
    ∃ feed content, Accepted json requests pool feed content ∧
      key = (articleKey feed (cstr content)).bytes := by
  obtain ⟨i, found⟩ := List.mem_iff_getElem?.1 member
  obtain ⟨route, req, requestAt, after⟩ := thread_of_run run found
  have makes : Makes route (.faPut key) := ((handle_makes json route req).after after).1 _ inLog
  obtain rfl : route = .submit := by
    cases route with
    | submit => rfl
    | _ => exact makes.elim
  obtain ⟨outcome, same⟩ := Program.outcome_of_ended ended
  rw [same] at after
  rcases finished_submission after (puts_ok run thread member) with
    ⟨none, -⟩ | ⟨feed, contents, res, submits, rfl, reports, puts⟩
  · exact absurd inLog (none key)
  · obtain ⟨content, there, valid, rfl⟩ := (puts key).1 inLog
    obtain ⟨j, at_j⟩ := List.mem_iff_getElem?.1 there
    refine ⟨feed, content, ⟨i, j, req, res, thread.log, contents, _, requestAt, ?_, submits,
      reports, at_j, ?_⟩, rfl⟩
    · rw [found, ← show thread.program = .done res from same]
    · rw [List.getElem?_map, at_j, Option.map_some, valid]

theorem accepts_of_accepted (run : Run succeeding guard (serve json requests) w₀ pool w)
    {feed : CString} {content : Bytes} (took : Accepted json requests pool feed content) :
    ∃ thread ∈ pool, accepts (articleKey feed (cstr content)).bytes ∈ thread.log := by
  obtain ⟨i, j, req, res, log, contents, flags, requestAt, found, submits, reports, at_j, flag⟩ :=
    took
  have member := List.mem_of_getElem? found
  obtain ⟨route, req', requestAt', after⟩ := thread_of_run run found
  rw [requestAt] at requestAt'
  cases requestAt'
  have finished : Program.Finishes (submitArticles json req) log (.ok res) := after
  rcases finished_submission finished (puts_ok run _ member) with
    ⟨-, declined⟩ | ⟨feed', contents', res', submits', answered, reports', puts⟩
  · exact absurd reports.1 (declined res rfl)
  · cases answered
    obtain ⟨rfl, rfl⟩ := submits.unique submits'
    obtain rfl := reports_inj reports reports'
    refine ⟨_, member, (puts _).2 ⟨content, List.mem_of_getElem? at_j, ?_, rfl⟩⟩
    rw [List.getElem?_map, at_j, Option.map_some] at flag
    exact Option.some.inj flag

/-- After a run from the empty databases, the articles are those reported accepted. -/
theorem mem_fa_iff (run : Run succeeding guard (serve json requests) .empty pool w)
    (ended : ∀ thread ∈ pool, thread.program.ended = true) (key : Bytes) :
    key ∈ w.fa ↔ ∃ feed content, Accepted json requests pool feed content ∧
      key = (articleKey feed (cstr content)).bytes := by
  have added := (run.mono honest_of_succeeding).accumulates (fun w k => k ∈ w.fa) Adds
    (fun _ _ _ _ => fa_after) key
  have adds (e : Event calls) : Adds e key ↔ e = accepts key := by
    obtain ⟨c, answer⟩ := e
    constructor
    · intro adds
      cases c with
      | faPut k =>
          obtain ⟨rfl, rfl⟩ := adds
          rfl
      | _ => exact adds.elim
    · rintro ⟨⟩
      exact ⟨rfl, rfl⟩
  rw [added]
  simp only [World.empty, OrderedKeys.not_mem_empty, false_or, adds]
  constructor
  · rintro ⟨thread, member, e, inLog, rfl⟩
    exact accepted_of_accepts run member (ended thread member) inLog
  · rintro ⟨feed, content, took, rfl⟩
    obtain ⟨thread, member, inLog⟩ := accepts_of_accepted run took
    exact ⟨thread, member, _, inLog, rfl⟩

theorem keeps_of_run (proper : ∀ request ∈ requests, Proper json request)
    (run : Run succeeding guard (serve json requests) .empty pool w)
    (ended : ∀ thread ∈ pool, thread.program.ended = true) :
    KeepsAccepted w.fa (Accepted json requests pool) where
  mem_iff := mem_fa_iff run ended
  valid := fun ⟨_, _, _, _, _, _, _, _, _, submits, _⟩ => submits.valid
  nonempty := by
    rintro feed content ⟨i, j, req, res, log, contents, flags, requestAt, -, submits, -, at_j, -⟩ rfl
    have member := List.mem_of_getElem? requestAt
    exact (proper _ member).contents rfl contents submits.contents (List.mem_of_getElem? at_j)

/-- **The rows are the accepted articles.** Once every request has been served, a user with a
record is answered the accepted contents of its feeds, exactly when none of its feeds is in
front of another feed's name and no content has a NUL byte. -/
theorem articles_listed_iff (proper : ∀ request ∈ requests, Proper json request)
    (run : Run succeeding Pool.anyStep (serve json requests) .empty pool w)
    (ended : ∀ thread ∈ pool, thread.program.ended = true) {user : CString} {value : Bytes}
    (stored : w.uf user.bytes = some value) {req : HttpRequest} (get : req.method = .get)
    (locates : Locates req user) :
    ∃ p, ufPairFromDbvalue json value = .ok (some p) ∧ p.user = user ∧
      (Lists (Accepted json requests pool) p.feeds req (exec succeed (getArticles json req) w).1 ↔
        Unambiguous (Accepted json requests pool) p.feeds) := by
  have honest := run.mono honest_of_succeeding
  have names := stored_of_valid (fun request member => (proper request member).names) honest
  obtain ⟨user', feeds, key, rfl, isUser, areFeeds⟩ := names _ _ stored
  obtain rfl : user = user' := CString.ext key
  have read := Stored.read json (fun _ => ValidName.plain) (fun _ => ValidName.plain) isUser areFeeds
  have up := up_of_run (fun request member => (proper request member).stays) honest rfl
  have answered : exec succeed (getArticles json req) w = exec succeed
      (listArticles json req (dbText (pairOf user feeds))) w :=
    exec_lookup_found get locates isUser up stored (dbText_ne_nil _)
  refine ⟨_, read, rfl, ?_⟩
  rw [answered]
  exact lists_iff (keeps_of_run proper run ended) areFeeds feeds.nodup read

end Runs

theorem proper_plainSubscribe : Proper Json.reader plainSubscribe where
  stays := nofun
  names := validPayload_plainSubscribe
  contents := nofun

theorem proper_submit {req : HttpRequest} {contents : List Bytes}
    (read : submitted Json.reader req.body = some contents) (some_ : [] ∉ contents) :
    Proper Json.reader (.submit, req) where
  stays := nofun
  names := nofun
  contents _ contents' same := by
    obtain rfl : contents = contents' := Option.some.inj (read.symm.trans same)
    exact some_

/-- Both requests of a run that subscribes and then submits are proper. -/
theorem proper_pair {req : HttpRequest} {contents : List Bytes}
    (read : submitted Json.reader req.body = some contents) (some_ : [] ∉ contents) :
    ∀ request ∈ [plainSubscribe, (.submit, req)], Proper Json.reader request := by
  intro request member
  rcases List.mem_cons.1 member with rfl | member
  · exact proper_plainSubscribe
  · rw [List.mem_singleton.1 member]
    exact proper_submit read some_

theorem submits_plainSubmission :
    Submits Json.reader plainSubmission.2 (lit "a") [ascii "x"] where
  located := ⟨by decide, ascii "feed", ascii "HTTP/1.1", by decide +kernel, by decide, by decide⟩
  valid := by decide
  contents := by decide +kernel

theorem accepted_plainSubmission {pool : Threads} {feed : CString} {content : Bytes}
    (took : Accepted Json.reader [plainSubscribe, plainSubmission] pool feed content) :
    feed = lit "a" ∧ content = ascii "x" := by
  obtain ⟨i, j, req, res, log, contents, flags, requestAt, -, submits, -, at_j, -⟩ := took
  obtain rfl : plainSubmission.2 = req := by
    match i, requestAt with
    | 0, same => cases same
    | 1, same => cases same; rfl
  obtain ⟨rfl, rfl⟩ := submits_plainSubmission.unique submits
  exact ⟨rfl, List.mem_singleton.1 (List.mem_of_getElem? at_j)⟩

/-- The one accepted article is listed, under the first of the user's two feeds. -/
theorem articles_listed_plain : ∃ (pool : Threads) (w : World) (p : UfPair),
    Run succeeding Pool.anyStep (serve Json.reader [plainSubscribe, plainSubmission]) .empty pool w ∧
      p.feeds = [lit "a", lit "b"] ∧
        Accepted Json.reader [plainSubscribe, plainSubmission] pool (lit "a") (ascii "x") ∧
          Lists (Accepted Json.reader [plainSubscribe, plainSubmission] pool) p.feeds askArticles
            (exec succeed (getArticles Json.reader askArticles) w).1 := by
  let requests := [plainSubscribe, plainSubmission]
  let w := (played requests [0, 0, 0, 1, 1]).2
  have run := played_succeeding requests [0, 0, 0, 1, 1]
  have ended : ∀ thread ∈ (played requests [0, 0, 0, 1, 1]).1, thread.program.ended = true := by
    decide +kernel
  have proper := proper_pair submits_plainSubmission.contents (by decide)
  have stored : w.uf (lit "u").bytes = some (dbText plainPair) := by decide +kernel
  obtain ⟨p, read, -, lists⟩ :=
    articles_listed_iff proper run ended stored rfl locates_askArticles
  obtain rfl : plainPair = p := by
    rw [read_plainPair] at read
    exact Option.some.inj (Except.ok.inj read)
  refine ⟨_, w, _, run, rfl, ?_, lists.2 fun f member => ⟨?_, ?_⟩⟩
  · have there : ascii "a/x" ∈ w.fa.keys := by decide +kernel
    obtain ⟨feed, content, took, -⟩ := (mem_fa_iff run ended (ascii "a/x")).1 there
    obtain ⟨rfl, rfl⟩ := accepted_plainSubmission took
    exact took
  · intro c took
    rw [(accepted_plainSubmission took).2]
    decide
  · intro g c took front
    obtain ⟨rfl, -⟩ := accepted_plainSubmission took
    revert f
    decide

/-- The content `x`, submitted to the feed `ab`. -/
def prefixedSubmission : Request :=
  (.submit, postFeed "ab" "\x7b\"articles\":[\x7b\"content\":\"x\"\x7d]\x7d")

/-- The article of `ab` gets into the answer to a user of `a`. -/
theorem prefix_feed_listed : ¬ ∀ (requests : List Request) (pool : Threads) (w : World)
    (user : CString) (value : Bytes) (req : HttpRequest) (p : UfPair),
    (∀ request ∈ requests, Proper Json.reader request) →
      Run succeeding Pool.anyStep (serve Json.reader requests) .empty pool w →
        (∀ thread ∈ pool, thread.program.ended = true) → w.uf user.bytes = some value →
          ufPairFromDbvalue Json.reader value = .ok (some p) → req.method = .get →
            Locates req user → Lists (Accepted Json.reader requests pool) p.feeds req
              (exec succeed (getArticles Json.reader req) w).1 := by
  intro all
  let requests := [plainSubscribe, prefixedSubmission]
  let w := (played requests [0, 0, 0, 1, 1]).2
  have run := played_succeeding requests [0, 0, 0, 1, 1]
  have ended : ∀ thread ∈ (played requests [0, 0, 0, 1, 1]).1, thread.program.ended = true := by
    decide +kernel
  have payload : submitted Json.reader prefixedSubmission.2.body = some [ascii "x"] := by
    decide +kernel
  have proper := proper_pair payload (by decide)
  have stored : w.uf (lit "u").bytes = some (dbText plainPair) := by decide +kernel
  have lists := all _ _ _ _ _ _ _ proper run ended stored read_plainPair rfl locates_askArticles
  -- the article under `a` is another feed's, so the answer is not what was accepted
  have keeps := keeps_of_run proper run ended
  have answered : exec succeed (getArticles Json.reader askArticles) w = exec succeed
      (listArticles Json.reader askArticles (dbText plainPair)) w :=
    exec_lookup_found rfl locates_askArticles (by decide) (by decide +kernel) stored (dbText_ne_nil _)
  have clear : Unambiguous _ plainPair.feeds :=
    (lists_iff keeps (by decide) (by decide) read_plainPair).1 (by rw [← answered]; exact lists)
  have there : ascii "ab/x" ∈ w.fa.keys := by decide +kernel
  obtain ⟨feed, content, took, same⟩ := (mem_fa_iff run ended (ascii "ab/x")).1 there
  have key : (articleKey (lit "ab") (lit "x")).bytes = ascii "ab/x" := by decide +kernel
  obtain ⟨rfl, -⟩ := articleKey_inj (by decide) (keeps.valid took).no_slash (key.trans same)
  have impossible := (clear (lit "a") (by decide)).2 _ _ took (by decide)
  revert impossible
  decide

end Feedserver.Serving
