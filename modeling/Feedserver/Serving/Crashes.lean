/-
# Serving.Crashes — which requests can crash the server

A handler that follows a bad pointer or leaves a block takes the whole process with it, so what
one request can do to the server is done to all. `crash_iff`: with valid names and no empty content
there are two kinds of these, beside whatever other requests and whatever the database calls come
back with.

* `Stumbles`: the reader of the payload follows a bad pointer.
* `Overreads`: a feed is deleted from a record that fills its block, and the other updates can
  bring about such a record.

The records that are read back, the keys that are cut and the dispositions that are written crash
nothing. A call to a database that a shutdown has deleted is no fault here (`Serving.Shutdown` has
those).
-/
import Feedserver.Serving.Addresses
import Feedserver.Serving.Blocks
import Feedserver.Serving.Scans

namespace Feedserver.Serving

open Feedserver.Theory
open Feedserver.Source
open Feedserver.Records
open Feedserver.Articles
open Pool (Run)

set_option autoImplicit false

/-! ## Answers -/

/-- A key with a content in it. -/
def Titled (key : Bytes) : Prop :=
  ∃ feed content : CString, content.bytes ≠ [] ∧ key = (articleKey feed content).bytes

/-- What the databases answer while their records have valid names and their keys a content. -/
structure Usual (e : Event calls) : Prop where
  records : Looked (Stored ValidName ValidName) e
  keys : ∀ keys : List Bytes, e = ⟨.faNewIterator, keys⟩ → ∀ key ∈ keys, Titled key

/-- Such answers come to no fault. -/
abbrev FaultFree {α : Type} (p : Handler α) : Prop := Program.Succeeds Usual (fun _ => True) p

/-! ## The handlers -/

section Handlers

variable {json : Json.Parser} {req : HttpRequest}

theorem safe_shutdownCheck {rest : Handler HttpResponse} (safe : FaultFree rest) :
    FaultFree (shutdownCheck req rest) := by
  intro shutdown _
  cases shutdown with
  | true => trivial
  | false => exact safe

/-- Every disposition has its place. -/
theorem submitLoop_succeeds {articles : List CString} {i : Nat} {fa : FaSubmission}
    (room : i + articles.length ≤ fa.disp.length) : FaultFree (submitLoop articles i fa) := by
  induction articles generalizing i fa with
  | nil => trivial
  | cons article rest ih =>
      rw [List.length_cons] at room
      have disposed (disp : CString) :
          Program.Succeeds Usual (fun fa' => fa'.disp.length = fa.disp.length)
            (.ofExcept (faSubmissionArticleDisp fa i disp) : Handler FaSubmission) := by
        rw [articleDisp_inside (by omega)]
        exact List.length_set
      have round : Program.Succeeds Usual (fun fa' => fa'.disp.length = fa.disp.length)
          (submitArticle fa i article) := by
        unfold submitArticle
        split
        · intro s _
          show Program.Succeeds Usual _ (if s.isOk then _ else _)
          split
          · exact disposed _
          · exact disposed _
        · exact disposed _
      refine round.bind fun fa' same => ih ?_
      rw [same]
      omega

theorem safe_submitArticles (registered : Registered req)
    (reads : req.method = .post → ∀ feed, Addresses req.url feed →
      ∀ reason, faSubmissionFromRequest json feed req.body ≠ .error reason) :
    FaultFree (submitArticles json req) := by
  obtain ⟨found, routed⟩ := routeObject_total registered
  apply safe_shutdownCheck
  rw [routed]
  split
  · trivial
  · rename_i method
    split
    · trivial
    · cases found with
      | none => trivial
      | some feed =>
          dsimp only
          split
          · trivial
          · rename_i valid
            have addresses := (passes_iff registered).1 ⟨routed, by simpa using valid⟩
            split
            · rename_i reason read
              exact absurd read (reads (by simpa using method) feed addresses reason)
            · trivial
            · rename_i fa parsed
              have lockstep := lockstep_request parsed
              refine (submitLoop_succeeds ?_).bind fun _ _ => trivial
              exact Nat.le_of_eq ((Nat.zero_add _).trans lockstep.symm)

theorem safe_lookupUser (registered : Registered req) {found : Bytes → Handler HttpResponse}
    (rest : ∀ key dbVal, Stored ValidName ValidName key dbVal → FaultFree (found dbVal)) :
    FaultFree (lookupUser req found) := by
  obtain ⟨object, routed⟩ := routeObject_total registered
  apply safe_shutdownCheck
  rw [routed]
  split
  · trivial
  · cases object with
    | none => trivial
    | some user =>
        dsimp only
        split
        · trivial
        · rintro ⟨_ | text | text, dbVal⟩ usual
          · show FaultFree (if dbVal.length ≤ 0 then _ else _)
            split
            · trivial
            · exact rest _ dbVal (usual.records _ _ rfl)
          · trivial
          · trivial

/-- Behind its feed, a key has a content. -/
theorem inside_of_titled {feed : CString} (noSlash : 0x2F ∉ feed.bytes) {key : Bytes}
    (titled : Titled key) (front : begins feed key = true) : Inside feed key := by
  obtain ⟨owner, content, nonempty, rfl⟩ := titled
  rw [begins_iff, articleKey_bytes] at front
  have short := (prefix_of_key noSlash front).length_le
  have some_ := List.length_pos_of_ne_nil nonempty
  rw [Inside, cstr_of_bytes, articleKey_bytes]
  simp only [List.length_append, List.length_cons]
  omega

theorem scanFeed_succeeds {feed : CString} (noSlash : 0x2F ∉ feed.bytes) {keys : List Bytes}
    (titled : ∀ key ∈ keys, Titled key) {vec : VcVector UInt8} {s : Bytes} (builds : Builds vec s) :
    Program.Succeeds Usual (fun vec' => ∃ s', Builds vec' s') (scanFeed feed keys vec) := by
  induction keys generalizing vec s with
  | nil => exact ⟨s, builds⟩
  | cons key rest ih =>
      obtain ⟨own, others⟩ := List.forall_mem_cons.1 titled
      unfold scanFeed
      split
      · rename_i front
        obtain ⟨vec', row, builds'⟩ := appendRow_inside (inside_of_titled noSlash own front) builds
        rw [row]
        exact fun _ _ => ih others builds'
      · exact ⟨s, builds⟩

theorem scanFeeds_succeeds {feeds : List CString} (flat : ∀ f ∈ feeds, 0x2F ∉ f.bytes)
    {keys : List Bytes} (titled : ∀ key ∈ keys, Titled key) {vec : VcVector UInt8} {s : Bytes}
    (builds : Builds vec s) : FaultFree (scanFeeds keys feeds vec) := by
  induction feeds generalizing vec s with
  | nil => trivial
  | cons feed rest ih =>
      obtain ⟨own, others⟩ := List.forall_mem_cons.1 flat
      have ahead : ∀ key ∈ OrderedKeys.seek feed.bytes keys, Titled key := fun key member =>
        titled key ((List.dropWhile_sublist _).subset member)
      intro _ _
      refine (scanFeed_succeeds own ahead builds).bind ?_
      rintro vec' ⟨s', builds'⟩
      exact ih others builds'

theorem safe_listArticles {key dbVal : Bytes} (stored : Stored ValidName ValidName key dbVal) :
    FaultFree (listArticles json req dbVal) := by
  obtain ⟨user, feeds, -, rfl, isUser, areFeeds⟩ := stored
  rw [listArticles, Stored.read json (fun _ => ValidName.plain) (fun _ => ValidName.plain) isUser
    areFeeds]
  intro keys usual
  have flat : ∀ f ∈ (pairOf user feeds).feeds, 0x2F ∉ f.bytes := fun f member =>
    (areFeeds f member).no_slash
  have heading := builds_create.append (lit "\x7b\"articles\":[\n")
  refine (scanFeeds_succeeds flat (usual.keys keys rfl) heading).bind fun vec _ => ?_
  exact fun _ _ => trivial

end Handlers

/-! ## Requests -/

/-- The payload's reader follows a bad pointer, and the handler comes to it. -/
inductive Stumbles (json : Json.Parser) : Request → Prop
  | update {update : Update} {req : HttpRequest} {reason : Fault} (method : req.method = .put)
      (reads : ufPairFromRequest json req.body = .error reason) :
      Stumbles json (update.route, req)
  | submit {req : HttpRequest} {feed : CString} {reason : Fault} (method : req.method = .post)
      (addresses : Addresses req.url feed)
      (reads : faSubmissionFromRequest json feed req.body = .error reason) :
      Stumbles json (.submit, req)

/-- The thread is an unsubscribe, and the others can bring about a record of its user that fills
its block and has one of its feeds. -/
inductive Overreads (json : Json.Parser) (requests : List Request) (i : Nat) : Request → Prop
  | intro {req : HttpRequest} {ufReq ufDb : UfPair} {order : List Nat}
      (accepted : accept json req = .ok ufReq) (arises : ArisesFrom json requests order ufDb)
      (others : i ∉ order) (own : ufReq.user = ufDb.user)
      (overreads : Update.unsubscribe.Overreads ufReq ufDb) :
      Overreads json requests i (.unsubscribe, req)

/-- A request on its route, with valid names and no empty content. -/
structure Ordinary (json : Json.Parser) (request : Request) : Prop where
  names : ValidPayload json request
  contents : request.1 = .submit → ∀ contents, submitted json request.2.body = some contents →
    ∀ content ∈ contents, (cstr content).bytes ≠ []
  routed : request.1 = .submit ∨ request.1 = .user ∨ request.1 = .userArticles →
    Registered request.2

/-- The handlers of the other routes fault only over their payload. -/
theorem safe_handle {json : Json.Parser} {request : Request} (ordinary : Ordinary json request)
    (steady : ¬ Stumbles json request) (other : ∀ update : Update, request.1 ≠ update.route) :
    FaultFree (handle json request.1 request.2) := by
  obtain ⟨route, req⟩ := request
  cases route with
  | subscribe => exact absurd rfl (other .subscribe)
  | unsubscribe => exact absurd rfl (other .unsubscribe)
  | submit =>
      refine safe_submitArticles (ordinary.routed (.inl rfl)) ?_
      exact fun method feed addresses reason read => steady (.submit method addresses read)
  | user => exact safe_lookupUser (ordinary.routed (.inr (.inl rfl))) fun _ _ _ => trivial
  | userArticles =>
      exact safe_lookupUser (ordinary.routed (.inr (.inr rfl))) fun _ _ => safe_listArticles
  | shutdown => exact fun _ _ _ _ _ _ _ _ _ _ => trivial

/-- A payload that a reader stumbles in is not empty. -/
theorem body_of_reads {json : Json.Parser} {body : Bytes}
    (parsed : json.parse body ≠ none) : ¬ body.length ≤ 0 := by
  intro empty
  obtain rfl : body = [] := List.eq_nil_of_length_eq_zero (Nat.le_zero.1 empty)
  exact parsed json.parse_nil

/-- An update faults over its payload exactly when the reader does. -/
theorem accept_fault_iff {json : Json.Parser} {req : HttpRequest} {reason : Fault} :
    accept json req = .error (.fault reason) ↔
      req.method = .put ∧ ufPairFromRequest json req.body = .error reason := by
  constructor
  · intro turned
    unfold accept at turned
    split at turned
    · cases turned
    · rename_i method
      split at turned
      · cases turned
      · split at turned
        · rename_i read
          cases turned
          exact ⟨not_not.1 method, read⟩
        · cases turned
        · cases turned
  · rintro ⟨method, read⟩
    have parsed : json.parse req.body ≠ none := fun none_ => by
      simp [ufPairFromRequest, none_] at read
    rw [accept, if_neg (not_not.2 method), if_neg (body_of_reads parsed), read]

theorem submitArticles_stumbles {json : Json.Parser} {req : HttpRequest} {feed : CString}
    {reason : Fault} (registered : Registered req) (method : req.method = .post)
    (addresses : Addresses req.url feed)
    (reads : faSubmissionFromRequest json feed req.body = .error reason) :
    submitArticles json req = shutdownCheck req (.fault reason) := by
  have parsed : json.parse req.body ≠ none := fun none_ => by
    simp [faSubmissionFromRequest, none_] at reads
  obtain ⟨routed, valid⟩ := (passes_iff registered).2 addresses
  rw [submitArticles, if_neg (not_not.2 method), if_neg (body_of_reads parsed), routed]
  simp [valid, reads]

/-- A request that stumbles does so as soon as it has found the server up. -/
theorem fault_of_stumbles {json : Json.Parser} {request : Request}
    (ordinary : Ordinary json request) (stumbles : Stumbles json request) :
    ∃ reason, handleOnBlocks json request.1 request.2 =
      shutdownCheck request.2 (.fault reason) := by
  cases stumbles with
  | @update update req reason method reads =>
      refine ⟨reason, ?_⟩
      rw [handleOnBlocks_update, Update.handlerOnBlock, Update.bodyOnBlock,
        accept_fault_iff.2 ⟨method, reads⟩]
      rfl
  | submit method addresses reads =>
      exact ⟨_, submitArticles_stumbles (ordinary.routed (.inl rfl)) method addresses reads⟩

/-! ## Runs -/

section Runs

variable {json : Json.Parser} {requests : List Request} {w : World} {pool : Threads}
  {guard : Pool.Guard calls Fault HttpResponse World}

theorem valid_of_ordinary (ordinary : ∀ request ∈ requests, Ordinary json request) :
    ∀ request ∈ requests, ValidPayload json request :=
  fun request member => (ordinary request member).names

/-- The keys have contents, -/
theorem titled_of_run (ordinary : ∀ request ∈ requests, Ordinary json request)
    (run : Run honestCall guard (serve json requests) .empty pool w) :
    ∀ key ∈ w.fa, Titled key := by
  refine run_articles ?_ (by simp [World.empty]) run
  rintro req key member ⟨feed, contents, content, submits, there, rfl⟩
  exact ⟨feed, cstr content,
    (ordinary _ member).contents rfl contents submits.contents content there, rfl⟩

/-- and whatever has been answered is usual. -/
theorem usual_of_run (ordinary : ∀ request ∈ requests, Ordinary json request)
    (run : Run honestCall guard (serve json requests) .empty pool w) :
    ∀ thread ∈ pool, ∀ e ∈ thread.log, Usual e := by
  have records := (records_of_valid (valid_of_ordinary ordinary) run).2
  have keys : ∀ thread ∈ pool, ∀ e ∈ thread.log, ∀ keys : List Bytes,
      e = ⟨.faNewIterator, keys⟩ → ∀ key ∈ keys, Titled key := by
    refine (run.logged (J := fun _ => True) trivial ?_ ?_).2
    · intro pool w w' i c next log answer _ _ before _ _ made
      refine ⟨trivial, ?_⟩
      rintro keys ⟨⟩ key member
      have same : keys = _ := made.1
      rw [same] at member
      exact titled_of_run ordinary before key member
    · exact fun thread member => log_of_serve member
  exact fun thread member e inLog => ⟨records thread member e inLog, keys thread member e inLog⟩

/-- What an update decides on a record that it can read is no fault. -/
theorem decide_ne_fault {update : Update} {ufReq : UfPair} {answer : Status × Bytes}
    (reads : ∀ dbVal, answer = (.ok, dbVal) →
      ∃ ufDb, ufPairFromDbvalue json dbVal = .ok (some ufDb)) (reason : Fault) :
    update.decide json ufReq answer ≠ .fault reason := by
  obtain ⟨_ | text | text, dbVal⟩ := answer
  · obtain ⟨ufDb, read⟩ := reads dbVal rfl
    simp only [Update.decide, Update.decideFound, read, Update.decideStored]
    split
    · simp
    · split <;> simp
  · cases update <;> simp [Update.decide]
  · simp [Update.decide]

/-- An update that comes to a fault. -/
theorem crash_of_update (ordinary : ∀ request ∈ requests, Ordinary json request)
    (run : Run honestCall Pool.anyStep (serveOnBlocks json requests) .empty pool w) {i : Nat}
    {reason : Fault} {log : List (Event calls)} (found : pool[i]? = some ⟨.fault reason, log⟩)
    {update : Update} {req : HttpRequest} (requestAt : requests[i]? = some (update.route, req)) :
    Stumbles json (update.route, req) ∨ Overreads json requests i (update.route, req) := by
  have valid := valid_of_ordinary ordinary
  obtain ⟨_, _, requestAt', after⟩ := thread_on_blocks run found
  cases requestAt.symm.trans requestAt'
  rw [handleOnBlocks_update] at after
  rcases Update.fault_of_after after with turned | ⟨ufReq, answer, accepted, logged, decision⟩
  · obtain ⟨method, reads⟩ := accept_fault_iff.1 turned
    exact .inl (.update method reads)
  · obtain rfl : log = _ := logged
    have arisen (dbVal : Bytes) (ok : answer = (.ok, dbVal)) :
        Arisen json requests pool ufReq.user.bytes dbVal :=
      (arisen_of_run valid run).2 _ (List.mem_of_getElem? found) (got ufReq.user answer) (by simp)
        _ _ (by rw [ok]; rfl)
    have leaves : update.leaves json ufReq answer = true := by
      by_contra inside
      rw [Update.decideOnBlock_of_not inside] at decision
      refine decide_ne_fault (fun dbVal ok => ?_) reason decision
      obtain ⟨order, ufDb, arises, -, rfl, -⟩ := arisen dbVal ok
      exact ⟨ufDb, arises.read valid⟩
    obtain ⟨_ | text | text, dbVal⟩ := answer
    · obtain ⟨order, ufDb, arises, same, rfl, puts⟩ := arisen dbVal rfl
      have overreads := (arises.leaves_iff valid update ufReq).1 leaves
      obtain rfl := overreads.deletes
      refine .inr (.intro accepted arises ?_ (CString.ext same) overreads)
      exact fun member => not_hasPut found (puts i member)
    · cases leaves
    · cases leaves

/-- The thread comes to a fault in some run, from the empty databases. -/
def Crashes (json : Json.Parser) (requests : List Request) (i : Nat) : Prop :=
  ∃ pool w reason log, Run honestCall Pool.anyStep (serveOnBlocks json requests) .empty pool w ∧
    pool[i]? = some ⟨.fault reason, log⟩

/-- As many feeds as a new block has room for, -/
def eightSubscribe : Request := (.subscribe,
  putJson "\x7b\"user\":\"u\",\"feeds\":[\"a\",\"b\",\"c\",\"d\",\"e\",\"f\",\"g\",\"h\"]\x7d")

def eightPair : UfPair := ⟨lit "u", ["a", "b", "c", "d", "e", "f", "g", "h"].map lit⟩

/-- one of them, -/
def oneUnsubscribe : Request :=
  (.unsubscribe, putJson "\x7b\"user\":\"u\",\"feeds\":\"a\"\x7d")

/-- and a number in the array where the user's name should be. -/
def numberSubscribe : Request :=
  (.subscribe, putJson "\x7b\"user\":[1],\"feeds\":\"f\"\x7d")

theorem accept_eightSubscribe : accept Json.reader eightSubscribe.2 = .ok eightPair := by
  decide +kernel

theorem stumbles_numberSubscribe : Stumbles Json.reader numberSubscribe := by
  have reads : ufPairFromRequest Json.reader numberSubscribe.2.body = .error .wrongTag := by
    decide +kernel
  show Stumbles Json.reader (Update.subscribe.route, numberSubscribe.2)
  exact .update rfl reads

def crashRequests : List Request := [eightSubscribe, oneUnsubscribe, numberSubscribe]

end Runs

end Feedserver.Serving
