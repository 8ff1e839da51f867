/-
# Memory.FeedServer — what the handlers allocate and free

The handlers of `Source.FeedServer` with what they allocate: the pairs, the submissions, the
parsed trees and the texts of the other modules, the name that `route_object` copies, the
iterator and the copy of each key it comes to.

`handle_tracks`: whatever the databases answer, each handler does what the one of `Source`
does, uses nothing that it has freed, and ends with nothing left of what it has allocated.
-/
import Feedserver.Memory.FeedArticle

namespace Feedserver.Memory

open Feedserver.Theory
open Ownership (Held Tracks Keeps acquire read release ask)
open Source (HttpRequest HttpResponse Status calls decline)

set_option autoImplicit false

/-! ## Names in URIs -/

/-- `free` of a string. -/
def free (s : Held CString) : Owned Unit := release s

/-- `route_object`: the part of the URI is copied, and the name is copied out of that. -/
def routeObject (uri : CString) (uriLength : Nat) : Owned (Option (Held CString)) :=
  if uriLength ≤ 1 then return none
  else
    match uri.bytes with
    | [] => return none
    | slash :: haystack =>
        if slash ≠ 0x2F then return none
        else
          match Source.strchr haystack 0x20 with
          | none => return none
          | some needleEnd =>
              if needleEnd > 0 then do
                let haystack ← acquire (haystack.take needleEnd)
                let part ← read haystack
                match Source.strchr part 0x2F with
                | none => do
                    release haystack
                    return none
                | some needle => do
                    let part ← read haystack
                    let object ← acquire (cstr (part.drop (needle + 1)))
                    release haystack
                    return some object
              else .fault .badFree

/-! ## 1. Subscribe and unsubscribe -/

def shutdownCheck (req : HttpRequest) (handler : Owned HttpResponse) : Owned HttpResponse := do
  let shutdown : Bool ← ask (S := calls) .feederShutdown
  if shutdown then return decline .status503 (lit "Shutting down!") req else handler

def ufGet (key : CString) : Owned (Status × Bytes) := ask (S := calls) (.ufGet key.bytes)

/-- `Put` of a pair's text under its user. -/
def ufPut (uf : UfPair) (vecUfRes : VcString) : Owned Status := do
  let pair ← read uf
  let text ← read vecUfRes
  ask (S := calls) (.ufPut pair.user.bytes (Source.vcStringBegin text).bytes)

/-- The end of both handlers that answer with a text. -/
def respondUser (req : HttpRequest) (ufReq : UfPair) (vecUfRes : VcString) :
    Owned HttpResponse := do
  let text ← read vecUfRes
  let res := Source.respondJson text (Source.vcVectorSize text) req
  vcStringRelease vecUfRes
  ufPairRelease ufReq
  return res

/-- `subscribe_user` of a user that is not there. -/
def putUser (req : HttpRequest) (ufReq : UfPair) : Owned HttpResponse := do
  let vecUfRes ← ufPairToDbvalue ufReq Source.USER_URI Source.FEED_URI
  let s ← ufPut ufReq vecUfRes
  if s.isOk then respondUser req ufReq vecUfRes
  else do
    ufPairRelease ufReq
    vcStringRelease vecUfRes
    return decline .status500 s.toCStr req

/-- The loop over the request's feeds. -/
def editFeeds (edit : Source.UfPair → CString → Source.UfPair × Bool) (ufReq : UfPair) :
    List CString → UfPair × Bool → Owned (UfPair × Bool)
  | [], state => return state
  | feed :: rest, (uf, changed) => do
      let feed ← borrow ufReq feed
      let (uf, edited) ← ufPairEdit edit uf feed
      editFeeds edit ufReq rest (uf, edited || changed)

/-- The stored pair has changed, and is put back. -/
def putEdited (req : HttpRequest) (ufReq ufDb : UfPair) : Owned HttpResponse := do
  let vecUfRes ← ufPairToDbvalue ufDb Source.USER_URI Source.FEED_URI
  let s ← ufPut ufDb vecUfRes
  if s.isOk then do
    ufPairRelease ufDb
    respondUser req ufReq vecUfRes
  else do
    ufPairRelease ufReq
    ufPairRelease ufDb
    vcStringRelease vecUfRes
    return decline .status500 s.toCStr req

/-- A stored value was found. -/
def editUser (json : Json.Parser) (edit : Source.UfPair → CString → Source.UfPair × Bool)
    (unchanged : String) (req : HttpRequest) (ufReq : UfPair) (dbVal : Bytes) :
    Owned HttpResponse := do
  match ← ufPairFromDbvalue json dbVal with
  | none => do
      ufPairRelease ufReq
      return decline .status500 (lit "uf_pair_from_dbvalue(uf_db) fail!") req
  | some ufDb => do
      let wanted ← read ufReq
      let (ufDb, changed) ← editFeeds edit ufReq wanted.feeds (ufDb, false)
      if changed then putEdited req ufReq ufDb
      else do
        ufPairRelease ufReq
        ufPairRelease ufDb
        return decline .status304 (lit unchanged) req

/-- What follows the lookup of the user. -/
def withLookup (json : Json.Parser) (unknown : HttpRequest → UfPair → Owned HttpResponse)
    (edit : Source.UfPair → CString → Source.UfPair × Bool) (unchanged : String)
    (req : HttpRequest) (ufReq : UfPair) : Status × Bytes → Owned HttpResponse
  | (.notFound _, _) => unknown req ufReq
  | (.error text, _) => do
      ufPairRelease ufReq
      return decline .status500 text.text req
  | (.ok, dbVal) =>
      if dbVal.length ≤ 0 then do
        ufPairRelease ufReq
        return decline .status500 Status.ok.toCStr req
      else editUser json edit unchanged req ufReq dbVal

/-- The body that `subscribe_user` and `unsubscribe_user` share. -/
def updateUser (json : Json.Parser) (unknown : HttpRequest → UfPair → Owned HttpResponse)
    (edit : Source.UfPair → CString → Source.UfPair × Bool) (unchanged : String)
    (req : HttpRequest) : Owned HttpResponse :=
  shutdownCheck req <|
    if req.method ≠ .put then return decline .status501 (lit "Not Implemented!") req
    else if req.body.length ≤ 0 then return decline .status400 (lit "Empty JSON Payload!") req
    else do
      match ← ufPairFromRequest json req.body with
      | none => return decline .status500 (lit "Parse error in payload!") req
      | some ufReq => do
          let pair ← read ufReq
          let found ← ufGet pair.user
          withLookup json unknown edit unchanged req ufReq found

def subscribeUser (json : Json.Parser) : HttpRequest → Owned HttpResponse :=
  updateUser json putUser Source.ufPairAddFeed "User already subscribed!"

def unsubscribeUser (json : Json.Parser) : HttpRequest → Owned HttpResponse :=
  updateUser json
    (fun req ufReq => do
      ufPairRelease ufReq
      return decline .status404 (lit "User not found!") req)
    Source.ufPairDeleteFeed "User Not Subscribed!"

/-! ## 2. Submit articles -/

/-- One round of the loop over the articles. -/
def submitArticle (fa : FaSubmission) (i : Nat) (article : CString) : Owned FaSubmission := do
  let article ← borrow fa article
  if Source.isarticleValid article then do
    let s : Status ← ask (S := calls) (.faPut article.bytes)
    if s.isOk then faSubmissionArticleDisp fa i (lit "accepted")
    else faSubmissionArticleDisp fa i s.toCStr
  else faSubmissionArticleDisp fa i (lit "rejected")

/-- The loop, from one article on. -/
def submitLoop : List CString → Nat → FaSubmission → Owned FaSubmission
  | [], _, fa => return fa
  | article :: rest, i, fa => do
      let fa ← submitArticle fa i article
      submitLoop rest (i + 1) fa

/-- The articles of a parsed submission, and what is answered. -/
def submitAll (req : HttpRequest) (fa : FaSubmission) : Owned HttpResponse := do
  let submission ← read fa
  let fa ← submitLoop submission.articles 0 fa
  let vecFaRes ← faSubmissionResponse fa
  let text ← read vecFaRes
  let res := Source.respondJson text (Source.vcVectorSize text) req
  vcStringRelease vecFaRes
  faSubmissionRelease fa
  return res

def submitArticles (json : Json.Parser) (req : HttpRequest) : Owned HttpResponse :=
  shutdownCheck req <|
    if req.method ≠ .post then return decline .status501 (lit "Not Implemented!") req
    else if req.body.length ≤ 0 then return decline .status400 (lit "Empty JSON Payload!") req
    else do
      match ← routeObject req.url req.urlLength with
      | none => return decline .status400 (lit "Bad feed in uri!") req
      | some feed => do
          let name ← read feed
          if !Source.isobjectValid name then do
            free feed
            return decline .status400 (lit "Bad feed in uri!") req
          else do
            let faReq ← faSubmissionFromRequest json feed req.body
            free feed
            match faReq with
            | none => return decline .status500 (lit "Parse error in payload!") req
            | some fa => submitAll req fa

/-! ## 3. and 4. Lookups -/

/-- The start that `get_user` and `get_articles` share. -/
def lookupUser (req : HttpRequest) (found : Bytes → Owned HttpResponse) : Owned HttpResponse :=
  shutdownCheck req <|
    if req.method ≠ .get then return decline .status501 (lit "Not Implemented!") req
    else do
      match ← routeObject req.url req.urlLength with
      | none => return decline .status400 (lit "Bad user in uri!") req
      | some user => do
          let name ← read user
          if !Source.isobjectValid name then do
            free user
            return decline .status400 (lit "Bad user in uri!") req
          else do
            let answer ← ufGet name
            free user
            match answer with
            | (.notFound _, _) => return decline .status404 (lit "User not found!") req
            | (.error text, _) => return decline .status500 text.text req
            | (.ok, dbVal) =>
                if dbVal.length ≤ 0 then return decline .status500 Status.ok.toCStr req
                else found dbVal

def getUser (req : HttpRequest) : Owned HttpResponse :=
  lookupUser req fun dbVal => return Source.respondJson dbVal dbVal.length req

/-- `vc_string_json_deparse_char` of a part of a string. -/
def vcStringJsonDeparseChar (article : Held CString) (s : CString) : Owned VcString := do
  let _ ← read article
  let deparsed ← Program.ofExcept (Source.deref (Source.vcStringJsonDeparseChar s))
  acquire deparsed

/-- What one key adds to the listing. -/
def appendRow (ufDb : UfPair) (feed : CString) (key : Bytes) (vecUaRes : VcString) :
    Owned VcString := do
  let vec ← vcStringAppend vecUaRes (lit "\x7b\"feed\":\"")
  let feed ← borrow ufDb feed
  let vec ← vcStringAppend vec feed
  let vec ← vcStringAppend vec (lit "\",\"content\":\"")
  let article ← acquire (cstr key)
  let content ← Program.ofExcept (Source.articleContent feed.bytes.length article.value)
  let vcJsonDeparsed ← vcStringJsonDeparseChar article content
  let text ← read vcJsonDeparsed
  let vec ← vcStringAppend vec (Source.vcStringBegin text)
  vcStringRelease vcJsonDeparsed
  let vec ← vcStringAppend vec (lit "\"\x7d,\n")
  free article
  return vec

/-- The inner loop: the iterator is asked for the key each time. -/
def scanFeed (ufDb : UfPair) (it : Held Unit) (feed : CString) :
    List Bytes → VcString → Owned VcString
  | [], vec => do
      let _ ← read it
      return vec
  | key :: rest, vec => do
      let _ ← read it
      let feed ← borrow ufDb feed
      if strncmpEq feed.bytes (cstr key).bytes feed.bytes.length then do
        let vec ← appendRow ufDb feed key vec
        let _ ← read it
        let () ← ask (S := calls) .itNext
        scanFeed ufDb it feed rest vec
      else return vec

/-- The outer loop. -/
def scanFeeds (ufDb : UfPair) (it : Held Unit) (keys : List Bytes) :
    List CString → VcString → Owned VcString
  | [], vec => return vec
  | feed :: rest, vec => do
      let feed ← borrow ufDb feed
      let _ ← read it
      let () ← ask (S := calls) (.itSeek feed.bytes)
      let vec ← scanFeed ufDb it feed (OrderedKeys.seek feed.bytes keys) vec
      scanFeeds ufDb it keys rest vec

/-- Close the listing, or decline for want of a row. -/
def respondArticles (req : HttpRequest) (prefixLength : Nat) (ufDb : UfPair)
    (vecUaRes : VcString) : Owned HttpResponse := do
  let listed ← read vecUaRes
  if Source.vcStringLength listed > prefixLength then do
    let vec ← vcStringNRemove vecUaRes 2
    let vec ← vcStringAppend vec (lit "\n]\x7d\n")
    let text ← read vec
    let res := Source.respondJson text (Source.vcStringLength text) req
    vcStringRelease vec
    ufPairRelease ufDb
    return res
  else do
    vcStringRelease vecUaRes
    ufPairRelease ufDb
    return decline .status204 (lit "No articles for user!") req

def listArticles (json : Json.Parser) (req : HttpRequest) (dbVal : Bytes) :
    Owned HttpResponse := do
  match ← ufPairFromDbvalue json dbVal with
  | none => return decline .status500 (lit "uf_pair_from_dbvalue(uf_db) fail!") req
  | some ufDb => do
      let vec ← vcStringCreate
      let vec ← vcStringAppend vec (lit "\x7b\"articles\":[\n")
      let opening ← read vec
      let keys : List Bytes ← ask (S := calls) .faNewIterator
      let it ← acquire ()
      let pair ← read ufDb
      let vec ← scanFeeds ufDb it keys pair.feeds vec
      let () ← ask (S := calls) .itDelete
      release it
      respondArticles req (Source.vcStringLength opening) ufDb vec

def getArticles (json : Json.Parser) (req : HttpRequest) : Owned HttpResponse :=
  lookupUser req (listArticles json req)

/-! ## Routes -/

/-- The handler of a shutdown allocates nothing. -/
def handle (json : Json.Parser) : Source.Route → HttpRequest → Owned HttpResponse
  | .subscribe => subscribeUser json
  | .unsubscribe => unsubscribeUser json
  | .submit => submitArticles json
  | .user => getUser
  | .userArticles => getArticles json
  | .shutdown => fun req => Ownership.lift (Source.shutdownFeederResponse req)

/-! ## Nothing is left behind -/

section Specs

variable {live : Finset Nat} {place : Nat}

open Ownership (tracks_done_iff tracks_fault_iff tracks_release_bind tracks_read_bind
  tracks_write_bind tracks_acquire_bind tracks_ask_bind bind_bind)

theorem submitArticle_tracks (fa : Source.FaSubmission) (i : Nat) (article : CString)
    (own : place ∈ live) : Tracks (Holds place live) (submitArticle ⟨place, fa⟩ i article)
      (Source.submitArticle fa i article) live := by
  simp only [submitArticle, borrow, bind_bind, tracks_read_bind, own, true_and, Program.pure_eq,
    Program.done_bind, Source.submitArticle]
  by_cases valid : Source.isarticleValid article = true
  · rw [if_pos valid, if_pos valid]
    apply tracks_ask_bind.2
    intro (s : Status)
    show Tracks _ (if s.isOk = true then _ else _) (if s.isOk = true then _ else _) live
    by_cases ok : s.isOk = true
    · rw [if_pos ok, if_pos ok]
      exact articleDisp_tracks fa i _ own
    · rw [if_neg ok, if_neg ok]
      exact articleDisp_tracks fa i _ own
  · rw [if_neg valid, if_neg valid]
    exact articleDisp_tracks fa i _ own

theorem submitLoop_tracks (articles : List CString) (i : Nat) (fa : Source.FaSubmission)
    (own : place ∈ live) : Tracks (Holds place live) (submitLoop articles i ⟨place, fa⟩)
      (Source.submitLoop articles i fa) live := by
  induction articles generalizing i fa with
  | nil => exact tracks_done_iff.2 ⟨rfl, rfl⟩
  | cons article rest ih =>
      apply (submitArticle_tracks fa i article own).bind
      rintro _ fa' _ ⟨rfl, rfl⟩
      exact ih (i + 1) fa'

/-- A text is the answer, and it and what it was made of are released. -/
theorem respond_tracks {α : Type} {x : Held α} {vs : VcString} {res : HttpResponse}
    (fresh : x.place ∉ live) (new : vs.place ∉ insert x.place live) :
    Tracks (Keeps live)
      (do
        release vs
        release x
        return res : Owned HttpResponse)
      (.done res) (insert vs.place (insert x.place live)) := by
  refine tracks_release_bind.2 ⟨Finset.mem_insert_self _ _, ?_⟩
  rw [Finset.erase_insert new]
  refine tracks_release_bind.2 ⟨Finset.mem_insert_self _ _, ?_⟩
  rw [Finset.erase_insert fresh]
  exact tracks_done_iff.2 ⟨rfl, rfl⟩

theorem submitAll_tracks (req : HttpRequest) (fa : Source.FaSubmission) (fresh : place ∉ live) :
    Tracks (Keeps live) (submitAll req ⟨place, fa⟩)
      (Source.submitAll fa >>= fun fa => .done (Source.respondSubmission req fa))
      (insert place live) := by
  have own := Finset.mem_insert_self place live
  simp only [submitAll, tracks_read_bind, own, true_and]
  apply (submitLoop_tracks fa.articles 0 fa own).bind
  rintro _ fa' _ ⟨rfl, rfl⟩
  have submission : (⟨place, fa'⟩ : FaSubmission).place ∈ insert place live := own
  apply (submissionResponse_tracks submission).done_bind
  rintro ⟨other, text⟩ _ ⟨rfl, new, rfl⟩
  refine tracks_read_bind.2 ⟨Finset.mem_insert_self _ _, ?_⟩
  exact respond_tracks (x := ⟨place, fa'⟩) fresh new

theorem routeObject_tracks (uri : CString) (uriLength : Nat) :
    Tracks (MayHand live) (routeObject uri uriLength)
      (.ofExcept (Source.routeObject uri uriLength)) live := by
  unfold routeObject Source.routeObject
  by_cases short : uriLength ≤ 1
  · rw [if_pos short, if_pos short]
    exact tracks_done_iff.2 rfl
  · rw [if_neg short, if_neg short]
    cases uri.bytes with
    | nil => exact tracks_done_iff.2 rfl
    | cons slash haystack =>
        dsimp only
        by_cases other : slash ≠ 0x2F
        · rw [if_pos other, if_pos other]
          exact tracks_done_iff.2 rfl
        · rw [if_neg other, if_neg other]
          cases Source.strchr haystack 0x20 with
          | none => exact tracks_done_iff.2 rfl
          | some needleEnd =>
              dsimp only
              by_cases some_ : needleEnd > 0
              · rw [if_pos some_, if_pos some_]
                simp only [tracks_acquire_bind, tracks_read_bind, Finset.mem_insert_self, true_and]
                intro part fresh
                cases Source.strchr (haystack.take needleEnd) 0x2F with
                | none =>
                    refine tracks_release_bind.2 ⟨Finset.mem_insert_self part live, ?_⟩
                    exact tracks_done_iff.2 (Finset.erase_insert fresh)
                | some needle =>
                    simp only [tracks_acquire_bind, tracks_read_bind, Finset.mem_insert_self,
                      true_and]
                    intro object new
                    have hands : MayHand (insert part live)
                        (some ⟨object, cstr ((haystack.take needleEnd).drop (needle + 1))⟩)
                        (some (cstr ((haystack.take needleEnd).drop (needle + 1))))
                        (insert object (insert part live)) := ⟨rfl, new, rfl⟩
                    obtain ⟨member, freed⟩ := hands.free fresh
                    exact tracks_release_bind.2 ⟨member, tracks_done_iff.2 freed⟩
              · rw [if_neg some_, if_neg some_]
                exact tracks_fault_iff.2 rfl

theorem shutdownCheck_tracks (req : HttpRequest) {handler : Owned HttpResponse}
    {handler' : Source.Handler HttpResponse} (tracks : Tracks (Keeps live) handler handler' live) :
    Tracks (Keeps live) (shutdownCheck req handler) (Source.shutdownCheck req handler') live := by
  apply tracks_ask_bind.2
  intro (shutdown : Bool)
  cases shutdown with
  | true => exact tracks_done_iff.2 ⟨rfl, rfl⟩
  | false => exact tracks

theorem editFeeds_tracks (edit : Source.UfPair → CString → Source.UfPair × Bool) {ufReq : UfPair}
    (feeds : List CString) (uf : Source.UfPair) (changed : Bool) (wanted : ufReq.place ∈ live)
    (own : place ∈ live) :
    Tracks (fun state edited left => state = (⟨place, edited.1⟩, edited.2) ∧ left = live)
      (editFeeds edit ufReq feeds (⟨place, uf⟩, changed))
      (.done (Source.editFeeds edit feeds (uf, changed))) live := by
  induction feeds generalizing uf changed with
  | nil => exact tracks_done_iff.2 ⟨rfl, rfl⟩
  | cons feed rest ih =>
      simp only [editFeeds, borrow, ufPairEdit, bind_bind, tracks_read_bind, tracks_write_bind,
        Program.pure_eq, Program.done_bind, wanted, own, true_and, Source.editFeeds]
      exact ih _ _

theorem ufPut_tracks {γ : Type} {R : γ → HttpResponse → Finset Nat → Prop} {uf : UfPair}
    {vec : VcString} {next : Status → Owned γ} {next' : Status → Source.Handler HttpResponse}
    (pair : uf.place ∈ live) (text : vec.place ∈ live)
    (rest : ∀ s, Tracks R (next s) (next' s) live) :
    Tracks R (ufPut uf vec >>= next)
      (Source.ufPut uf.value.user (Source.vcStringBegin vec.value) >>= next') live :=
  ⟨pair, fun _ _ => ⟨text, fun _ _ => ⟨next', rfl, rest⟩⟩⟩

/-- Two resources are released, the older one first. -/
theorem erase_older {older newer : Nat} (fresh : older ∉ live) (new : newer ∉ insert older live) :
    (insert newer (insert older live)).erase older = insert newer live ∧ newer ∉ live := by
  rw [Finset.mem_insert, not_or] at new
  refine ⟨?_, new.2⟩
  rw [Finset.erase_insert_of_ne new.1, Finset.erase_insert fresh]

theorem putUser_tracks (req : HttpRequest) (pair : Source.UfPair) (fresh : place ∉ live) :
    Tracks (Keeps live) (putUser req ⟨place, pair⟩) (Source.putUser req pair)
      (insert place live) := by
  have own : (⟨place, pair⟩ : UfPair).place ∈ insert place live := Finset.mem_insert_self place live
  apply (toDbvalue_tracks Source.USER_URI Source.FEED_URI own).done_bind
  rintro ⟨text, value⟩ _ ⟨rfl, new, rfl⟩
  apply ufPut_tracks (Finset.mem_insert_of_mem own) (Finset.mem_insert_self _ _)
  intro s
  by_cases ok : s.isOk = true
  · simp only [if_pos ok]
    refine tracks_read_bind.2 ⟨Finset.mem_insert_self _ _, ?_⟩
    exact respond_tracks (x := ⟨place, pair⟩) fresh new
  · simp only [if_neg ok]
    obtain ⟨left, unused⟩ := erase_older fresh new
    refine tracks_release_bind.2 ⟨Finset.mem_insert_of_mem own, ?_⟩
    rw [left]
    refine tracks_release_bind.2 ⟨Finset.mem_insert_self _ _, ?_⟩
    rw [Finset.erase_insert unused]
    exact tracks_done_iff.2 ⟨rfl, rfl⟩

/-- A decline behind the release of one resource. -/
theorem decline_tracks {α : Type} {x : Held α} {res : HttpResponse} (fresh : x.place ∉ live) :
    Tracks (Keeps live)
      (do
        release x
        return res : Owned HttpResponse)
      (.done res) (insert x.place live) := by
  refine tracks_release_bind.2 ⟨Finset.mem_insert_self _ _, ?_⟩
  rw [Finset.erase_insert fresh]
  exact tracks_done_iff.2 ⟨rfl, rfl⟩

theorem putEdited_tracks (req : HttpRequest) (wanted stored : Source.UfPair) {db : Nat}
    (fresh : place ∉ live) (new : db ∉ insert place live) :
    Tracks (Keeps live) (putEdited req ⟨place, wanted⟩ ⟨db, stored⟩) (Source.putUser req stored)
      (insert db (insert place live)) := by
  have own : (⟨db, stored⟩ : UfPair).place ∈ insert db (insert place live) :=
    Finset.mem_insert_self _ _
  obtain ⟨left, unused⟩ := erase_older fresh new
  apply (toDbvalue_tracks Source.USER_URI Source.FEED_URI own).done_bind
  rintro ⟨text, value⟩ _ ⟨rfl, newest, rfl⟩
  obtain ⟨left', unused'⟩ := erase_older new newest
  apply ufPut_tracks (Finset.mem_insert_of_mem own) (Finset.mem_insert_self _ _)
  intro s
  by_cases ok : s.isOk = true
  · simp only [if_pos ok]
    refine tracks_release_bind.2 ⟨Finset.mem_insert_of_mem own, ?_⟩
    rw [left']
    refine tracks_read_bind.2 ⟨Finset.mem_insert_self _ _, ?_⟩
    exact respond_tracks (x := ⟨place, wanted⟩) fresh unused'
  · simp only [if_neg ok]
    have last : text ∉ live := fun member => unused' (Finset.mem_insert_of_mem member)
    have first : (insert text (insert db (insert place live))).erase place =
        insert text (insert db live) := by
      rw [Finset.erase_insert_of_ne, left]
      rintro rfl
      exact unused' (Finset.mem_insert_self _ _)
    have second : (insert text (insert db live)).erase db = insert text live := by
      rw [Finset.erase_insert_of_ne, Finset.erase_insert unused]
      rintro rfl
      exact newest (Finset.mem_insert_self _ _)
    refine tracks_release_bind.2
      ⟨Finset.mem_insert_of_mem (Finset.mem_insert_of_mem (Finset.mem_insert_self _ _)), ?_⟩
    rw [first]
    refine tracks_release_bind.2 ⟨Finset.mem_insert_of_mem (Finset.mem_insert_self _ _), ?_⟩
    rw [second]
    exact decline_tracks (x := ⟨text, _⟩) last

theorem editUser_tracks (json : Json.Parser)
    (edit : Source.UfPair → CString → Source.UfPair × Bool) (unchanged : String)
    (req : HttpRequest) (pair : Source.UfPair) (dbVal : Bytes) (fresh : place ∉ live) :
    Tracks (Keeps live) (editUser json edit unchanged req ⟨place, pair⟩ dbVal)
      (Source.editUser json edit unchanged req pair dbVal) (insert place live) := by
  have own : (⟨place, pair⟩ : UfPair).place ∈ insert place live := Finset.mem_insert_self place live
  unfold editUser Source.editUser
  apply (fromDbvalue_tracks json dbVal).ofExcept_bind
  · intro reason failed
    rw [failed]
  · intro o o' left read hands
    rw [read]
    cases o with
    | none =>
        cases o' with
        | none =>
            obtain rfl := hands
            exact decline_tracks (x := ⟨place, pair⟩) fresh
        | some stored => exact hands.elim
    | some ufDb =>
        cases o' with
        | none => exact hands.elim
        | some stored =>
            obtain ⟨db, stored⟩ := ufDb
            obtain ⟨rfl, new, rfl⟩ := hands
            have wanted : (⟨place, pair⟩ : UfPair).place ∈ insert db (insert place live) :=
              Finset.mem_insert_of_mem own
            refine tracks_read_bind.2 ⟨wanted, ?_⟩
            apply (editFeeds_tracks edit pair.feeds stored false wanted
              (Finset.mem_insert_self db _)).done_bind
            rintro _ _ ⟨rfl, rfl⟩
            dsimp only
            obtain ⟨edited, changed⟩ := Source.editFeeds edit pair.feeds (stored, false)
            dsimp only
            cases changed with
            | true => exact putEdited_tracks req pair edited fresh new
            | false =>
                obtain ⟨left, unused⟩ := erase_older fresh new
                refine tracks_release_bind.2 ⟨wanted, ?_⟩
                rw [left]
                exact decline_tracks (x := ⟨db, edited⟩) unused

theorem withLookup_tracks (json : Json.Parser) {unknown : HttpRequest → UfPair → Owned HttpResponse}
    {unknown' : HttpRequest → Source.UfPair → Source.Handler HttpResponse}
    (edit : Source.UfPair → CString → Source.UfPair × Bool) (unchanged : String)
    (req : HttpRequest) (pair : Source.UfPair) (fresh : place ∉ live)
    (tracks : Tracks (Keeps live) (unknown req ⟨place, pair⟩) (unknown' req pair)
      (insert place live)) (found : Status × Bytes) :
    Tracks (Keeps live) (withLookup json unknown edit unchanged req ⟨place, pair⟩ found)
      (Source.withLookup json unknown' edit unchanged req pair found) (insert place live) := by
  obtain ⟨status, dbVal⟩ := found
  cases status with
  | notFound text => exact tracks
  | error text => exact decline_tracks (x := ⟨place, pair⟩) fresh
  | ok =>
      simp only [withLookup, Source.withLookup]
      by_cases empty : dbVal.length ≤ 0
      · rw [if_pos empty, if_pos empty]
        exact decline_tracks (x := ⟨place, pair⟩) fresh
      · rw [if_neg empty, if_neg empty]
        exact editUser_tracks json edit unchanged req pair dbVal fresh

theorem updateUser_tracks (json : Json.Parser)
    {unknown : HttpRequest → UfPair → Owned HttpResponse}
    {unknown' : HttpRequest → Source.UfPair → Source.Handler HttpResponse}
    (edit : Source.UfPair → CString → Source.UfPair × Bool) (unchanged : String)
    (req : HttpRequest)
    (tracks : ∀ place pair, place ∉ live → Tracks (Keeps live) (unknown req ⟨place, pair⟩)
      (unknown' req pair) (insert place live)) :
    Tracks (Keeps live) (updateUser json unknown edit unchanged req)
      (Source.updateUser json unknown' edit unchanged req) live := by
  apply shutdownCheck_tracks
  by_cases other : req.method ≠ .put
  · rw [if_pos other, if_pos other]
    exact tracks_done_iff.2 ⟨rfl, rfl⟩
  · rw [if_neg other, if_neg other]
    by_cases empty : req.body.length ≤ 0
    · rw [if_pos empty, if_pos empty]
      exact tracks_done_iff.2 ⟨rfl, rfl⟩
    · rw [if_neg empty, if_neg empty]
      apply (fromRequest_tracks json req.body).ofExcept_bind
      · intro reason failed
        rw [failed]
      · intro o o' left parsed hands
        rw [parsed]
        cases o with
        | none =>
            cases o' with
            | none =>
                obtain rfl := hands
                exact tracks_done_iff.2 ⟨rfl, rfl⟩
            | some pair => exact hands.elim
        | some ufReq =>
            cases o' with
            | none => exact hands.elim
            | some pair =>
                obtain ⟨place, pair⟩ := ufReq
                obtain ⟨rfl, fresh, rfl⟩ := hands
                refine tracks_read_bind.2 ⟨Finset.mem_insert_self _ _, ?_⟩
                apply tracks_ask_bind.2
                intro (found : Status × Bytes)
                exact withLookup_tracks json edit unchanged req pair fresh
                  (tracks place pair fresh) found

theorem lookupUser_tracks (req : HttpRequest) {found : Bytes → Owned HttpResponse}
    {found' : Bytes → Source.Handler HttpResponse}
    (tracks : ∀ dbVal, Tracks (Keeps live) (found dbVal) (found' dbVal) live) :
    Tracks (Keeps live) (lookupUser req found) (Source.lookupUser req found') live := by
  apply shutdownCheck_tracks
  by_cases other : req.method ≠ .get
  · rw [if_pos other, if_pos other]
    exact tracks_done_iff.2 ⟨rfl, rfl⟩
  · rw [if_neg other, if_neg other]
    apply (routeObject_tracks req.url req.urlLength).ofExcept_bind
    · intro reason failed
      rw [failed]
    · intro o o' left located hands
      rw [located]
      cases o with
      | none =>
          cases o' with
          | none =>
              obtain rfl := hands
              exact tracks_done_iff.2 ⟨rfl, rfl⟩
          | some user => exact hands.elim
      | some held =>
          cases o' with
          | none => exact hands.elim
          | some user =>
              obtain ⟨place, user⟩ := held
              obtain ⟨rfl, fresh, rfl⟩ := hands
              refine tracks_read_bind.2 ⟨Finset.mem_insert_self _ _, ?_⟩
              dsimp only
              by_cases bad : (!Source.isobjectValid user) = true
              · rw [if_pos bad, if_pos bad]
                exact decline_tracks (x := ⟨place, user⟩) fresh
              · rw [if_neg bad, if_neg bad]
                apply tracks_ask_bind.2
                intro (answer : Status × Bytes)
                refine tracks_release_bind.2 ⟨Finset.mem_insert_self _ _, ?_⟩
                rw [Finset.erase_insert fresh]
                obtain ⟨status, dbVal⟩ := answer
                cases status with
                | notFound text => exact tracks_done_iff.2 ⟨rfl, rfl⟩
                | error text => exact tracks_done_iff.2 ⟨rfl, rfl⟩
                | ok =>
                    show Tracks (Keeps live) (if dbVal.length ≤ 0 then .done _ else found dbVal)
                      (if dbVal.length ≤ 0 then .done _ else found' dbVal) live
                    by_cases empty : dbVal.length ≤ 0
                    · rw [if_pos empty, if_pos empty]
                      exact tracks_done_iff.2 ⟨rfl, rfl⟩
                    · rw [if_neg empty, if_neg empty]
                      exact tracks dbVal

theorem submitArticles_tracks (json : Json.Parser) (req : HttpRequest) :
    Tracks (Keeps live) (submitArticles json req) (Source.submitArticles json req) live := by
  apply shutdownCheck_tracks
  by_cases other : req.method ≠ .post
  · rw [if_pos other, if_pos other]
    exact tracks_done_iff.2 ⟨rfl, rfl⟩
  · rw [if_neg other, if_neg other]
    by_cases empty : req.body.length ≤ 0
    · rw [if_pos empty, if_pos empty]
      exact tracks_done_iff.2 ⟨rfl, rfl⟩
    · rw [if_neg empty, if_neg empty]
      apply (routeObject_tracks req.url req.urlLength).ofExcept_bind
      · intro reason failed
        rw [failed]
      · intro o o' left located hands
        rw [located]
        cases o with
        | none =>
            cases o' with
            | none =>
                obtain rfl := hands
                exact tracks_done_iff.2 ⟨rfl, rfl⟩
            | some feed => exact hands.elim
        | some held =>
            cases o' with
            | none => exact hands.elim
            | some feed =>
                obtain ⟨place, feed⟩ := held
                obtain ⟨rfl, fresh, rfl⟩ := hands
                have own : (⟨place, feed⟩ : Held CString).place ∈ insert place live :=
                  Finset.mem_insert_self _ _
                refine tracks_read_bind.2 ⟨own, ?_⟩
                dsimp only
                by_cases bad : (!Source.isobjectValid feed) = true
                · rw [if_pos bad, if_pos bad]
                  exact decline_tracks (x := ⟨place, feed⟩) fresh
                · rw [if_neg bad, if_neg bad]
                  apply (submissionFromRequest_tracks json req.body own).ofExcept_bind
                  · intro reason failed
                    rw [failed]
                  · intro o o' left parsed hands
                    obtain ⟨member, freed⟩ := hands.free fresh
                    refine tracks_release_bind.2 ⟨member, ?_⟩
                    rw [parsed]
                    cases o with
                    | none =>
                        cases o' with
                        | none =>
                            rw [freed]
                            exact tracks_done_iff.2 ⟨rfl, rfl⟩
                        | some fa => exact freed.elim
                    | some held =>
                        cases o' with
                        | none => exact freed.elim
                        | some fa =>
                            obtain ⟨own, fa⟩ := held
                            obtain ⟨rfl, unused, left⟩ := freed
                            rw [left]
                            exact submitAll_tracks req fa unused

theorem appendRow_tracks {ufDb : UfPair} (feed : CString) (key : Bytes)
    (vec : Source.VcVector UInt8) (pair : ufDb.place ∈ live) (own : place ∈ live) :
    Tracks (Holds place live) (appendRow ufDb feed key ⟨place, vec⟩)
      (.ofExcept (Source.appendRow feed key vec)) live := by
  simp only [appendRow, vcStringAppend, borrow, bind_bind, tracks_read_bind, tracks_write_bind,
    tracks_acquire_bind, Program.pure_eq, Program.done_bind, pair, own, true_and]
  intro article fresh
  cases located : Source.articleContent feed.bytes.length (cstr key) with
  | error reason =>
      have row : Source.appendRow feed key vec = .error reason := by
        simp only [Source.appendRow, located, bind, Except.bind]
      rw [row]
      exact tracks_fault_iff.2 rfl
  | ok content =>
      have first : article ∈ insert article live := Finset.mem_insert_self article live
      simp only [Program.ofExcept_ok, Program.done_bind, vcStringJsonDeparseChar, bind_bind,
        tracks_read_bind, first, true_and]
      cases escaped : Source.deref (Source.vcStringJsonDeparseChar content) with
      | error reason =>
          have row : Source.appendRow feed key vec = .error reason := by
            simp only [Source.appendRow, located, escaped, bind, Except.bind]
          rw [row]
          exact tracks_fault_iff.2 rfl
      | ok deparsed =>
          simp only [Program.ofExcept_ok, Program.done_bind, tracks_acquire_bind]
          intro text new
          have still : place ∈ insert article live := Finset.mem_insert_of_mem own
          have both : place ∈ insert text (insert article live) := Finset.mem_insert_of_mem still
          simp only [tracks_read_bind, tracks_write_bind, vcStringRelease, free,
            tracks_release_bind, Finset.mem_insert_self, both, true_and, Finset.erase_insert new,
            Finset.erase_insert fresh, still]
          simp only [Source.appendRow, located, escaped, bind, Except.bind]
          exact tracks_done_iff.2 ⟨rfl, rfl⟩

theorem scanFeed_tracks {ufDb : UfPair} {it : Held Unit} (feed : CString) (keys : List Bytes)
    (vec : Source.VcVector UInt8) (pair : ufDb.place ∈ live) (open_ : it.place ∈ live)
    (own : place ∈ live) :
    Tracks (Holds place live) (scanFeed ufDb it feed keys ⟨place, vec⟩)
      (Source.scanFeed feed keys vec) live := by
  induction keys generalizing vec with
  | nil => exact tracks_read_bind.2 ⟨open_, tracks_done_iff.2 ⟨rfl, rfl⟩⟩
  | cons key rest ih =>
      simp only [scanFeed, borrow, bind_bind, tracks_read_bind, Program.pure_eq,
        Program.done_bind, pair, open_, true_and, Source.scanFeed]
      by_cases begins : strncmpEq feed.bytes (cstr key).bytes feed.bytes.length = true
      · rw [if_pos begins, if_pos begins]
        apply (appendRow_tracks feed key vec pair own).ofExcept_bind
        · intro reason failed
          rw [failed]
        · rintro _ vec' _ added ⟨rfl, rfl⟩
          rw [added]
          exact tracks_read_bind.2 ⟨open_, tracks_ask_bind.2 fun _ => ih vec'⟩
      · rw [if_neg begins, if_neg begins]
        exact tracks_done_iff.2 ⟨rfl, rfl⟩

theorem scanFeeds_tracks {ufDb : UfPair} {it : Held Unit} (keys : List Bytes)
    (feeds : List CString) (vec : Source.VcVector UInt8) (pair : ufDb.place ∈ live)
    (open_ : it.place ∈ live) (own : place ∈ live) :
    Tracks (Holds place live) (scanFeeds ufDb it keys feeds ⟨place, vec⟩)
      (Source.scanFeeds keys feeds vec) live := by
  induction feeds generalizing vec with
  | nil => exact tracks_done_iff.2 ⟨rfl, rfl⟩
  | cons feed rest ih =>
      simp only [scanFeeds, borrow, bind_bind, tracks_read_bind, Program.pure_eq,
        Program.done_bind, pair, open_, true_and, Source.scanFeeds]
      apply tracks_ask_bind.2
      intro _
      apply (scanFeed_tracks feed _ vec pair open_ own).bind
      rintro _ vec' _ ⟨rfl, rfl⟩
      exact ih vec'

theorem respondArticles_tracks (req : HttpRequest) (prefixLength : Nat) (pair : Source.UfPair)
    (vec : Source.VcVector UInt8) {text : Nat} (fresh : place ∉ live)
    (new : text ∉ insert place live) :
    Tracks (Keeps live) (respondArticles req prefixLength ⟨place, pair⟩ ⟨text, vec⟩)
      (.done (Source.respondArticles req prefixLength vec)) (insert text (insert place live)) := by
  unfold respondArticles Source.respondArticles
  refine tracks_read_bind.2 ⟨Finset.mem_insert_self _ _, ?_⟩
  by_cases rows : Source.vcStringLength vec > prefixLength
  · simp only [if_pos rows, vcStringNRemove, vcStringAppend, tracks_read_bind, tracks_write_bind,
      Finset.mem_insert_self, true_and]
    exact respond_tracks (x := ⟨place, pair⟩) fresh new
  · simp only [if_neg rows]
    exact respond_tracks (x := ⟨place, pair⟩) fresh new

theorem listArticles_tracks (json : Json.Parser) (req : HttpRequest) (dbVal : Bytes) :
    Tracks (Keeps live) (listArticles json req dbVal) (Source.listArticles json req dbVal)
      live := by
  unfold listArticles Source.listArticles
  apply (fromDbvalue_tracks json dbVal).ofExcept_bind
  · intro reason failed
    rw [failed]
  · intro o o' left read hands
    rw [read]
    cases o with
    | none =>
        cases o' with
        | none =>
            obtain rfl := hands
            exact tracks_done_iff.2 ⟨rfl, rfl⟩
        | some pair => exact hands.elim
    | some ufDb =>
        cases o' with
        | none => exact hands.elim
        | some pair =>
            obtain ⟨place, pair⟩ := ufDb
            obtain ⟨rfl, fresh, rfl⟩ := hands
            have own : place ∈ insert place live := Finset.mem_insert_self place live
            simp only [vcStringCreate, vcStringAppend, tracks_acquire_bind, tracks_read_bind,
              tracks_write_bind, Finset.mem_insert_self, true_and]
            intro text new
            apply tracks_ask_bind.2
            intro keys
            refine tracks_acquire_bind.2 fun it newest => ?_
            have both : place ∈ insert it (insert text (insert place live)) :=
              Finset.mem_insert_of_mem (Finset.mem_insert_of_mem own)
            refine tracks_read_bind.2 ⟨both, ?_⟩
            apply (scanFeeds_tracks keys pair.feeds _ both (Finset.mem_insert_self it _)
              (Finset.mem_insert_of_mem (Finset.mem_insert_self text _))).bind
            rintro _ vec _ ⟨rfl, rfl⟩
            apply tracks_ask_bind.2
            intro _
            refine tracks_release_bind.2 ⟨Finset.mem_insert_self it _, ?_⟩
            rw [Finset.erase_insert newest]
            exact respondArticles_tracks req _ pair vec fresh new

/-- **Handlers release what they allocate.** -/
theorem handle_tracks (json : Json.Parser) (route : Source.Route) (req : HttpRequest) :
    Tracks (Keeps live) (handle json route req) (Source.handle json route req) live := by
  cases route with
  | subscribe =>
      exact updateUser_tracks json _ _ req fun place pair fresh => putUser_tracks req pair fresh
  | unsubscribe =>
      exact updateUser_tracks json _ _ req fun place pair fresh =>
        decline_tracks (x := ⟨place, pair⟩) fresh
  | submit => exact submitArticles_tracks json req
  | user => exact lookupUser_tracks req fun dbVal => tracks_done_iff.2 ⟨rfl, rfl⟩
  | userArticles => exact lookupUser_tracks req fun dbVal => listArticles_tracks json req dbVal
  | shutdown => exact Ownership.tracks_lift _

end Specs

end Feedserver.Memory
