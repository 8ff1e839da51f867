/-
# Source.FeedServer — feedserver.cpp

Each route handler is a program over the calls in `Call`: the shutdown flag, the two
RocksDB databases and the iterator are outside it, everything between two calls is the
handler's own. `subscribe_user` and `unsubscribe_user` are one body, `updateUser`, which
takes what they do differently: the answer for an unknown user, the edit of the stored
pair, and the text of the 304.

Memory is assumed to be there: the checks of `uf_pair_to_dbvalue` and
`fa_submission_response` for NULL are for a failed allocation and are left out.
-/
import Feedserver.Source.FeedArticle
import Feedserver.Theory.OrderedKeys
import Feedserver.Theory.Program

namespace Feedserver.Source

open Feedserver.Theory

set_option autoImplicit false

/-! ## Names in URIs and articles -/

/-- `strchr`: the offset of the first such character. -/
def strchr (s : Bytes) (c : UInt8) : Option Nat := s.findIdx? fun b => b = c

/-- `route_object`. With a space right after the first slash the copy is not made, and the
`free` at the end is of the URI itself. -/
def routeObject (uri : CString) (uriLength : Nat) : Except Fault (Option CString) :=
  if uriLength ≤ 1 then .ok none
  else
    match uri.bytes with
    | [] => .ok none
    | slash :: haystack =>
        if slash ≠ 0x2F then .ok none
        else
          match strchr haystack 0x20 with
          | none => .ok none
          | some needleEnd =>
              if needleEnd > 0 then
                let haystack := haystack.take needleEnd
                .ok ((strchr haystack 0x2F).map fun needle => cstr (haystack.drop (needle + 1)))
              else .error .badFree

/-- `isobject_valid`: the test comes before the end is looked for, so the terminator of an
empty name is tested too. -/
def isobjectValid (object : CString) : Bool :=
  match object.bytes with
  | [] => isalnum 0
  | b :: bs => isalnum b && bs.all isalnum

/-- `isarticle_valid`: as `isobject_valid`, over printable characters and white space. -/
def isarticleValid (article : CString) : Bool :=
  match article.bytes with
  | [] => isprint 0 || isspace 0
  | b :: bs => (isprint b || isspace b) && bs.all fun b => isprint b || isspace b

/-! ## Requests and responses -/

inductive HttpMethod where
  | get
  | put
  | post
  | other
deriving DecidableEq

structure HttpRequest where
  method : HttpMethod
  /-- `url->value`, which runs on to the end of the request line -/
  url : CString
  urlLength : Nat
  body : Bytes
  keepAlive : Bool

inductive HttpStatus where
  | status200
  | status204
  | status304
  | status400
  | status404
  | status500
  | status501
  | status503
deriving DecidableEq

structure HttpResponse where
  status : HttpStatus
  headers : List (String × String)
  /-- set by `hw_set_http_version` when the connection is not kept -/
  version : Option (Nat × Nat)
  body : Bytes
deriving DecidableEq

/-- `FEEDER_ROUTE_SEND_BOILERPLATE`. -/
def sendBoilerplate (req : HttpRequest) (res : HttpResponse) : HttpResponse :=
  if req.keepAlive then { res with headers := res.headers ++ [("Connection", "Keep-Alive")] }
  else { res with version := some (1, 0) }

def decline (code : HttpStatus) (msg : CString) (req : HttpRequest) : HttpResponse :=
  sendBoilerplate req ⟨code, [("Content-Type", "text/html")], none, msg.bytes⟩

/-- The end of every handler that has a result: 200, JSON, and `length` bytes of a buffer. -/
def respondJson (value : VcVector UInt8) (length : Nat) (req : HttpRequest) : HttpResponse :=
  sendBoilerplate req ⟨.status200, [("Content-Type", "application/json")], none, value.take length⟩

/-! ## Calls -/

/-- What `ToString` gives for a status that is not OK. RocksDB begins it with the kind of
the error, so it is none of the words a submission is answered with. -/
structure StatusText where
  text : CString
  notAccepted : text ≠ lit "accepted"
  notRejected : text ≠ lit "rejected"
deriving DecidableEq

/-- `rocksdb::Status`. -/
inductive Status where
  | ok
  | notFound (text : StatusText)
  | error (text : StatusText)
deriving DecidableEq

def Status.isOk : Status → Bool
  | .ok => true
  | _ => false

def Status.toCStr : Status → CString
  | .ok => lit "OK"
  | .notFound text => text.text
  | .error text => text.text

inductive Call where
  /-- read `feeder_shutdown` -/
  | feederShutdown
  /-- `feeder_shutdown = 1` -/
  | setFeederShutdown
  | ufGet (key : Bytes)
  | ufPut (key value : Bytes)
  | faPut (key : Bytes)
  | faNewIterator
  /-- `it->Seek(feed)` -/
  | itSeek (feed : Bytes)
  /-- `it->Next()` -/
  | itNext
  /-- `delete it` -/
  | itDelete
  | deleteUf
  | deleteFa
  /-- `hw_http_response_send` of the response to a shutdown -/
  | send (res : HttpResponse)
  /-- `exit(0)` -/
  | exit
deriving DecidableEq

/-- `Get` answers with its status and `db_val`; a new iterator with the keys it will walk,
in the order of the database. -/
def Call.Answer : Call → Type
  | .feederShutdown => Bool
  | .ufGet _ => Status × Bytes
  | .ufPut _ _ => Status
  | .faPut _ => Status
  | .faNewIterator => List Bytes
  | _ => Unit

abbrev calls : Signature := ⟨Call, Call.Answer⟩

abbrev Handler (α : Type) := Program calls Fault α

/-- `FEEDER_SHUTDOWN_CHECK` in front of a handler. -/
def shutdownCheck (req : HttpRequest) (handler : Handler HttpResponse) : Handler HttpResponse :=
  .call (S := calls) .feederShutdown fun (shutdown : Bool) =>
    if shutdown then .done (decline .status503 (lit "Shutting down!") req) else handler

def ufGet (key : CString) : Handler (Status × Bytes) :=
  Program.perform (S := calls) (.ufGet key.bytes)

def ufPut (key value : CString) : Handler Status :=
  Program.perform (S := calls) (.ufPut key.bytes value.bytes)

/-- `Put` of an article: the key is all there is. -/
def faPut (key : CString) : Handler Status :=
  Program.perform (S := calls) (.faPut key.bytes)

/-! ## 1. Subscribe and unsubscribe -/

def USER_URI : CString := lit "/user"

def FEED_URI : CString := lit "/feed"

/-- Put a pair under its own user and answer with its text. -/
def putUser (req : HttpRequest) (uf : UfPair) : Handler HttpResponse := do
  let vecUfRes := ufPairToDbvalue uf USER_URI FEED_URI
  let s ← ufPut uf.user (vcStringBegin vecUfRes)
  if s.isOk then return respondJson vecUfRes (vcVectorSize vecUfRes) req
  else return decline .status500 s.toCStr req

/-- The loop over the request's feeds, and whether any round changed the pair. -/
def editFeeds (edit : UfPair → CString → UfPair × Bool) :
    List CString → UfPair × Bool → UfPair × Bool
  | [], state => state
  | feed :: rest, (uf, changed) =>
      let (uf, edited) := edit uf feed
      editFeeds edit rest (uf, edited || changed)

/-- A stored value was found: edit the pair in it, and put it back if that changed it. -/
def editUser (json : Json.Parser) (edit : UfPair → CString → UfPair × Bool) (unchanged : String)
    (req : HttpRequest) (ufReq : UfPair) (dbVal : Bytes) : Handler HttpResponse :=
  match ufPairFromDbvalue json dbVal with
  | .error reason => .fault reason
  | .ok none => return decline .status500 (lit "uf_pair_from_dbvalue(uf_db) fail!") req
  | .ok (some ufDb) =>
      let (ufDb, changed) := editFeeds edit ufReq.feeds (ufDb, false)
      if changed then putUser req ufDb
      else return decline .status304 (lit unchanged) req

/-- What follows the lookup of the user. -/
def withLookup (json : Json.Parser) (unknown : HttpRequest → UfPair → Handler HttpResponse)
    (edit : UfPair → CString → UfPair × Bool) (unchanged : String)
    (req : HttpRequest) (ufReq : UfPair) : Status × Bytes → Handler HttpResponse
  | (.notFound _, _) => unknown req ufReq
  | (.error text, _) => return decline .status500 text.text req
  | (.ok, dbVal) =>
      if dbVal.length ≤ 0 then return decline .status500 Status.ok.toCStr req
      else editUser json edit unchanged req ufReq dbVal

/-- The body that `subscribe_user` and `unsubscribe_user` share. -/
def updateUser (json : Json.Parser) (unknown : HttpRequest → UfPair → Handler HttpResponse)
    (edit : UfPair → CString → UfPair × Bool) (unchanged : String) (req : HttpRequest) :
    Handler HttpResponse :=
  shutdownCheck req <|
    if req.method ≠ .put then .done (decline .status501 (lit "Not Implemented!") req)
    else if req.body.length ≤ 0 then .done (decline .status400 (lit "Empty JSON Payload!") req)
    else
      match ufPairFromRequest json req.body with
      | .error reason => .fault reason
      | .ok none => .done (decline .status500 (lit "Parse error in payload!") req)
      | .ok (some ufReq) => ufGet ufReq.user >>= withLookup json unknown edit unchanged req ufReq

def subscribeUser (json : Json.Parser) : HttpRequest → Handler HttpResponse :=
  updateUser json putUser ufPairAddFeed "User already subscribed!"

def unsubscribeUser (json : Json.Parser) : HttpRequest → Handler HttpResponse :=
  updateUser json (fun req _ => .done (decline .status404 (lit "User not found!") req))
    ufPairDeleteFeed "User Not Subscribed!"

/-! ## 2. Submit articles -/

/-- One round of the loop over the articles: `i` is counted beside the iterator. -/
def submitArticle (fa : FaSubmission) (i : Nat) (article : CString) : Handler FaSubmission :=
  if isarticleValid article then do
    let s ← faPut article
    if s.isOk then .ofExcept (faSubmissionArticleDisp fa i (lit "accepted"))
    else .ofExcept (faSubmissionArticleDisp fa i s.toCStr)
  else .ofExcept (faSubmissionArticleDisp fa i (lit "rejected"))

/-- The loop, from one article on. -/
def submitLoop : List CString → Nat → FaSubmission → Handler FaSubmission
  | [], _, fa => return fa
  | article :: rest, i, fa => submitArticle fa i article >>= submitLoop rest (i + 1)

/-- Every article of a parsed submission, in order. -/
def submitAll (fa : FaSubmission) : Handler FaSubmission := submitLoop fa.articles 0 fa

/-- The last step: list the dispositions. -/
def respondSubmission (req : HttpRequest) (fa : FaSubmission) : HttpResponse :=
  let vecFaRes := faSubmissionResponse fa
  respondJson vecFaRes (vcVectorSize vecFaRes) req

def submitArticles (json : Json.Parser) (req : HttpRequest) : Handler HttpResponse :=
  shutdownCheck req <|
    if req.method ≠ .post then .done (decline .status501 (lit "Not Implemented!") req)
    else if req.body.length ≤ 0 then .done (decline .status400 (lit "Empty JSON Payload!") req)
    else
      match routeObject req.url req.urlLength with
      | .error reason => .fault reason
      | .ok none => .done (decline .status400 (lit "Bad feed in uri!") req)
      | .ok (some feed) =>
          if !isobjectValid feed then .done (decline .status400 (lit "Bad feed in uri!") req)
          else
            match faSubmissionFromRequest json feed req.body with
            | .error reason => .fault reason
            | .ok none => .done (decline .status500 (lit "Parse error in payload!") req)
            | .ok (some fa) => submitAll fa >>= fun fa => .done (respondSubmission req fa)

/-! ## 3. and 4. Lookups -/

/-- The start that `get_user` and `get_articles` share: the user in the URI, looked up, and
its value if there is one. -/
def lookupUser (req : HttpRequest) (found : Bytes → Handler HttpResponse) :
    Handler HttpResponse :=
  shutdownCheck req <|
    if req.method ≠ .get then .done (decline .status501 (lit "Not Implemented!") req)
    else
      match routeObject req.url req.urlLength with
      | .error reason => .fault reason
      | .ok none => .done (decline .status400 (lit "Bad user in uri!") req)
      | .ok (some user) =>
          if !isobjectValid user then .done (decline .status400 (lit "Bad user in uri!") req)
          else
            ufGet user >>= fun
              | (.notFound _, _) => .done (decline .status404 (lit "User not found!") req)
              | (.error text, _) => .done (decline .status500 text.text req)
              | (.ok, dbVal) =>
                  if dbVal.length ≤ 0 then .done (decline .status500 Status.ok.toCStr req)
                  else found dbVal

def getUser (req : HttpRequest) : Handler HttpResponse :=
  lookupUser req fun dbVal => .done (respondJson dbVal dbVal.length req)

/-- `article + feed_length + 1`, the text behind the key's prefix. -/
def articleContent (feedLength : Nat) (article : CString) : Except Fault CString :=
  if feedLength + 1 ≤ article.bytes.length then .ok (cstr (article.bytes.drop (feedLength + 1)))
  else .error .outOfBounds

/-- What one key adds to the listing. -/
def appendRow (feed : CString) (key : Bytes) (vecUaRes : VcVector UInt8) :
    Except Fault (VcVector UInt8) := do
  let vec := vcStringAppend vecUaRes (lit "\x7b\"feed\":\"")
  let vec := vcStringAppend vec feed
  let vec := vcStringAppend vec (lit "\",\"content\":\"")
  let content ← articleContent feed.bytes.length (cstr key)
  let deparsed ← deref (vcStringJsonDeparseChar content)
  let vec := vcStringAppend vec (vcStringBegin deparsed)
  return vcStringAppend vec (lit "\"\x7d,\n")

/-- The inner loop: `keys` is what the iterator has in front of it. -/
def scanFeed (feed : CString) : List Bytes → VcVector UInt8 → Handler (VcVector UInt8)
  | [], vec => return vec
  | key :: rest, vec =>
      if strncmpEq feed.bytes (cstr key).bytes feed.bytes.length then
        match appendRow feed key vec with
        | .error reason => .fault reason
        | .ok vec => .call (S := calls) .itNext fun _ => scanFeed feed rest vec
      else return vec

/-- The outer loop: each feed seeks the one iterator anew. -/
def scanFeeds (keys : List Bytes) : List CString → VcVector UInt8 → Handler (VcVector UInt8)
  | [], vec => return vec
  | feed :: rest, vec =>
      .call (S := calls) (.itSeek feed.bytes) fun _ =>
        scanFeed feed (OrderedKeys.seek feed.bytes keys) vec >>= scanFeeds keys rest

/-- Trim the last separator and close the listing, or decline for want of a row. -/
def respondArticles (req : HttpRequest) (prefixLength : Nat) (vecUaRes : VcVector UInt8) :
    HttpResponse :=
  if vcStringLength vecUaRes > prefixLength then
    let vec := vcStringNRemove vecUaRes 2
    let vec := vcStringAppend vec (lit "\n]\x7d\n")
    respondJson vec (vcStringLength vec) req
  else decline .status204 (lit "No articles for user!") req

def listArticles (json : Json.Parser) (req : HttpRequest) (dbVal : Bytes) :
    Handler HttpResponse :=
  match ufPairFromDbvalue json dbVal with
  | .error reason => .fault reason
  | .ok none => .done (decline .status500 (lit "uf_pair_from_dbvalue(uf_db) fail!") req)
  | .ok (some ufDb) =>
      let vecUaRes := vcStringAppend vcStringCreate (lit "\x7b\"articles\":[\n")
      let prefixLength := vcStringLength vecUaRes
      .call (S := calls) .faNewIterator fun keys =>
        scanFeeds keys ufDb.feeds vecUaRes >>= fun vec =>
          .call (S := calls) .itDelete fun _ => .done (respondArticles req prefixLength vec)

def getArticles (json : Json.Parser) (req : HttpRequest) : Handler HttpResponse :=
  lookupUser req (listArticles json req)

/-! ## Shutdown -/

/-- `shutdown_feeder`, the callback that runs when the response is out. -/
def shutdownFeeder : Handler Unit :=
  .call (S := calls) .deleteUf fun _ =>
    .call (S := calls) .deleteFa fun _ =>
      .call (S := calls) .exit fun _ => .done ()

/-- `shutdown_feeder_response`, and its callback after it. -/
def shutdownFeederResponse (_ : HttpRequest) : Handler HttpResponse :=
  let res : HttpResponse :=
    ⟨.status503, [("Content-Type", "text/html")], some (1, 0), (lit "Shutting down!").bytes⟩
  .call (S := calls) .setFeederShutdown fun _ =>
    .call (S := calls) (.send res) fun _ => shutdownFeeder >>= fun _ => .done res

/-! ## Routes -/

inductive Route where
  | subscribe
  | unsubscribe
  | submit
  | user
  | userArticles
  | shutdown
deriving DecidableEq

def handle (json : Json.Parser) : Route → HttpRequest → Handler HttpResponse
  | .subscribe => subscribeUser json
  | .unsubscribe => unsubscribeUser json
  | .submit => submitArticles json
  | .user => getUser
  | .userArticles => getArticles json
  | .shutdown => shutdownFeederResponse

/-! ## The two databases -/

/-- The user-feed database as a map, the article database as its keys (every value in it is
empty), the flag, and whether each database has been deleted and the process has exited. -/
structure World where
  uf : Bytes → Option Bytes
  fa : OrderedKeys UInt8
  feederShutdown : Bool
  ufDeleted : Bool
  faDeleted : Bool
  exited : Bool

def World.empty : World := ⟨fun _ => none, .empty, false, false, false, false⟩

/-- What a call, so answered, leaves behind. A `Put` that fails leaves the store alone. -/
def World.after (w : World) : (c : Call) → c.Answer → World
  | .setFeederShutdown, _ => { w with feederShutdown := true }
  | .ufPut key value, s =>
      if Status.isOk s then { w with uf := Function.update w.uf key (some value) } else w
  | .faPut key, s => if Status.isOk s then { w with fa := w.fa.insert key } else w
  | .deleteUf, _ => { w with ufDeleted := true }
  | .deleteFa, _ => { w with faDeleted := true }
  | .exit, _ => { w with exited := true }
  | _, _ => w

/-- The answers that report the world as it is. A `Get` may fail, and says `NotFound` only
when there is nothing there. -/
def Honest (w : World) : (c : Call) → c.Answer → Prop
  | .feederShutdown, shutdown => shutdown = w.feederShutdown
  | .ufGet key, (.ok, value) => w.uf key = some value
  | .ufGet key, (.notFound _, _) => w.uf key = none
  | .faNewIterator, keys => keys = w.fa.keys
  | _, _ => True

/-- Any call may be answered with any status the database has, and reads are honest. -/
def honestCall : Program.Semantics calls World := fun c w a w' => Honest w c a ∧ w' = w.after c a

/-- Nothing at all is known of the answers. -/
def anyCall : Program.Semantics calls World := fun c w a w' => w' = w.after c a

def notFoundText : StatusText := ⟨lit "NotFound: ", by decide, by decide⟩

/-- Every database call succeeds. -/
def succeed : (c : Call) → World → c.Answer × World
  | .feederShutdown, w => (w.feederShutdown, w)
  | .ufGet key, w =>
      match w.uf key with
      | some value => ((.ok, value), w)
      | none => ((.notFound notFoundText, []), w)
  | .ufPut key value, w => (.ok, w.after (.ufPut key value) .ok)
  | .faPut key, w => (.ok, w.after (.faPut key) .ok)
  | .faNewIterator, w => (w.fa.keys, w)
  | .itSeek key, w => ((), w.after (.itSeek key) ())
  | .itNext, w => ((), w.after .itNext ())
  | .itDelete, w => ((), w.after .itDelete ())
  | .setFeederShutdown, w => ((), w.after .setFeederShutdown ())
  | .deleteUf, w => ((), w.after .deleteUf ())
  | .deleteFa, w => ((), w.after .deleteFa ())
  | .send res, w => ((), w.after (.send res) ())
  | .exit, w => ((), w.after .exit ())

end Feedserver.Source
