/-
# Source.FeedArticle — feedarticle.c

A submission of articles to one feed. An article is kept as its key, the feed, a slash
and the content; the dispositions are a second vector, one entry pushed with each article
and replaced by position when its fate is known.
-/
import Feedserver.Source.UserFeed

namespace Feedserver.Source

open Feedserver.Theory

set_option autoImplicit false

/-- `fa_submission_t`. -/
structure FaSubmission where
  feed : CString
  articles : VcVector CString
  disp : VcVector CString
deriving DecidableEq

def faSubmissionNew (feed : CString) : FaSubmission := ⟨feed, [], []⟩

/-- The key of an article, as `fa_submission_add_article` builds it. -/
def articleKey (feed article : CString) : CString :=
  let va := vcStringCreate
  let va := vcStringAppend va feed
  let va := vcStringAppend va (lit "/")
  let va := vcStringAppend va article
  vcStringBegin va

def faSubmissionAddArticle (fa : FaSubmission) (article : CString) : FaSubmission :=
  { fa with
    articles := vcVectorPushBack fa.articles (articleKey fa.feed article)
    disp := vcVectorPushBack fa.disp (lit "") }

/-- One round of the loop over `articles`: the content is a string, or an array whose first
element is looked at without asking whether there is one. -/
def addRequestArticle (fa : FaSubmission) (value : Json.Value) : Except Fault FaSubmission :=
  match jsonFindObject (lit "content") value with
  | none => .error .nullPointer
  | some (.string s) => .ok (faSubmissionAddArticle fa (cstr s))
  | some (.array []) => .error .outOfBounds
  | some (.array (.string s :: _)) => .ok (faSubmissionAddArticle fa (cstr s))
  | some _ => .ok fa

def faSubmissionFromRequest (json : Json.Parser) (feed : CString) (payload : Bytes) :
    Except Fault (Option FaSubmission) :=
  match json.parse payload with
  | some (.object members) =>
      match jsonFindObject (lit "articles") (.object members) with
      | none => .ok none
      | some (.array values) =>
          (values.foldlM addRequestArticle (faSubmissionNew feed)).map some
      | some _ => .ok (some (faSubmissionNew feed))
  | _ => .ok none

def faSubmissionArticleDisp (fa : FaSubmission) (idx : Nat) (disp : CString) :
    Except Fault FaSubmission := do
  let replaced ← vcVectorReplace fa.disp idx disp
  return { fa with disp := replaced }

/-- The loop of `fa_submission_response`, from one disposition on. -/
def appendDisps : List CString → VcVector UInt8 → VcVector UInt8
  | [], vs => vs
  | disp :: rest, vs =>
      let vs := vcStringAppend vs (lit "\x7b\"disposition\": \"")
      let vs := vcStringAppend vs disp
      let vs := vcStringAppend vs (lit "\"\x7d\n")
      let vs := if rest = [] then vs else vcStringAppend vs (lit ",\n")
      appendDisps rest vs

def faSubmissionResponse (fa : FaSubmission) : VcVector UInt8 :=
  let vs := vcStringCreate
  let vs := vcStringAppend vs (lit "\x7b\n\"articles\": [\n")
  let vs := appendDisps fa.disp vs
  vcStringAppend vs (lit "]\n\x7d\n")

end Feedserver.Source
