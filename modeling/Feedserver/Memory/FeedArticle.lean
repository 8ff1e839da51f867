/-
# Memory.FeedArticle — what feedarticle.c allocates and frees

The functions of `Source.FeedArticle` in the way of `Memory.UserFeed`: a submission is one
resource, with the strings and the two vectors that `fa_submission_release` frees. The text of
a key is built in a vector of its own, copied and released.
-/
import Feedserver.Memory.UserFeed

namespace Feedserver.Memory

open Feedserver.Theory
open Ownership (Held Tracks acquire read write release)

set_option autoImplicit false

abbrev FaSubmission := Held Source.FaSubmission

def faSubmissionNew (feed : CString) : Owned FaSubmission := acquire (Source.faSubmissionNew feed)

def faSubmissionAddArticle (fa : FaSubmission) (article : CString) : Owned FaSubmission := do
  let va ← vcStringCreate
  let submission ← read fa
  let va ← vcStringAppend va submission.feed
  let va ← vcStringAppend va (lit "/")
  let va ← vcStringAppend va article
  let key ← read va
  let fa ← write fa
    { submission with
      articles := Source.vcVectorPushBack submission.articles (Source.vcStringBegin key)
      disp := Source.vcVectorPushBack submission.disp (lit "") }
  vcStringRelease va
  return fa

def faSubmissionRelease (fa : FaSubmission) : Owned Unit := release fa

/-- One round of the loop over `articles`. -/
def addRequestArticle (jv : Held Json.Value) (fa : FaSubmission) (value : Json.Value) :
    Owned FaSubmission := do
  let _ ← read jv
  match Source.jsonFindObject (lit "content") value with
  | none => .fault .nullPointer
  | some (.string s) => faSubmissionAddArticle fa (cstr s)
  | some (.array []) => .fault .outOfBounds
  | some (.array (.string s :: _)) => faSubmissionAddArticle fa (cstr s)
  | some _ => return fa

def addRequestArticles (jv : Held Json.Value) : List Json.Value → FaSubmission → Owned FaSubmission
  | [], fa => return fa
  | value :: rest, fa => do
      let fa ← addRequestArticle jv fa value
      addRequestArticles jv rest fa

def faSubmissionFromRequest (json : Json.Parser) (feed : Held CString) (payload : Bytes) :
    Owned (Option FaSubmission) := do
  match ← jsonParse json payload with
  | none => return none
  | some jv =>
      match ← read jv with
      | .object members => do
          let name ← read feed
          let fa ← faSubmissionNew name
          match Source.jsonFindObject (lit "articles") (.object members) with
          | none => do
              jsonValueFree jv
              faSubmissionRelease fa
              return none
          | some (.array values) => do
              let fa ← addRequestArticles jv values fa
              jsonValueFree jv
              return some fa
          | some _ => do
              jsonValueFree jv
              return some fa
      | _ => refuse jv

def faSubmissionArticleDisp (fa : FaSubmission) (idx : Nat) (disp : CString) :
    Owned FaSubmission := do
  let submission ← read fa
  let replaced ← Program.ofExcept (Source.faSubmissionArticleDisp submission idx disp)
  write fa replaced

/-- The loop of `fa_submission_response`, from one disposition on. -/
def appendDisps (fa : FaSubmission) : List CString → VcString → Owned VcString
  | [], vs => return vs
  | disp :: rest, vs => do
      let vs ← vcStringAppend vs (lit "\x7b\"disposition\": \"")
      let disp ← borrow fa disp
      let vs ← vcStringAppend vs disp
      let vs ← vcStringAppend vs (lit "\"\x7d\n")
      if rest = [] then appendDisps fa rest vs
      else do
        let vs ← vcStringAppend vs (lit ",\n")
        appendDisps fa rest vs

def faSubmissionResponse (fa : FaSubmission) : Owned VcString := do
  let vs ← vcStringCreate
  let submission ← read fa
  let vs ← vcStringAppend vs (lit "\x7b\n\"articles\": [\n")
  let vs ← appendDisps fa submission.disp vs
  vcStringAppend vs (lit "]\n\x7d\n")

/-! ## What they leave behind -/

section Specs

variable {live : Finset Nat} {place : Nat}

open Ownership (tracks_done_iff tracks_fault_iff tracks_release_bind tracks_read_bind
  tracks_write_bind tracks_acquire_bind bind_bind)

theorem addArticle_tracks (fa : Source.FaSubmission) (article : CString) (own : place ∈ live) :
    Tracks (Holds place live) (faSubmissionAddArticle ⟨place, fa⟩ article)
      (.done (Source.faSubmissionAddArticle fa article)) live := by
  simp only [faSubmissionAddArticle, vcStringCreate, vcStringAppend, vcStringRelease,
    tracks_acquire_bind, tracks_read_bind, tracks_write_bind, tracks_release_bind,
    Finset.mem_insert, own, or_true, true_or, true_and, Program.pure_eq]
  intro other fresh
  rw [Finset.erase_insert fresh]
  exact tracks_done_iff.2 ⟨rfl, rfl⟩

theorem addRequestArticle_tracks {jv : Held Json.Value} (fa : Source.FaSubmission)
    (value : Json.Value) (tree : jv.place ∈ live) (own : place ∈ live) :
    Tracks (Holds place live) (addRequestArticle jv ⟨place, fa⟩ value)
      (.ofExcept (Source.addRequestArticle fa value)) live := by
  simp only [addRequestArticle, Source.addRequestArticle, tracks_read_bind, tree, true_and]
  cases Source.jsonFindObject (lit "content") value with
  | none => exact tracks_fault_iff.2 rfl
  | some jo =>
      cases jo with
      | string s => exact addArticle_tracks fa (cstr s) own
      | array values =>
          cases values with
          | nil => exact tracks_fault_iff.2 rfl
          | cons first rest =>
              cases first with
              | string s => exact addArticle_tracks fa (cstr s) own
              | _ => exact tracks_done_iff.2 ⟨rfl, rfl⟩
      | _ => exact tracks_done_iff.2 ⟨rfl, rfl⟩

theorem addRequestArticles_tracks {jv : Held Json.Value} (values : List Json.Value)
    (fa : Source.FaSubmission) (tree : jv.place ∈ live) (own : place ∈ live) :
    Tracks (Holds place live) (addRequestArticles jv values ⟨place, fa⟩)
      (.ofExcept (values.foldlM Source.addRequestArticle fa)) live := by
  induction values generalizing fa with
  | nil => exact tracks_done_iff.2 ⟨rfl, rfl⟩
  | cons value rest ih =>
      rw [List.foldlM_cons]
      apply (addRequestArticle_tracks fa value tree own).ofExcept_bind
      · intro reason failed
        rw [failed]
        rfl
      · rintro _ fa' _ added ⟨rfl, rfl⟩
        rw [added]
        exact ih fa'

theorem submissionFromRequest_tracks (json : Json.Parser) {feed : Held CString} (payload : Bytes)
    (name : feed.place ∈ live) :
    Tracks (MayHand live) (faSubmissionFromRequest json feed payload)
      (.ofExcept (Source.faSubmissionFromRequest json feed.value payload)) live := by
  unfold faSubmissionFromRequest Source.faSubmissionFromRequest jsonParse
  cases json.parse payload with
  | none => exact tracks_done_iff.2 rfl
  | some value =>
      simp only [bind_bind, tracks_acquire_bind, Program.pure_eq, Program.done_bind,
        tracks_read_bind, Finset.mem_insert_self, true_and]
      intro tree fresh
      cases value with
      | object members =>
          have still : feed.place ∈ insert tree live := Finset.mem_insert_of_mem name
          simp only [tracks_read_bind, faSubmissionNew, tracks_acquire_bind, still, true_and]
          intro own new
          have hands (fa : Source.FaSubmission) : MayHand (insert tree live) (some ⟨own, fa⟩)
              (some fa) (insert own (insert tree live)) := ⟨rfl, new, rfl⟩
          have freed (fa : Source.FaSubmission) := (hands fa).free fresh
          cases Source.jsonFindObject (lit "articles") (.object members) with
          | none =>
              obtain ⟨member, -, unused, left⟩ := freed (Source.faSubmissionNew feed.value)
              refine tracks_release_bind.2 ⟨member, ?_⟩
              rw [left]
              refine tracks_release_bind.2 ⟨Finset.mem_insert_self own live, ?_⟩
              rw [Finset.erase_insert unused]
              exact tracks_done_iff.2 rfl
          | some ji =>
              cases ji with
              | array values =>
                  have parsed : (⟨tree, .object members⟩ : Held Json.Value).place ∈
                      insert own (insert tree live) :=
                    Finset.mem_insert_of_mem (Finset.mem_insert_self tree live)
                  have added := addRequestArticles_tracks values (Source.faSubmissionNew feed.value)
                    parsed (Finset.mem_insert_self own (insert tree live))
                  apply added.ofExcept_bind
                  · intro reason failed
                    dsimp only
                    rw [failed]
                    rfl
                  · rintro _ fa _ made ⟨rfl, rfl⟩
                    dsimp only
                    rw [made]
                    exact tracks_release_bind.2 ⟨(freed fa).1, tracks_done_iff.2 (freed fa).2⟩
              | _ =>
                  obtain ⟨member, kept⟩ := freed (Source.faSubmissionNew feed.value)
                  exact tracks_release_bind.2 ⟨member, tracks_done_iff.2 kept⟩
      | _ => exact refuse_tracks fresh

theorem articleDisp_tracks (fa : Source.FaSubmission) (idx : Nat) (disp : CString)
    (own : place ∈ live) : Tracks (Holds place live) (faSubmissionArticleDisp ⟨place, fa⟩ idx disp)
      (.ofExcept (Source.faSubmissionArticleDisp fa idx disp)) live := by
  simp only [faSubmissionArticleDisp, tracks_read_bind, own, true_and]
  cases Source.faSubmissionArticleDisp fa idx disp with
  | error reason => exact tracks_fault_iff.2 rfl
  | ok replaced => exact ⟨own, fun _ _ => tracks_done_iff.2 ⟨rfl, rfl⟩⟩

theorem appendDisps_tracks {fa : FaSubmission} (disps : List CString) (text : Source.VcVector UInt8)
    (submission : fa.place ∈ live) (own : place ∈ live) :
    Tracks (Holds place live) (appendDisps fa disps ⟨place, text⟩)
      (.done (Source.appendDisps disps text)) live := by
  induction disps generalizing text with
  | nil => exact tracks_done_iff.2 ⟨rfl, rfl⟩
  | cons disp rest ih =>
      simp only [appendDisps, vcStringAppend, borrow, bind_bind, tracks_read_bind,
        tracks_write_bind, Program.pure_eq, Program.done_bind, submission, own, true_and,
        Source.appendDisps]
      by_cases last : rest = []
      · simp only [if_pos last]
        exact ih _
      · simp only [if_neg last, tracks_write_bind, own, true_and]
        exact ih _

theorem submissionResponse_tracks {fa : FaSubmission} (submission : fa.place ∈ live) :
    Tracks (Hands live) (faSubmissionResponse fa) (.done (Source.faSubmissionResponse fa.value))
      live := by
  simp only [faSubmissionResponse, vcStringCreate, vcStringAppend, tracks_acquire_bind]
  intro own fresh
  have both : fa.place ∈ insert own live := Finset.mem_insert_of_mem submission
  simp only [tracks_read_bind, tracks_write_bind, both, Finset.mem_insert_self, true_and]
  apply (appendDisps_tracks fa.value.disp _ both (Finset.mem_insert_self own live)).done_bind
  rintro _ _ ⟨rfl, rfl⟩
  exact ⟨Finset.mem_insert_self _ _, fun _ _ => tracks_done_iff.2 ⟨rfl, fresh, rfl⟩⟩

end Specs

end Feedserver.Memory
