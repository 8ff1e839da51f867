/-
# Articles.Keys — from a request to the keys of its articles

`submitted json payload` reads a payload in full: the contents are the JSON strings as they
decode. `fa_submission_from_request` takes exactly the payloads that submit something, and
keeps of each content what a `char *` shows of it (`submissionFromRequest_eq_some_iff`). A key is the
feed, a slash and that (`articleKey_bytes`); as no slash is in a feed, it can be taken
apart again (`articleKey_inj`). It is accepted when the content is printable
(`isarticleValid_articleKey`). `submitArticles_cases` is the handler in these terms, and
`finishes_submitArticles` what it has done when it is through.
-/
import Feedserver.Articles.Submissions
import Feedserver.Records.Names

namespace Feedserver.Articles

open Feedserver.Theory
open Feedserver.Source
open Feedserver.Records

set_option autoImplicit false

/-! ## Payloads -/

/-- The content of an entry, or that it is passed over; an entry without one cannot be read. -/
def contentOf (value : Json.Value) : Option (Option Bytes) :=
  match jsonFindObject (lit "content") value with
  | none => none
  | some (.string s) => some (some s)
  | some (.array []) => none
  | some (.array (.string s :: _)) => some (some s)
  | some _ => some none

def contentsOf : List Json.Value → Option (List Bytes)
  | [] => some []
  | value :: rest =>
      match contentOf value with
      | none => none
      | some entry => (contentsOf rest).map fun others => entry.toList ++ others

/-- The contents that a payload submits, in order. -/
def submitted (json : Json.Parser) (payload : Bytes) : Option (List Bytes) :=
  match json.parse payload with
  | some (.object members) =>
      match jsonFindObject (lit "articles") (.object members) with
      | none => none
      | some (.array values) => contentsOf values
      | some _ => some []
  | _ => none

def addArticles (fa : FaSubmission) (contents : List Bytes) : FaSubmission :=
  (contents.map cstr).foldl faSubmissionAddArticle fa

/-- These contents, submitted to the feed. -/
def submission (feed : CString) (contents : List Bytes) : FaSubmission :=
  addArticles (faSubmissionNew feed) contents

theorem addRequestArticle_eq_ok_iff {fa fa' : FaSubmission} {value : Json.Value} :
    addRequestArticle fa value = .ok fa' ↔
      ∃ entry, contentOf value = some entry ∧ fa' = addArticles fa entry.toList := by
  unfold addRequestArticle contentOf
  cases jsonFindObject (lit "content") value with
  | none => simp
  | some found =>
      cases found with
      | string s => simp [addArticles, eq_comm]
      | array values =>
          cases values with
          | nil => simp
          | cons first rest => cases first <;> simp [addArticles, eq_comm]
      | _ => simp [addArticles, eq_comm]

theorem foldlM_addRequestArticle {fa fa' : FaSubmission} {values : List Json.Value} :
    values.foldlM addRequestArticle fa = .ok fa' ↔
      ∃ contents, contentsOf values = some contents ∧ fa' = addArticles fa contents := by
  induction values generalizing fa with
  | nil =>
      simp only [List.foldlM_nil, contentsOf, Option.some.injEq, exists_eq_left']
      exact ⟨fun same => (Except.ok.inj same).symm, fun same => congrArg _ same.symm⟩
  | cons value rest ih =>
      rw [List.foldlM_cons]
      constructor
      · intro folded
        cases added : addRequestArticle fa value with
        | error reason => rw [added] at folded; cases folded
        | ok next =>
            rw [added] at folded
            obtain ⟨entry, found, rfl⟩ := addRequestArticle_eq_ok_iff.1 added
            obtain ⟨others, read, rfl⟩ := ih.1 folded
            exact ⟨entry.toList ++ others, by simp [contentsOf, found, read], by simp [addArticles]⟩
      · rintro ⟨contents, read, rfl⟩
        cases found : contentOf value with
        | none => simp [contentsOf, found] at read
        | some entry =>
            simp only [contentsOf, found, Option.map_eq_some_iff] at read
            obtain ⟨others, readOthers, rfl⟩ := read
            rw [addRequestArticle_eq_ok_iff.2 ⟨entry, found, rfl⟩]
            exact ih.2 ⟨others, readOthers, by simp [addArticles]⟩

/-- A submission is read from exactly the payloads that submit something. -/
theorem submissionFromRequest_eq_some_iff {json : Json.Parser} {feed : CString} {payload : Bytes}
    {fa : FaSubmission} : faSubmissionFromRequest json feed payload = .ok (some fa) ↔
      ∃ contents, submitted json payload = some contents ∧ fa = submission feed contents := by
  unfold faSubmissionFromRequest submitted
  cases json.parse payload with
  | none => simp
  | some tree =>
      cases tree with
      | object members =>
          simp only
          cases jsonFindObject (lit "articles") (.object members) with
          | none => simp
          | some ji =>
              cases ji with
              | array values =>
                  constructor
                  · intro parsed
                    cases folded : values.foldlM addRequestArticle (faSubmissionNew feed) with
                    | error reason => simp [folded, Except.map] at parsed
                    | ok built =>
                        obtain rfl : built = fa := by simpa [folded, Except.map] using parsed
                        exact foldlM_addRequestArticle.1 folded
                  · rintro ⟨contents, read, rfl⟩
                    simp only [foldlM_addRequestArticle.2 ⟨contents, read, rfl⟩]
                    rfl
              | _ => simp [submission, addArticles, eq_comm]
      | _ => simp

/-! ## Keys -/

theorem articleKey_bytes (feed article : CString) :
    (articleKey feed article).bytes = feed.bytes ++ 0x2F :: article.bytes := by
  have builds := ((builds_create.append feed).append (lit "/")).append article
  have slash : (lit "/").bytes = [0x2F] := by decide
  have free : (0 : UInt8) ∉ feed.bytes ++ 0x2F :: article.bytes := by
    simp only [List.mem_append, List.mem_cons, not_or]
    exact ⟨feed.nulFree, by decide, article.nulFree⟩
  rw [slash, List.nil_append, List.append_assoc] at builds
  exact builds.begin_ free

theorem addArticles_eq (fa : FaSubmission) (contents : List Bytes) :
    addArticles fa contents = ⟨fa.feed,
      fa.articles ++ contents.map fun c => articleKey fa.feed (cstr c), fa.disp ++ contents.map fun _ => lit ""⟩ := by
  induction contents generalizing fa with
  | nil => simp [addArticles]
  | cons content rest ih =>
      have step : addArticles fa (content :: rest) =
          addArticles (faSubmissionAddArticle fa (cstr content)) rest := rfl
      rw [step, ih]
      simp [faSubmissionAddArticle, vcVectorPushBack, vcVectorAppend]

theorem submission_articles (feed : CString) (contents : List Bytes) :
    (submission feed contents).articles = contents.map fun c => articleKey feed (cstr c) := by
  rw [submission, addArticles_eq]
  rfl

/-! ## Requests -/

/-- The request submits these contents to this feed. -/
structure Submits (json : Json.Parser) (req : HttpRequest) (feed : CString)
    (contents : List Bytes) : Prop where
  located : Locates req feed
  valid : ValidName feed
  contents : submitted json req.body = some contents

/-- A submission is of one feed and one list of contents. -/
theorem Submits.unique {json : Json.Parser} {req : HttpRequest} {feed feed' : CString}
    {contents contents' : List Bytes} (first : Submits json req feed contents)
    (second : Submits json req feed' contents') : feed = feed' ∧ contents = contents' := by
  have route := routeObject_of_locates first.located first.valid.no_space
  rw [routeObject_of_locates second.located second.valid.no_space] at route
  have payload := first.contents
  rw [second.contents] at payload
  exact ⟨(Option.some.inj (Except.ok.inj route)).symm, (Option.some.inj payload).symm⟩

/-- What follows the shutdown check of `submit_articles` answers without a call, or submits
and answers 200. -/
theorem submitArticles_cases (json : Json.Parser) (req : HttpRequest) :
    ∃ rest, submitArticles json req = shutdownCheck req rest ∧
      ((∃ reason, rest = .fault reason) ∨ (∃ res, rest = .done res ∧ res.status ≠ .status200) ∨
        ∃ feed contents, Submits json req feed contents ∧ rest =
          submitAll (submission feed contents) >>= fun fa => .done (respondSubmission req fa)) := by
  refine ⟨_, rfl, ?_⟩
  split
  · exact .inr (.inl ⟨_, rfl, by simp⟩)
  · split
    · exact .inr (.inl ⟨_, rfl, by simp⟩)
    · split
      · exact .inl ⟨_, rfl⟩
      · exact .inr (.inl ⟨_, rfl, by simp⟩)
      · rename_i feed route
        split
        · exact .inr (.inl ⟨_, rfl, by simp⟩)
        · rename_i valid
          split
          · exact .inl ⟨_, rfl⟩
          · exact .inr (.inl ⟨_, rfl, by simp⟩)
          · rename_i fa parsed
            obtain ⟨contents, read, rfl⟩ := submissionFromRequest_eq_some_iff.1 parsed
            have isValid : ValidName feed := by simpa [ValidName] using valid
            exact .inr (.inr ⟨feed, contents, ⟨locates_of_routeObject route, isValid, read⟩, rfl⟩)

/-- A finished handler has made no `Put` and not answered 200, or it has tried the articles of
its payload one by one and answers with their dispositions. -/
theorem finishes_submitArticles {json : Json.Parser} {req : HttpRequest} {log : List (Event calls)}
    {outcome : Except Fault HttpResponse}
    (finished : Program.Finishes (submitArticles json req) log outcome) :
    ∃ (shutdown : Bool) (rest : List (Event calls)), log = ⟨.feederShutdown, shutdown⟩ :: rest ∧
      ((rest = [] ∧ ∀ res, outcome = .ok res → res.status ≠ .status200) ∨
        ∃ feed contents puts, Submits json req feed contents ∧
          List.Forall₂ Tried (submission feed contents).articles puts ∧
            rest = putEvents (submission feed contents).articles puts ∧
              outcome = .ok (respondSubmission req
                ⟨feed, (submission feed contents).articles, puts.map dispositionOf⟩)) := by
  obtain ⟨rest, same, cases⟩ := submitArticles_cases json req
  rw [same] at finished
  obtain ⟨shutdown, tail, rfl, finishedRest⟩ := Program.finishes_call_iff.1 finished
  refine ⟨shutdown, tail, rfl, ?_⟩
  split at finishedRest
  · obtain ⟨rfl, rfl⟩ := Program.finishes_done_iff.1 finishedRest
    refine .inl ⟨rfl, ?_⟩
    intro res answered
    cases answered
    simp
  · rcases cases with ⟨reason, rfl⟩ | ⟨declined, rfl, failed⟩ | ⟨feed, contents, submits, rfl⟩
    · obtain ⟨rfl, rfl⟩ := Program.finishes_fault_iff.1 finishedRest
      exact .inl ⟨rfl, nofun⟩
    · obtain ⟨rfl, rfl⟩ := Program.finishes_done_iff.1 finishedRest
      refine .inl ⟨rfl, ?_⟩
      intro res answered
      cases answered
      exact failed
    · have lockstep : Lockstep (submission feed contents) :=
        lockstep_request (submissionFromRequest_eq_some_iff.2 ⟨contents, submits.contents, rfl⟩)
      rcases Program.finishes_bind_iff.1 finishedRest with ⟨reason, faulted, -⟩ |
        ⟨fa, first, second, rfl, submitted, responded⟩
      · obtain ⟨_, -, -, impossible⟩ := finishes_submitAll lockstep faulted
        cases impossible
      · obtain ⟨puts, tried, rfl, result⟩ := finishes_submitAll lockstep submitted
        cases result
        obtain ⟨rfl, rfl⟩ := Program.finishes_done_iff.1 responded
        refine .inr ⟨feed, contents, puts, submits, tried, List.append_nil _, ?_⟩
        rw [submission, addArticles_eq]
        rfl

/-- The key of an article that the request submits. -/
def SubmitsKey (json : Json.Parser) (req : HttpRequest) (key : Bytes) : Prop :=
  ∃ feed contents content, Submits json req feed contents ∧ content ∈ contents ∧
    key = (articleKey feed (cstr content)).bytes

/-- A submission reads the flag and puts its own articles. -/
theorem submitArticles_uses (json : Json.Parser) (req : HttpRequest) :
    Program.Uses (S := calls) (fun c => c = .feederShutdown ∨ ∃ key, c = .faPut key ∧
      SubmitsKey json req key) (submitArticles json req) := by
  obtain ⟨rest, same, cases⟩ := submitArticles_cases json req
  rw [same]
  refine ⟨.inl rfl, ?_⟩
  intro shutdown
  cases shutdown with
  | true => trivial
  | false =>
      rcases cases with ⟨reason, rfl⟩ | ⟨res, rfl, -⟩ | ⟨feed, contents, submits, rfl⟩
      · trivial
      · trivial
      · refine Program.Uses.bind ((submitLoop_uses _ 0 _).mono ?_) fun _ => trivial
        rintro c ⟨article, member, rfl⟩
        rw [submission_articles] at member
        obtain ⟨content, inside, rfl⟩ := List.mem_map.1 member
        exact .inr ⟨_, rfl, feed, contents, content, submits, inside, rfl⟩

/-! ## Taking keys apart -/

/-- A feed without a slash in it that a key begins with begins the feed of the key. -/
theorem prefix_of_key {f g : CString} {content : Bytes} (noSlash : 0x2F ∉ f.bytes)
    (front : f.bytes <+: g.bytes ++ 0x2F :: content) : f.bytes <+: g.bytes := by
  rcases List.prefix_or_prefix_of_prefix front (List.prefix_append g.bytes _) with
    inside | ⟨t, beyond⟩
  · exact inside
  · cases t with
    | nil =>
        have same : g.bytes = f.bytes := by simpa using beyond
        exact same ▸ List.prefix_rfl
    | cons b t =>
        rw [← beyond, List.prefix_append_right_inj, List.cons_prefix_cons] at front
        exact absurd (by rw [← beyond, front.1]; simp) noSlash

/-- A key says which feed and which content it is of. -/
theorem articleKey_inj {f g c d : CString} (noSlash : 0x2F ∉ f.bytes) (noSlash' : 0x2F ∉ g.bytes)
    (same : (articleKey f c).bytes = (articleKey g d).bytes) : f = g ∧ c = d := by
  rw [articleKey_bytes, articleKey_bytes] at same
  have front : f.bytes <+: g.bytes ++ 0x2F :: d.bytes := ⟨_, same⟩
  have back : g.bytes <+: f.bytes ++ 0x2F :: c.bytes := ⟨_, same.symm⟩
  have feed : f.bytes = g.bytes := (prefix_of_key noSlash front).eq_of_length_le
    (prefix_of_key noSlash' back).length_le
  refine ⟨CString.ext feed, CString.ext ?_⟩
  simpa [feed] using same

/-! ## Keys that are accepted -/

/-- Every character is printable or white space. -/
def printable (s : Bytes) : Bool := s.all fun b => isprint b || isspace b

theorem isarticleValid_of_ne_nil {article : CString} (nonempty : article.bytes ≠ []) :
    isarticleValid article = printable article.bytes := by
  unfold isarticleValid printable
  cases bytes : article.bytes with
  | nil => exact absurd bytes nonempty
  | cons b bs => rfl

theorem printable_of_isalnum {b : UInt8} (alnum : isalnum b = true) : isprint b = true := by
  simp only [isalnum, Bool.or_eq_true, Bool.and_eq_true, decide_eq_true_eq,
    UInt8.le_iff_toNat_le] at alnum
  simp only [isprint, Bool.and_eq_true, decide_eq_true_eq, UInt8.le_iff_toNat_le]
  simp at alnum ⊢
  omega

/-- The feed and the slash of a key are printable, so the key is when the content is. -/
theorem isarticleValid_articleKey {feed : CString} (valid : ValidName feed) (content : CString) :
    isarticleValid (articleKey feed content) = printable content.bytes := by
  have front : printable feed.bytes = true := by
    apply List.all_eq_true.2
    intro b member
    simp [printable_of_isalnum ((validName_iff.1 valid).2 b member)]
  have slash : (isprint 0x2F || isspace 0x2F) = true := by decide
  rw [isarticleValid_of_ne_nil (by simp [articleKey_bytes]), articleKey_bytes]
  unfold printable at front ⊢
  rw [List.all_append, List.all_cons, front, slash, Bool.true_and, Bool.true_and]

end Feedserver.Articles
