/-
# Serving.Dispositions — which articles of a request its dispositions are about

`submit_articles` reports by position. What it reports on are the contents that the parser has
found: those of the first `articles` in the text, without the elements whose content is neither
a string nor an array that begins with one, and each up to its first NUL.

* `one_each_iff`: when the response has one disposition for each element of the array at the
  top, in order. `oneFoundEach_iff` says what that comes to where this array is the one found.
-/
import Feedserver.Articles.Payloads
import Feedserver.Articles.Reports
import Feedserver.Serving.Requests

namespace Feedserver.Serving

open Feedserver.Theory
open Feedserver.Source
open Feedserver.Records
open Feedserver.Articles

set_option autoImplicit false

/-! ## The keys of a submission -/

def keysOf (feed : CString) (contents : List Bytes) : List CString :=
  contents.map fun content => articleKey feed (cstr content)

theorem keysOf_eq (feed : CString) (contents : List Bytes) :
    keysOf feed contents = (submission feed contents).articles :=
  (submission_articles feed contents).symm

theorem map_valid_keysOf {feed : CString} (valid : ValidName feed) (contents : List Bytes) :
    (keysOf feed contents).map isarticleValid =
      contents.map fun content => printable (cstr content).bytes := by
  rw [keysOf, List.map_map]
  exact List.map_congr_left fun content _ => isarticleValid_articleKey valid _

/-- The log of a submission all of whose `Put`s succeed. -/
theorem putEvents_tryPut (articles : List CString) :
    putEvents articles (articles.map tryPut) =
      (articles.filter isarticleValid).map fun article => accepts article.bytes := by
  induction articles with
  | nil => rfl
  | cons article rest ih =>
      rw [List.map_cons, tryPut]
      cases valid : isarticleValid article with
      | true =>
          rw [if_pos rfl, putEvents, ih, List.filter_cons_of_pos valid]
          rfl
      | false =>
          have notValid : ¬ isarticleValid article = true := by simp [valid]
          rw [if_neg (by simp), putEvents, ih, List.filter_cons_of_neg notValid]

theorem accepts_injective : Function.Injective fun article : CString => accepts article.bytes := by
  intro a b same
  have keys : Call.faPut a.bytes = Call.faPut b.bytes := congrArg Event.call same
  exact CString.ext (Call.faPut.inj keys)

/-- The same key, or two keys that are both rejected. -/
def Alike (article article' : CString) : Prop :=
  article = article' ∨ (isarticleValid article = false ∧ isarticleValid article' = false)

theorem Alike.valid {article article' : CString} (alike : Alike article article') :
    isarticleValid article = isarticleValid article' := by
  rcases alike with rfl | ⟨invalid, invalid'⟩
  · rfl
  · rw [invalid, invalid']

section Alike

variable {articles articles' : List CString}

/-- Alike submissions are tried alike. -/
theorem tried_of_alike (alike : List.Forall₂ Alike articles articles')
    {puts : List (Option Status)} (tried : List.Forall₂ Tried articles puts) :
    List.Forall₂ Tried articles' puts ∧ putEvents articles puts = putEvents articles' puts := by
  induction alike generalizing puts with
  | nil =>
      cases tried
      exact ⟨.nil, rfl⟩
  | @cons article article' rest rest' first _ ih =>
      cases tried with
      | @cons _ put _ puts isTried others =>
          obtain ⟨later, same⟩ := ih others
          have isTried' : Tried article' put := by
            rw [Tried, ← first.valid]
            exact isTried
          refine ⟨.cons isTried' later, ?_⟩
          cases put with
          | none => exact same
          | some s =>
              -- a `Put` was made, so the key is valid, and it is the same in both
              have valid : isarticleValid article = true := isTried.symm
              rcases first with rfl | ⟨invalid, -⟩
              · rw [putEvents, putEvents, same]
              · rw [valid] at invalid
                cases invalid

/-- What is accepted and what the accepted keys are determines a submission up to what is
rejected. -/
theorem alike_of_same (flags : articles.map isarticleValid = articles'.map isarticleValid)
    (stored : articles.filter isarticleValid = articles'.filter isarticleValid) :
    List.Forall₂ Alike articles articles' := by
  induction articles generalizing articles' with
  | nil =>
      have none : articles' = [] := by simpa using flags.symm
      rw [none]
      exact .nil
  | cons article rest ih =>
      cases articles' with
      | nil => simp at flags
      | cons article' rest' =>
          rw [List.map_cons, List.map_cons, List.cons.injEq] at flags
          obtain ⟨first, flags⟩ := flags
          cases valid : isarticleValid article with
          | true =>
              rw [List.filter_cons_of_pos valid, List.filter_cons_of_pos (first ▸ valid),
                List.cons.injEq] at stored
              exact .cons (.inl stored.1) (ih flags stored.2)
          | false =>
              have invalid' : isarticleValid article' = false := first ▸ valid
              rw [List.filter_cons_of_neg (by simp [valid]),
                List.filter_cons_of_neg (by simp [invalid'])] at stored
              exact .cons (.inr ⟨valid, invalid'⟩) (ih flags stored)

end Alike

/-! ## Runs of the handler -/

theorem body_ne_nil {json : Json.Parser} {payload : Bytes} {contents : List Bytes}
    (submits : submitted json payload = some contents) : payload ≠ [] := by
  rintro rfl
  simp [submitted, json.parse_nil] at submits

theorem respondSubmission_body (req : HttpRequest) (fa : FaSubmission) :
    (respondSubmission req fa).body = responseText fa.disp ++ [0] := by
  have built := builds_response fa
  rw [Builds] at built
  rw [respondSubmission, respondJson_body, built, vcVectorSize, List.take_length]

section Handler

variable {json : Json.Parser} {req : HttpRequest} {feed : CString} {contents : List Bytes}

theorem submitArticles_of_submits (post : req.method = .post)
    (submits : Submits json req feed contents) : submitArticles json req = shutdownCheck req
      (submitAll (submission feed contents) >>= fun fa => .done (respondSubmission req fa)) := by
  have nonempty : ¬ req.body.length ≤ 0 := by simpa using body_ne_nil submits.contents
  have route := routeObject_of_locates submits.located submits.valid.no_space
  have named : isobjectValid feed = true := submits.valid
  have parsed : faSubmissionFromRequest json feed req.body =
      .ok (some (submission feed contents)) :=
    submissionFromRequest_eq_some_iff.2 ⟨contents, submits.contents, rfl⟩
  unfold submitArticles
  rw [if_neg (by simp [post]), if_neg nonempty, route]
  simp only [named, Bool.not_true, Bool.false_eq_true, if_false, parsed]

/-- The flag is down and every `Put` succeeds. -/
def succeededLog (feed : CString) (contents : List Bytes) : List (Event calls) :=
  ⟨.feederShutdown, false⟩ ::
    putEvents (keysOf feed contents) ((keysOf feed contents).map tryPut)

theorem succeededLog_ok (feed : CString) (contents : List Bytes) :
    ∀ article s, putEvent article s ∈ succeededLog feed contents → s = .ok := by
  intro article s member
  rcases List.mem_cons.1 member with impossible | member
  · cases impossible
  · rw [putEvents_tryPut] at member
    obtain ⟨other, -, same⟩ := List.mem_map.1 member
    injection same with _ answers
    exact answers.symm

theorem words_of_tryPut (articles : List CString) :
    (articles.map tryPut).map dispositionOf = (articles.map isarticleValid).map word := by
  rw [List.map_map, List.map_map]
  exact List.map_congr_left fun article _ => dispositionOf_tryPut article

/-- Once the flag has been read as down and no `Put` has failed, there is one way to end. -/
theorem finished_of_ok (post : req.method = .post) (submits : Submits json req feed contents)
    {log : List (Event calls)} {outcome : Except Fault HttpResponse}
    (finished : Program.Finishes (submitArticles json req) (⟨.feederShutdown, false⟩ :: log) outcome)
    (ok : ∀ article s, putEvent article s ∈ log → s = .ok) :
    ∃ res, outcome = .ok res ∧ Reports res ((keysOf feed contents).map isarticleValid) ∧
      log = putEvents (keysOf feed contents) ((keysOf feed contents).map tryPut) := by
  have lockstep : Lockstep (submission feed contents) :=
    lockstep_request (submissionFromRequest_eq_some_iff.2 ⟨contents, submits.contents, rfl⟩)
  rw [submitArticles_of_submits post submits] at finished
  obtain ⟨shutdown, rest, same, finished⟩ := Program.finishes_call_iff.1 finished
  cases same
  rcases Program.finishes_bind_iff.1 finished with ⟨reason, faulted, -⟩ |
    ⟨fa, first, second, rfl, through, responded⟩
  · obtain ⟨_, -, -, impossible⟩ := finishes_submitAll lockstep faulted
    cases impossible
  · obtain ⟨puts, tried, rfl, result⟩ := finishes_submitAll lockstep through
    cases result
    obtain ⟨rfl, rfl⟩ := Program.finishes_done_iff.1 responded
    rw [List.append_nil] at ok ⊢
    obtain rfl := puts_of_ok tried ok
    rw [keysOf_eq]
    refine ⟨_, rfl, ⟨respondJson_status _ _ _, ?_⟩, rfl⟩
    rw [respondSubmission_body, ← words_of_tryPut]

/-- The handler can be through with all of its `Put`s successful. -/
theorem finishes_of_submits (post : req.method = .post)
    (submits : Submits json req feed contents) :
    ∃ res, Program.Finishes (submitArticles json req) (succeededLog feed contents) (.ok res) ∧
      res.status = .status200 ∧ res.body =
        responseText (((keysOf feed contents).map tryPut).map dispositionOf) ++ [0] := by
  have lockstep : Lockstep (submission feed contents) :=
    lockstep_request (submissionFromRequest_eq_some_iff.2 ⟨contents, submits.contents, rfl⟩)
  have ran : ∃ log, Program.Runs succeeding (submitAll (submission feed contents)) .empty log _ _ :=
    Program.exec_runs succeed succeeding_succeed _ _
  obtain ⟨log, finished, replays⟩ := ran
  obtain ⟨puts, tried, rfl, outcome⟩ := finishes_submitAll lockstep finished
  have ok : ∀ article s, putEvent article s ∈ putEvents (submission feed contents).articles puts →
      s = .ok := by
    intro article s member
    obtain ⟨w, w', made⟩ := replays.made member
    cases made
    rfl
  obtain rfl := puts_of_ok tried ok
  rw [outcome] at finished
  rw [submitArticles_of_submits post submits, succeededLog, keysOf_eq]
  let fa : FaSubmission := ⟨(submission feed contents).feed, (submission feed contents).articles,
    ((submission feed contents).articles.map tryPut).map dispositionOf⟩
  have answered : Program.Finishes
      (submitAll (submission feed contents) >>= fun fa => .done (respondSubmission req fa))
      (putEvents (submission feed contents).articles
        ((submission feed contents).articles.map tryPut)) (.ok (respondSubmission req fa)) :=
    Program.finishes_bind_iff.2 (.inr ⟨fa, _, [], (List.append_nil _).symm, finished,
      Program.finishes_done_iff.2 ⟨rfl, rfl⟩⟩)
  exact ⟨respondSubmission req fa, Program.finishes_call_iff.2 ⟨false, _, rfl, answered⟩,
    respondJson_status _ _ _, respondSubmission_body req fa⟩

/-- A handler that answers 200 was sent a submission, and has gone through its contents one by
one. -/
theorem submits_of_finished {log : List (Event calls)} {res : HttpResponse}
    (finished : Program.Finishes (submitArticles json req) log (.ok res))
    (succeeded : res.status = .status200) :
    ∃ shutdown feed contents puts, Submits json req feed contents ∧
      List.Forall₂ Tried (keysOf feed contents) puts ∧
        log = ⟨.feederShutdown, shutdown⟩ :: putEvents (keysOf feed contents) puts ∧
          res.body = responseText (puts.map dispositionOf) ++ [0] := by
  obtain ⟨shutdown, rest, rfl, cases⟩ := finishes_submitArticles finished
  rcases cases with ⟨-, declined⟩ | ⟨feed, contents, puts, submits, tried, rfl, answered⟩
  · exact absurd succeeded (declined res rfl)
  · rw [← keysOf_eq] at tried answered ⊢
    cases answered
    exact ⟨shutdown, feed, contents, puts, submits, tried, rfl, respondSubmission_body _ _⟩

/-- They are those of the payload, for the feed in the URI. -/
theorem finished_contents (located : Locates req feed) (valid : ValidName feed)
    {log : List (Event calls)} {res : HttpResponse}
    (finished : Program.Finishes (submitArticles json req) log (.ok res))
    (succeeded : res.status = .status200) :
    ∃ shutdown contents puts, submitted json req.body = some contents ∧
      List.Forall₂ Tried (keysOf feed contents) puts ∧
        log = ⟨.feederShutdown, shutdown⟩ :: putEvents (keysOf feed contents) puts ∧
          res.body = responseText (puts.map dispositionOf) ++ [0] := by
  obtain ⟨shutdown, feed', contents, puts, submits, done⟩ := submits_of_finished finished succeeded
  obtain ⟨rfl, -⟩ := submits.unique ⟨located, valid, submits.contents⟩
  exact ⟨shutdown, contents, puts, submits.contents, done⟩

end Handler

/-! ## One disposition for each element -/

/-- The response reports on these contents, one after the other: each was tried when it is valid,
nothing else was put, and the dispositions say what came of it. -/
structure ReportsOn (feed : CString) (contents : List Bytes) (log : List (Event calls))
    (res : HttpResponse) : Prop where
  intro ::
  each : ∃ puts shutdown, List.Forall₂ Tried (keysOf feed contents) puts ∧
    log = ⟨.feederShutdown, shutdown⟩ :: putEvents (keysOf feed contents) puts ∧
      res.body = responseText (puts.map dispositionOf) ++ [0]

/-- The object has an array `articles` of its own, with these elements. -/
def TopArticles (json : Json.Parser) (payload : Bytes) (values : List Json.Value) : Prop :=
  ∃ members, json.parse payload = some (.object members) ∧
    (ascii "articles", .array values) ∈ members

/-- Element by element, these are their contents. -/
def Contents (values : List Json.Value) (contents : List Bytes) : Prop :=
  List.Forall₂ (fun value content => contentOf value = some (some content)) values contents

/-- Whenever the submission is answered 200, there is one disposition for each element of the
array at the top, and it reports on that element. -/
def OneEach (json : Json.Parser) (req : HttpRequest) (feed : CString) : Prop :=
  ∀ values, TopArticles json req.body values → ∀ log res,
    Program.Finishes (submitArticles json req) log (.ok res) → res.status = .status200 →
      ∃ contents, Contents values contents ∧ ReportsOn feed contents log res

/-- The two contents are the same C string, or neither is printable. -/
def SameArticle (found content : Bytes) : Prop :=
  cstr found = cstr content ∨
    (printable (cstr found).bytes = false ∧ printable (cstr content).bytes = false)

/-- Where every entry found can be read, the contents taken from the entries are, one by one,
those of the elements of the array at the top. -/
def OneFoundEach (json : Json.Parser) (payload : Bytes) : Prop :=
  ∀ values entries, TopArticles json payload values → FoundArticles json payload entries →
    (∀ value ∈ entries, HasContent value) →
      ∃ contents, Contents values contents ∧ List.Forall₂ SameArticle (taken entries) contents

/-- The search for the articles comes to the array at the top, and there is no other one. -/
structure FindsTop (json : Json.Parser) (payload : Bytes) (values : List Json.Value) : Prop where
  found : FoundArticles json payload values
  top : TopArticles json payload values
  only : ∀ others, TopArticles json payload others → others = values

theorem findsTop_of_parsed {json : Json.Parser} {payload : Bytes} {values : List Json.Value}
    (parsed : json.parse payload = some (.object [(ascii "articles", .array values)])) :
    FindsTop json payload values where
  found := ⟨_, _, parsed, rfl, rfl⟩
  top := ⟨_, parsed, List.mem_cons_self⟩
  only := by
    rintro others ⟨members, parsed', member⟩
    cases parsed.symm.trans parsed'
    exact Json.Value.array.inj (Prod.mk.inj (List.mem_singleton.1 member)).2

theorem taken_of_contents {values : List Json.Value} {contents : List Bytes}
    (own : Contents values contents) : taken values = contents := by
  induction own with
  | nil => rfl
  | @cons value content values contents first _ ih =>
      show taken (value :: values) = content :: contents
      rw [← ih]
      simp [taken, first]

theorem hasContent_of_contents {values : List Json.Value} {contents : List Bytes}
    (own : Contents values contents) : ∀ value ∈ values, HasContent value := by
  intro value member
  induction own with
  | nil => cases member
  | cons first _ ih =>
      rcases List.mem_cons.1 member with rfl | later
      · exact contentOf_total_iff.1 ⟨_, first⟩
      · exact ih later

theorem contents_exist_iff {values : List Json.Value} : (∃ contents, Contents values contents) ↔
    ∀ value ∈ values, ∃ content, contentOf value = some (some content) := by
  induction values with
  | nil => exact ⟨fun _ => by simp, fun _ => ⟨[], .nil⟩⟩
  | cons value rest ih =>
      rw [List.forall_mem_cons, ← ih]
      constructor
      · rintro ⟨contents, own⟩
        obtain ⟨content, others, first, later, -⟩ := List.forall₂_cons_left_iff.1 own
        exact ⟨⟨content, first⟩, others, later⟩
      · rintro ⟨⟨content, first⟩, others, later⟩
        exact ⟨content :: others, .cons first later⟩

/-- Where the array at the top is the one that is found: either an element cannot be read, or each
of them has a content that is taken. -/
theorem oneFoundEach_iff {json : Json.Parser} {payload : Bytes} {values : List Json.Value}
    (finds : FindsTop json payload values) : OneFoundEach json payload ↔
      ((∀ value ∈ values, HasContent value) →
        ∀ value ∈ values, ∃ content, contentOf value = some (some content)) := by
  constructor
  · intro each readable
    obtain ⟨contents, own, -⟩ := each values values finds.top finds.found readable
    exact contents_exist_iff.1 ⟨contents, own⟩
  · intro each others entries top found readable
    obtain rfl := finds.only others top
    obtain rfl := found.unique finds.found
    obtain ⟨contents, own⟩ := contents_exist_iff.2 (each readable)
    refine ⟨contents, own, ?_⟩
    rw [taken_of_contents own]
    exact List.forall₂_same.2 fun _ _ => .inl rfl

theorem alike_keysOf_iff {feed : CString} (valid : ValidName feed) {found content : Bytes} :
    Alike (articleKey feed (cstr found)) (articleKey feed (cstr content)) ↔
      SameArticle found content := by
  unfold Alike SameArticle
  rw [isarticleValid_articleKey valid, isarticleValid_articleKey valid]
  refine or_congr_left ⟨?_, fun same => by rw [same]⟩
  intro same
  exact (articleKey_inj valid.no_slash valid.no_slash (congrArg CString.bytes same)).2

theorem forall₂_alike_iff {feed : CString} (valid : ValidName feed) {found contents : List Bytes} :
    List.Forall₂ Alike (keysOf feed found) (keysOf feed contents) ↔
      List.Forall₂ SameArticle found contents := by
  rw [keysOf, keysOf, List.forall₂_map_left_iff, List.forall₂_map_right_iff]
  exact ⟨fun alike => alike.imp fun _ _ => (alike_keysOf_iff valid).1,
    fun same => same.imp fun _ _ => (alike_keysOf_iff valid).2⟩

/-- Two reports of one run are on the same articles, up to what is rejected. -/
theorem alike_of_reports {feed : CString} (valid : ValidName feed) {found contents : List Bytes}
    {res : HttpResponse} (reports : ReportsOn feed contents (succeededLog feed found) res)
    (body : res.body = responseText (((keysOf feed found).map tryPut).map dispositionOf) ++ [0]) :
    List.Forall₂ SameArticle found contents := by
  obtain ⟨puts, shutdown, tried, log, text⟩ := reports
  have events := (List.cons.inj log).2
  have ok : ∀ article s, putEvent article s ∈ putEvents (keysOf feed contents) puts → s = .ok := by
    intro article s member
    apply succeededLog_ok feed found article s
    rw [log]
    exact List.mem_cons_of_mem _ member
  obtain rfl := puts_of_ok tried ok
  have flags : (keysOf feed found).map isarticleValid =
      (keysOf feed contents).map isarticleValid := by
    let answer : HttpResponse := { res with status := .status200 }
    have first : Reports answer ((keysOf feed found).map isarticleValid) := by
      refine ⟨rfl, ?_⟩
      rw [← words_of_tryPut]
      exact body
    have second : Reports answer ((keysOf feed contents).map isarticleValid) := by
      refine ⟨rfl, ?_⟩
      rw [← words_of_tryPut]
      exact text
    exact reports_inj first second
  rw [putEvents_tryPut, putEvents_tryPut] at events
  exact (forall₂_alike_iff valid).1
    (alike_of_same flags (List.map_injective_iff.2 accepts_injective events))

section OneEach

variable {json : Json.Parser} {req : HttpRequest} {feed : CString}

theorem oneEach_of_found (located : Locates req feed) (valid : ValidName feed)
    (each : OneFoundEach json req.body) : OneEach json req feed := by
  intro values top log res finished succeeded
  obtain ⟨shutdown, found, puts, read, tried, rfl, body⟩ :=
    finished_contents located valid finished succeeded
  obtain ⟨entries, finds, readable, rfl⟩ := submitted_eq_some_iff.1 read
  obtain ⟨contents, own, same⟩ := each values entries top finds readable
  obtain ⟨tried', events⟩ := tried_of_alike ((forall₂_alike_iff valid).2 same) tried
  exact ⟨contents, own, puts, shutdown, tried', by rw [events], body⟩

theorem found_of_oneEach (post : req.method = .post) (located : Locates req feed)
    (valid : ValidName feed) (each : OneEach json req feed) : OneFoundEach json req.body := by
  intro values entries top finds readable
  have read := submitted_eq_some_iff.2 ⟨entries, finds, readable, rfl⟩
  obtain ⟨res, finished, status, body⟩ := finishes_of_submits post ⟨located, valid, read⟩
  obtain ⟨contents, own, reports⟩ := each values top _ res finished status
  exact ⟨contents, own, alike_of_reports valid reports body⟩

/-- **When there is one disposition for each article.** -/
theorem one_each_iff (post : req.method = .post) (located : Locates req feed)
    (valid : ValidName feed) : OneEach json req feed ↔ OneFoundEach json req.body :=
  ⟨found_of_oneEach post located valid, oneEach_of_found located valid⟩

end OneEach

/-- Whatever is submitted to the feed `f`. -/
theorem locates_postFeed_f (body : String) : Locates (postFeed "f" body) (lit "f") := by
  have same : Locates (postFeed "f" "") (lit "f") :=
    ⟨by decide, ascii "feed", ascii "HTTP/1.1", by decide +kernel, by decide, by decide⟩
  exact same

/-- A number and a string. -/
def numberedSubmission : HttpRequest :=
  postFeed "f" "\x7b\"articles\":[\x7b\"content\":1\x7d,\x7b\"content\":\"a\"\x7d]\x7d"

theorem denotes_numbered : Json.Denotes numberedSubmission.body (.object [(ascii "articles",
    .array [.object [(ascii "content", .integer (ascii "1"))],
      .object [(ascii "content", .string (ascii "a"))]])]) :=
  ⟨[.beginObject, .string (ascii "articles"), .nameSeparator, .beginArray, .beginObject,
    .string (ascii "content"), .nameSeparator, .integer (ascii "1"), .endObject, .valueSeparator,
    .beginObject, .string (ascii "content"), .nameSeparator, .string (ascii "a"), .endObject,
    .endArray, .endObject], by decide +kernel,
    .object (.last (.array (.more (.object (.last .integer)) (.last (.object (.last .string))))))⟩

/-- Two articles are submitted, and the one disposition is that of the second. -/
theorem number_passed_over : ¬ ∀ (req : HttpRequest) (feed : CString), req.method = .post →
    Locates req feed → ValidName feed → OneEach Json.reader req feed := by
  intro all
  have located : Locates numberedSubmission (lit "f") := locates_postFeed_f _
  have each := found_of_oneEach rfl located (by decide) (all _ _ rfl located (by decide))
  have finds := findsTop_of_parsed (Json.reader.parse_of_denotes denotes_numbered)
  have taken_ := (oneFoundEach_iff finds).1 each (contentsOf_total_iff.1 ⟨[ascii "a"], rfl⟩)
  obtain ⟨content, impossible⟩ := taken_ _ List.mem_cons_self
  cases impossible

/-- A string, and a string in an array. -/
def twoArticles : HttpRequest :=
  postFeed "f" "\x7b\"articles\":[\x7b\"content\":\"x\"\x7d,\x7b\"content\":[\"y\"]\x7d]\x7d"

theorem denotes_twoArticles : Json.Denotes twoArticles.body (.object [(ascii "articles",
    .array [.object [(ascii "content", .string (ascii "x"))],
      .object [(ascii "content", .array [.string (ascii "y")])]])]) :=
  ⟨[.beginObject, .string (ascii "articles"), .nameSeparator, .beginArray, .beginObject,
    .string (ascii "content"), .nameSeparator, .string (ascii "x"), .endObject, .valueSeparator,
    .beginObject, .string (ascii "content"), .nameSeparator, .beginArray, .string (ascii "y"),
    .endArray, .endObject, .endArray, .endObject], by decide +kernel,
    .object (.last (.array (.more (.object (.last .string))
      (.last (.object (.last (.array (.last .string))))))))⟩

theorem one_each_two : OneEach Json.reader twoArticles (lit "f") ∧
    TopArticles Json.reader twoArticles.body
      [.object [(ascii "content", .string (ascii "x"))],
        .object [(ascii "content", .array [.string (ascii "y")])]] := by
  have finds := findsTop_of_parsed (Json.reader.parse_of_denotes denotes_twoArticles)
  refine ⟨(one_each_iff rfl (locates_postFeed_f _) (by decide)).2 ?_, finds.top⟩
  apply (oneFoundEach_iff finds).2
  intro _
  exact contents_exist_iff.1 ⟨[ascii "x", ascii "y"], .cons rfl (.cons rfl .nil)⟩

end Feedserver.Serving
