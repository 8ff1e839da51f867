/-
# Serving.WholeContents — which contents are stored as they were submitted

A content goes from a string of the payload, which knows its length, through a `char *` into a
key. What is behind a NUL is lost on the way, and is then neither looked at nor stored.

* `stored_exactly_iff`: when an article is accepted exactly if all of its content is printable
  or white space, and is then stored under the feed, a slash and all of its content.
* `foundWhole_plain_iff`: what that comes to for a payload of contents alone.
-/
import Feedserver.Serving.Dispositions

namespace Feedserver.Serving

open Feedserver.Theory
open Feedserver.Source
open Feedserver.Records
open Feedserver.Articles

set_option autoImplicit false

/-- The payload submits these contents: the elements of an array `articles` of its own are
objects, and each has one of the contents as a member `content` of its own. -/
def OwnContents (json : Json.Parser) (payload : Bytes) (contents : List Bytes) : Prop :=
  ∃ values, TopArticles json payload values ∧ List.Forall₂ (fun value content =>
    ∃ members, value = .object members ∧ (ascii "content", .string content) ∈ members)
      values contents

/-- The key of a content as it was submitted. -/
def wholeKey (feed : CString) (content : Bytes) : Bytes := feed.bytes ++ 0x2F :: content

/-- Whenever the flag is down and every `Put` succeeds, an article is reported accepted exactly
when all of its content is printable, and the keys stored are those of the accepted articles,
whole and in order. -/
def StoredExactly (json : Json.Parser) (req : HttpRequest) (feed : CString) : Prop :=
  ∀ contents, OwnContents json req.body contents → ∀ log outcome,
    Program.Finishes (submitArticles json req) (⟨.feederShutdown, false⟩ :: log) outcome →
      (∀ article s, putEvent article s ∈ log → s = .ok) →
        ∃ res, outcome = .ok res ∧ Reports res (contents.map printable) ∧
          log = (contents.filter printable).map fun content => accepts (wholeKey feed content)

/-- The C string of what was found is all of the content, or neither is printable. -/
def WholeArticle (found content : Bytes) : Prop :=
  (cstr found).bytes = content ∨ (printable (cstr found).bytes = false ∧ printable content = false)

/-- Every entry found can be read, and the contents taken from the entries are, one by one, all
of the content that was submitted. -/
def FoundWhole (json : Json.Parser) (payload : Bytes) : Prop :=
  ∀ contents, OwnContents json payload contents → ∃ entries, FoundArticles json payload entries ∧
    (∀ value ∈ entries, HasContent value) ∧ List.Forall₂ WholeArticle (taken entries) contents

theorem printable_of_wholeArticle {found content : Bytes} (whole : WholeArticle found content) :
    printable (cstr found).bytes = printable content := by
  rcases whole with rfl | ⟨notFound, notContent⟩
  · rfl
  · rw [notFound, notContent]

/-- A content that is found as it was submitted is stored whole, unless a NUL cuts it short and
nothing unprintable stands in front. -/
theorem wholeArticle_self_iff {content : Bytes} :
    WholeArticle content content ↔ (0 : UInt8) ∉ content ∨ printable (cstr content).bytes = false := by
  constructor
  · rintro (whole | ⟨notFound, -⟩)
    · exact .inl fun nul => (cstr content).nulFree (by rw [whole]; exact nul)
    · exact .inr notFound
  · rintro (free | notFound)
    · exact .inl (cstr_bytes_of_nulFree free)
    · refine .inr ⟨notFound, ?_⟩
      apply Bool.eq_false_iff.2
      intro all
      have front : printable (cstr content).bytes = true := by
        apply List.all_eq_true.2
        intro b member
        exact List.all_eq_true.1 all b (List.takeWhile_prefix _ |>.subset member)
      rw [front] at notFound
      cases notFound

/-- An element with one content and nothing else. -/
def plainElement (content : Bytes) : Json.Value :=
  .object [(ascii "content", .string content)]

/-- A submission of these contents and nothing else. -/
def plainTree (contents : List Bytes) : Json.Value :=
  .object [(ascii "articles", .array (contents.map plainElement))]

theorem contents_plain (contents : List Bytes) : Contents (contents.map plainElement) contents := by
  induction contents with
  | nil => exact .nil
  | cons content rest ih => exact .cons rfl ih

theorem ownContents_plain_iff {json : Json.Parser} {payload : Bytes} {contents others : List Bytes}
    (parsed : json.parse payload = some (plainTree contents)) :
    OwnContents json payload others ↔ others = contents := by
  have finds := findsTop_of_parsed parsed
  have element (content other : Bytes) : (∃ members, plainElement content = .object members ∧
      (ascii "content", Json.Value.string other) ∈ members) ↔ other = content := by
    constructor
    · rintro ⟨members, same, member⟩
      cases same
      exact Json.Value.string.inj (Prod.mk.inj (List.mem_singleton.1 member)).2
    · rintro rfl
      exact ⟨_, rfl, List.mem_cons_self⟩
  constructor
  · rintro ⟨values, top, each⟩
    obtain rfl := finds.only values top
    rw [List.forall₂_map_left_iff] at each
    have equal : List.Forall₂ (· = ·) others contents :=
      (each.imp fun content other => (element content other).1).flip
    rwa [List.forall₂_eq_eq_eq] at equal
  · rintro rfl
    refine ⟨_, finds.top, ?_⟩
    rw [List.forall₂_map_left_iff]
    exact List.forall₂_same.2 fun content _ => (element content content).2 rfl

/-- Of a plain submission everything is stored whole if no content has a NUL in it that is not
behind something unprintable. -/
theorem foundWhole_plain_iff {json : Json.Parser} {payload : Bytes} {contents : List Bytes}
    (parsed : json.parse payload = some (plainTree contents)) : FoundWhole json payload ↔
      ∀ content ∈ contents, (0 : UInt8) ∉ content ∨ printable (cstr content).bytes = false := by
  have finds := findsTop_of_parsed parsed
  have all := taken_of_contents (contents_plain contents)
  constructor
  · intro whole
    obtain ⟨entries, found, -, each⟩ := whole contents ((ownContents_plain_iff parsed).2 rfl)
    obtain rfl := found.unique finds.found
    rw [all] at each
    exact fun content member => wholeArticle_self_iff.1 (List.forall₂_same.1 each content member)
  · intro free others own
    obtain rfl := (ownContents_plain_iff parsed).1 own
    refine ⟨_, finds.found, hasContent_of_contents (contents_plain others), ?_⟩
    rw [all]
    exact List.forall₂_same.2 fun content member => wholeArticle_self_iff.2 (free content member)

theorem accepts_wholeKey_injective (feed : CString) :
    Function.Injective fun content => accepts (wholeKey feed content) := by
  intro a b same
  have keys : Call.faPut (wholeKey feed a) = Call.faPut (wholeKey feed b) :=
    congrArg Event.call same
  have bytes := Call.faPut.inj keys
  simpa [wholeKey] using bytes

/-- The log of a submission in terms of the contents found. -/
theorem putEvents_keysOf {feed : CString} (valid : ValidName feed) (found : List Bytes) :
    putEvents (keysOf feed found) ((keysOf feed found).map tryPut) =
      ((found.map fun content => (cstr content).bytes).filter printable).map fun content =>
        accepts (wholeKey feed content) := by
  rw [putEvents_tryPut, keysOf, List.filter_map, List.map_map, List.filter_map, List.map_map]
  have same : (isarticleValid ∘ fun content => articleKey feed (cstr content)) =
      printable ∘ fun content => (cstr content).bytes :=
    funext fun content => isarticleValid_articleKey valid _
  rw [same]
  refine List.map_congr_left fun content _ => ?_
  simp only [Function.comp, articleKey_bytes, wholeKey]

/-- As `alike_of_same`, for contents. -/
theorem whole_of_same {found contents : List Bytes}
    (flags : (found.map fun content => printable (cstr content).bytes) = contents.map printable)
    (stored : (found.map fun content => (cstr content).bytes).filter printable =
      contents.filter printable) : List.Forall₂ WholeArticle found contents := by
  induction found generalizing contents with
  | nil =>
      have none : contents = [] := by simpa using flags.symm
      rw [none]
      exact .nil
  | cons first rest ih =>
      cases contents with
      | nil => simp at flags
      | cons content others =>
          rw [List.map_cons, List.map_cons, List.cons.injEq] at flags
          obtain ⟨same, flags⟩ := flags
          rw [List.map_cons] at stored
          cases valid : printable content with
          | true =>
              rw [List.filter_cons_of_pos (same.trans valid), List.filter_cons_of_pos valid,
                List.cons.injEq] at stored
              exact .cons (.inl stored.1) (ih flags stored.2)
          | false =>
              rw [List.filter_cons_of_neg (by simp [same, valid]),
                List.filter_cons_of_neg (by simp [valid])] at stored
              exact .cons (.inr ⟨same.trans valid, valid⟩) (ih flags stored)

theorem filter_of_whole {found contents : List Bytes}
    (whole : List.Forall₂ WholeArticle found contents) :
    (found.map fun content => printable (cstr content).bytes) = contents.map printable ∧
      (found.map fun content => (cstr content).bytes).filter printable =
        contents.filter printable := by
  induction whole with
  | nil => exact ⟨rfl, rfl⟩
  | @cons first content rest others isWhole _ ih =>
      have same := printable_of_wholeArticle isWhole
      rw [List.map_cons, List.map_cons, List.map_cons, same, ih.1]
      refine ⟨rfl, ?_⟩
      cases valid : printable content with
      | true =>
          rw [List.filter_cons_of_pos (same.trans valid), List.filter_cons_of_pos valid, ih.2]
          rcases isWhole with same | ⟨-, invalid⟩
          · rw [same]
          · rw [valid] at invalid
            cases invalid
      | false =>
          rw [List.filter_cons_of_neg (by simp [same, valid]),
            List.filter_cons_of_neg (by simp [valid]), ih.2]

section StoredExactly

variable {json : Json.Parser} {req : HttpRequest} {feed : CString}

theorem storedExactly_of_found (post : req.method = .post) (located : Locates req feed)
    (valid : ValidName feed) (whole : FoundWhole json req.body) : StoredExactly json req feed := by
  intro contents own log outcome finished ok
  obtain ⟨entries, finds, readable, each⟩ := whole contents own
  have read := submitted_eq_some_iff.2 ⟨entries, finds, readable, rfl⟩
  obtain ⟨flags, stored⟩ := filter_of_whole each
  obtain ⟨res, rfl, reports, rfl⟩ := finished_of_ok post ⟨located, valid, read⟩ finished ok
  refine ⟨res, rfl, ?_, ?_⟩
  · rw [← flags, ← map_valid_keysOf valid]
    exact reports
  · rw [putEvents_keysOf valid, stored]

/-- A payload that the parser does not come through is answered otherwise or not at all. -/
theorem submitted_of_stored {contents : List Bytes} (own : OwnContents json req.body contents)
    (stored : StoredExactly json req feed) : ∃ found, submitted json req.body = some found := by
  obtain ⟨rest, same, cases⟩ := submitArticles_cases json req
  have ends {outcome : Except Fault HttpResponse} (ended : Program.Finishes rest [] outcome) :
      ∃ res, outcome = .ok res ∧ res.status = .status200 := by
    have finished : Program.Finishes (submitArticles json req) [⟨.feederShutdown, false⟩] outcome := by
      rw [same]
      exact Program.finishes_call_iff.2 ⟨false, [], rfl, ended⟩
    obtain ⟨res, ok, reports, -⟩ := stored contents own [] outcome finished nofun
    exact ⟨res, ok, reports.1⟩
  rcases cases with ⟨reason, rfl⟩ | ⟨declined, rfl, failed⟩ | ⟨feed', found, submits, -⟩
  · obtain ⟨res, impossible, -⟩ := ends (Program.finishes_fault_iff.2 ⟨rfl, rfl⟩)
    cases impossible
  · obtain ⟨res, answered, succeeded⟩ := ends (Program.finishes_done_iff.2 ⟨rfl, rfl⟩)
    cases answered
    exact absurd succeeded failed
  · exact ⟨found, submits.contents⟩

theorem found_of_storedExactly (post : req.method = .post) (located : Locates req feed)
    (valid : ValidName feed) (stored : StoredExactly json req feed) : FoundWhole json req.body := by
  intro contents own
  obtain ⟨found, read⟩ := submitted_of_stored own stored
  obtain ⟨res, finished, status, body⟩ := finishes_of_submits post ⟨located, valid, read⟩
  have ok : ∀ article s, putEvent article s ∈ putEvents (keysOf feed found)
      ((keysOf feed found).map tryPut) → s = .ok :=
    fun article s member => succeededLog_ok feed found article s (List.mem_cons_of_mem _ member)
  obtain ⟨res', same, reports, log⟩ := stored contents own _ _ finished ok
  obtain rfl : res = res' := Except.ok.inj same
  have flags : Reports res ((keysOf feed found).map isarticleValid) := by
    refine ⟨status, ?_⟩
    rw [body, words_of_tryPut]
  obtain ⟨entries, finds, readable, rfl⟩ := submitted_eq_some_iff.1 read
  refine ⟨entries, finds, readable, whole_of_same ?_ ?_⟩
  · rw [← map_valid_keysOf valid]
    exact reports_inj flags reports
  · rw [putEvents_keysOf valid] at log
    exact List.map_injective_iff.2 (accepts_wholeKey_injective feed) log

/-- Whole keys are of one feed and one content. -/
theorem wholeKey_inj {g : CString} {c d : Bytes} (valid : ValidName feed) (valid' : ValidName g)
    (same : wholeKey feed c = wholeKey g d) : feed = g ∧ c = d := by
  obtain ⟨bytes, contents⟩ := split_at_slash valid.no_slash valid'.no_slash same
  exact ⟨CString.ext bytes, contents⟩

/-- **When accepted means valid and stored exactly.** The keys of different articles are then
different. -/
theorem stored_exactly_iff (post : req.method = .post) (located : Locates req feed)
    (valid : ValidName feed) :
    (StoredExactly json req feed ↔ FoundWhole json req.body) ∧
      ∀ (g : CString) (c d : Bytes), ValidName g → wholeKey feed c = wholeKey g d →
        feed = g ∧ c = d :=
  ⟨⟨found_of_storedExactly post located valid, storedExactly_of_found post located valid⟩,
    fun _ _ _ valid' same => wholeKey_inj valid valid' same⟩

end StoredExactly

/-- A content with a NUL behind its first character. -/
def cutSubmission : HttpRequest :=
  postFeed "f" "\x7b\"articles\":[\x7b\"content\":\"a\\u0000b\"\x7d]\x7d"

theorem denotes_cut : Json.Denotes cutSubmission.body (.object [(ascii "articles",
    .array [.object [(ascii "content", .string [0x61, 0x00, 0x62])]])]) :=
  ⟨[.beginObject, .string (ascii "articles"), .nameSeparator, .beginArray, .beginObject,
    .string (ascii "content"), .nameSeparator, .string [0x61, 0x00, 0x62], .endObject, .endArray,
    .endObject], by decide +kernel, .object (.last (.array (.last (.object (.last .string)))))⟩

/-- It is accepted, and stored as what is in front of the NUL. -/
theorem cut_content_accepted : ¬ ∀ (req : HttpRequest) (feed : CString), req.method = .post →
    Locates req feed → ValidName feed → StoredExactly Json.reader req feed := by
  intro all
  have located : Locates cutSubmission (lit "f") := locates_postFeed_f _
  have whole := found_of_storedExactly rfl located (by decide) (all _ _ rfl located (by decide))
  have parsed : Json.reader.parse cutSubmission.body = some (plainTree [[0x61, 0x00, 0x62]]) :=
    Json.reader.parse_of_denotes denotes_cut
  rcases (foundWhole_plain_iff parsed).1 whole _ List.mem_cons_self with free | unprintable
  · exact absurd free (by decide)
  · exact absurd unprintable (by decide)

/-- One printable content, and one with a NUL behind a character that is not printable. -/
def mixedSubmission : HttpRequest := postFeed "f"
  "\x7b\"articles\":[\x7b\"content\":\"x\"\x7d,\x7b\"content\":\"\\u0001\\u0000\"\x7d]\x7d"

theorem denotes_mixed : Json.Denotes mixedSubmission.body (.object [(ascii "articles",
    .array [.object [(ascii "content", .string (ascii "x"))],
      .object [(ascii "content", .string [0x01, 0x00])]])]) :=
  ⟨[.beginObject, .string (ascii "articles"), .nameSeparator, .beginArray, .beginObject,
    .string (ascii "content"), .nameSeparator, .string (ascii "x"), .endObject, .valueSeparator,
    .beginObject, .string (ascii "content"), .nameSeparator, .string [0x01, 0x00], .endObject,
    .endArray, .endObject], by decide +kernel,
    .object (.last (.array (.more (.object (.last .string)) (.last (.object (.last .string))))))⟩

theorem stored_exactly_mixed : StoredExactly Json.reader mixedSubmission (lit "f") ∧
    OwnContents Json.reader mixedSubmission.body [ascii "x", [0x01, 0x00]] := by
  have located : Locates mixedSubmission (lit "f") := locates_postFeed_f _
  have parsed : Json.reader.parse mixedSubmission.body =
      some (plainTree [ascii "x", [0x01, 0x00]]) := Json.reader.parse_of_denotes denotes_mixed
  refine ⟨(stored_exactly_iff rfl located (by decide)).1.2 ?_, (ownContents_plain_iff parsed).2 rfl⟩
  apply (foundWhole_plain_iff parsed).2
  intro content member
  rcases List.mem_cons.1 member with rfl | member
  · exact .inl (by decide)
  · obtain rfl := List.mem_singleton.1 member
    exact .inr (by decide)

end Feedserver.Serving
