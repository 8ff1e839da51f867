/-
# Serving.ResponseText — when the response to a submission is a JSON text

`fa_submission_response` pastes the dispositions between quotation marks as they are. Two of them
are words of the source; any other is the text of a failed `Put`, which may be anything.

* `denotes_responseText_iff`: the text is the JSON text of its dispositions exactly when none of
  them needs an escape; one that does is never read back.
* `response_json_iff`: what `submit_articles` sends, in these terms. It sends the terminator too,
  so that the body as a whole is no JSON text.
-/
import Feedserver.Serving.Dispositions
import Feedserver.Theory.JsonQuoting

namespace Feedserver.Serving

open Feedserver.Theory
open Feedserver.Theory.Json (Token LexState)
open Feedserver.Source
open Feedserver.Records
open Feedserver.Articles

set_option autoImplicit false

/-! ## The text -/

def dispositionTree (disp : CString) : Json.Value :=
  .object [(ascii "disposition", .string disp.bytes)]

/-- The tree with exactly these dispositions. -/
def responseTree (disps : List CString) : Json.Value :=
  .object [(ascii "articles", .array (disps.map dispositionTree))]

def dispHead : List Token := [.beginObject, .string (ascii "disposition"), .nameSeparator]

def dispTokens (disp : CString) : List Token := dispHead ++ [.string disp.bytes, .endObject]

def responseTokens : List CString → List Token
  | [] => []
  | [disp] => dispTokens disp
  | disp :: next :: rest => dispTokens disp ++ .valueSeparator :: responseTokens (next :: rest)

/-- The dispositions, a comma between each two. -/
def dispsText (disps : List CString) : Bytes :=
  List.intercalate (lit ",\n").bytes (disps.map dispText)

theorem dispsText_cons_cons (disp next : CString) (rest : List CString) :
    dispsText (disp :: next :: rest) =
      dispText disp ++ ((lit ",\n").bytes ++ dispsText (next :: rest)) := by
  simp only [dispsText, List.map_cons, List.intercalate_cons_cons, List.append_assoc]

theorem run_dispHead : Json.run .between (lit "\x7b\"disposition\": \"").bytes =
    some (.text [], dispHead) := rfl

theorem run_dispText {disp : CString} (plain : Json.Plain disp.bytes) :
    Json.run .between (dispText disp) = some (.between, dispTokens disp) := by
  have closing : Json.run (.text disp.bytes) (lit "\"\x7d\n").bytes =
      some (.between, [.string disp.bytes, .endObject]) := rfl
  exact Json.run_append (Json.run_append run_dispHead (Json.run_plain (s := []) plain)) closing

theorem run_dispsText {disps : List CString} (plain : ∀ disp ∈ disps, Json.Plain disp.bytes) :
    Json.run .between (dispsText disps) = some (.between, responseTokens disps) := by
  have comma : Json.run .between (lit ",\n").bytes = some (.between, [.valueSeparator]) := rfl
  induction disps with
  | nil => rfl
  | cons disp rest ih =>
      obtain ⟨own, others⟩ := List.forall_mem_cons.1 plain
      cases rest with
      | nil => simpa [dispsText, responseTokens] using run_dispText own
      | cons next rest =>
          rw [dispsText_cons_cons]
          exact Json.run_append (run_dispText own) (Json.run_append comma (ih others))

theorem readsElements_disps (disp : CString) (rest : List CString) (after : List Token) :
    Json.ReadsElements (responseTokens (disp :: rest) ++ .endArray :: after)
      ((disp :: rest).map dispositionTree) after := by
  have one (d : CString) (after : List Token) :
      Json.ReadsValue (dispTokens d ++ after) (dispositionTree d) after :=
    .object (.last .string)
  induction rest generalizing disp with
  | nil => exact .last (one disp _)
  | cons next rest ih =>
      refine .more ?_ (ih next)
      simpa only [responseTokens, List.append_assoc, List.cons_append] using one disp _

def responseHead : Bytes := (lit "\x7b\n\"articles\": [\n").bytes

theorem run_responseHead : Json.run .between responseHead = some (.between,
    [.beginObject, .string (ascii "articles"), .nameSeparator, .beginArray]) := rfl

theorem responseText_eq (disps : List CString) :
    responseText disps = responseHead ++ (dispsText disps ++ (lit "]\n\x7d\n").bytes) := by
  rw [responseText, List.append_assoc, dispsText, responseHead]

theorem denotes_responseText {disps : List CString}
    (plain : ∀ disp ∈ disps, Json.Plain disp.bytes) :
    Json.Denotes (responseText disps) (responseTree disps) := by
  have closing : Json.run .between (lit "]\n\x7d\n").bytes =
      some (.between, [.endArray, .endObject]) := rfl
  have ran := Json.run_append run_responseHead
    (Json.run_append (run_dispsText plain) closing)
  rw [← responseText_eq] at ran
  refine ⟨_, by simp only [Json.lex, ran, LexState.finish, Option.map_some, List.append_nil]; rfl,
    ?_⟩
  cases disps with
  | nil => exact .object (.last .emptyArray)
  | cons disp rest => exact .object (.last (.array (readsElements_disps disp rest [.endObject])))

/-! ## Read back -/

/-- What is read of the front of a line with a disposition. -/
theorem run_line {disp : CString} {more : Bytes} {st : LexState} {tokens : List Token}
    (ran : Json.run .between (dispText disp ++ more) = some (st, tokens)) :
    ∃ mid s rest last later,
      Json.run (.text []) (disp.bytes ++ [0x22]) = some (mid, .string s :: rest) ∧
        Json.run .between more = some (st, later) ∧
          tokens = dispHead ++ (.string s :: (rest ++ last) ++ later) := by
  have line : dispText disp ++ more = (lit "\x7b\"disposition\": \"").bytes ++
      ((disp.bytes ++ 0x22 :: ([0x7D] ++ [0x0A])) ++ more) := by
    simp only [dispText, List.append_assoc]
    rfl
  rw [line] at ran
  obtain ⟨_, _, _, ranHead, ranRest, rfl⟩ := Json.run_append_eq_some.1 ran
  cases run_dispHead.symm.trans ranHead
  obtain ⟨_, _, later, ranLine, ranMore, rfl⟩ := Json.run_append_eq_some.1 ranRest
  obtain ⟨rfl, mid, s, rest, last, ranText, -, rfl⟩ := Json.run_quoted (by decide) ranLine
  exact ⟨mid, s, rest, last, later, ranText, ranMore, rfl⟩

/-- A disposition that is read back as itself needs no escape. -/
theorem plain_of_value {disp : CString} {mid : LexState} {s : Bytes} {rest tail after : List Token}
    (ran : Json.run (.text []) (disp.bytes ++ [0x22]) = some (mid, .string s :: rest))
    (reads : Json.ReadsValue (dispHead ++ .string s :: tail) (dispositionTree disp) after) :
    Json.Plain disp.bytes := by
  obtain ⟨first, members, behind, same, value⟩ := reads.firstMember
  cases same
  cases value
  by_contra escaped
  exact Json.not_read_back escaped ran List.mem_cons_self

section Inversion

variable {ts after : List Token} {v : Json.Value} {vs : List Json.Value}

theorem first_of_elements (reads : Json.ReadsElements ts (v :: vs) after) :
    ∃ behind, Json.ReadsValue ts v behind := by
  cases reads with
  | last value => exact ⟨_, value⟩
  | more value _ => exact ⟨_, value⟩

theorem others_of_elements {next : Json.Value}
    (reads : Json.ReadsElements ts (v :: next :: vs) after) :
    ∃ others, Json.ReadsValue ts v (.valueSeparator :: others) ∧
      Json.ReadsElements others (next :: vs) after := by
  cases reads with
  | more value tail => exact ⟨_, value, tail⟩

theorem elements_of_array (reads : Json.ReadsValue (.beginArray :: ts) (.array (v :: vs)) after) :
    Json.ReadsElements ts (v :: vs) after := by
  cases reads with
  | array inner => exact inner

/-- A disposition is over behind its brace. -/
theorem behind_disposition {s : Bytes}
    (reads : Json.ReadsValue (dispHead ++ .string s :: .endObject :: ts) v after) : ts = after := by
  cases reads with
  | object inner =>
      cases inner with
      | last value =>
          cases value
          rfl
      | more value _ => cases value

end Inversion

theorem plain_of_elements {disp : CString} {disps : List CString} {tail : Bytes} {st : LexState}
    {tokens more after : List Token}
    (ran : Json.run .between (dispsText (disp :: disps) ++ tail) = some (st, tokens))
    (reads : Json.ReadsElements (tokens ++ more) ((disp :: disps).map dispositionTree) after) :
    ∀ d ∈ disp :: disps, Json.Plain d.bytes := by
  have plain {d : CString} {more' following : List Token} {text : Bytes} {vs : List Json.Value}
      {tokens : List Token} (ran : Json.run .between (dispText d ++ text) = some (st, tokens))
      (reads : Json.ReadsElements (tokens ++ more') (dispositionTree d :: vs) following) :
      Json.Plain d.bytes := by
    obtain ⟨mid, s, rest, last, later, ranText, -, rfl⟩ := run_line ran
    obtain ⟨behind, value⟩ := first_of_elements reads
    rw [List.append_assoc] at value
    exact plain_of_value ranText value
  induction disps generalizing disp tokens with
  | nil =>
      have one : dispsText [disp] = dispText disp := by simp [dispsText]
      rw [one] at ran
      exact List.forall_mem_singleton.2 (plain ran reads)
  | cons next others ih =>
      rw [dispsText_cons_cons, List.append_assoc] at ran
      have own := plain ran reads
      obtain ⟨_, _, _, ranLine, ranRest, rfl⟩ := Json.run_append_eq_some.1 ran
      cases (run_dispText own).symm.trans ranLine
      rw [List.append_assoc] at ranRest
      obtain ⟨_, _, following, ranComma, ranOthers, rfl⟩ := Json.run_append_eq_some.1 ranRest
      have comma : Json.run .between (lit ",\n").bytes = some (.between, [.valueSeparator]) := rfl
      cases comma.symm.trans ranComma
      obtain ⟨ts', value, tail⟩ := others_of_elements reads
      have same := behind_disposition value
      obtain rfl : following ++ more = ts' := List.tail_eq_of_cons_eq same
      exact List.forall_mem_cons.2 ⟨own, ih ranOthers tail⟩

theorem plain_of_denotes {disps : List CString}
    (denotes : Json.Denotes (responseText disps) (responseTree disps)) :
    ∀ disp ∈ disps, Json.Plain disp.bytes := by
  obtain ⟨ts, lexed, reads⟩ := denotes
  unfold Json.lex at lexed
  cases ran : Json.run .between (responseText disps) with
  | none => simp [ran] at lexed
  | some result =>
      obtain ⟨st, tokens⟩ := result
      rw [ran] at lexed
      obtain ⟨more, -, rfl⟩ := Option.map_eq_some_iff.1 lexed
      rw [responseText_eq] at ran
      obtain ⟨_, _, inner, ranHead, ranRest, rfl⟩ := Json.run_append_eq_some.1 ran
      cases run_responseHead.symm.trans ranHead
      cases disps with
      | nil => simp
      | cons disp rest =>
          obtain ⟨first, members, behind, same, value⟩ := reads.firstMember
          cases same
          exact plain_of_elements ranRest (elements_of_array value)

/-- The text is the JSON text of its dispositions when none of them needs an escape, and at no
other time. -/
theorem denotes_responseText_iff (disps : List CString) :
    Json.Denotes (responseText disps) (responseTree disps) ↔
      ∀ disp ∈ disps, Json.Plain disp.bytes :=
  ⟨plain_of_denotes, denotes_responseText⟩

/-! ## What submit_articles sends -/

/-- No failed `Put` has come back with a text that needs an escape. -/
def FailuresPlain (log : List (Event calls)) : Prop :=
  ∀ (key : Bytes) (s : Status), ⟨.faPut key, s⟩ ∈ log → s.isOk = false → Json.Plain s.toCStr.bytes

/-- The words of the source need no escape. -/
theorem plain_dispositionOf_iff (put : Option Status) :
    Json.Plain (dispositionOf put).bytes ↔
      ∀ s, put = some s → s.isOk = false → Json.Plain s.toCStr.bytes := by
  have accepted : Json.Plain (lit "accepted").bytes := by decide
  have rejected : Json.Plain (lit "rejected").bytes := by decide
  cases put with
  | none => simpa [dispositionOf] using rejected
  | some s =>
      cases done : s.isOk with
      | true => simpa [dispositionOf, done] using accepted
      | false => simp [dispositionOf, done]

theorem plain_puts_iff {articles : List CString} {puts : List (Option Status)} {shutdown : Bool}
    (tried : List.Forall₂ Tried articles puts) :
    (∀ disp ∈ puts.map dispositionOf, Json.Plain disp.bytes) ↔
      FailuresPlain (⟨.feederShutdown, shutdown⟩ :: putEvents articles puts) := by
  have lengths := tried.length_eq
  constructor
  · intro plain key s member failed
    obtain impossible | inside := List.mem_cons.1 member
    · cases impossible
    · obtain ⟨j, article, s', -, putAt, same⟩ := mem_putEvents.1 inside
      cases same
      have disp := plain _ (List.mem_map_of_mem (List.mem_of_getElem? putAt))
      exact (plain_dispositionOf_iff _).1 disp s rfl failed
  · intro plain disp member
    obtain ⟨put, inside, rfl⟩ := List.mem_map.1 member
    apply (plain_dispositionOf_iff put).2
    rintro s rfl failed
    obtain ⟨j, bound, putAt⟩ := List.getElem_of_mem inside
    have inArticles : j < articles.length := lengths ▸ bound
    refine plain articles[j].bytes s (List.mem_cons_of_mem _ (mem_putEvents.2 ?_)) failed
    exact ⟨j, articles[j], s, List.getElem?_eq_getElem inArticles,
      by rw [List.getElem?_eq_getElem bound, putAt], rfl⟩

/-- **When the response is the JSON of its dispositions.** A run that answers 200, whatever the
database has answered, was sent a submission to a valid feed; it has put the valid ones of its
keys, in order, and the body is the text of what came of each, and then a NUL. That text is the
JSON of these dispositions exactly when no failed `Put` has come back with a text that needs an
escape, and the body as a whole is no JSON text. -/
theorem response_json_iff {json : Json.Parser} {req : HttpRequest} {log : List (Event calls)}
    {res : HttpResponse} (finished : Program.Finishes (submitArticles json req) log (.ok res))
    (succeeded : res.status = .status200) :
    ∃ shutdown feed contents puts, Submits json req feed contents ∧
      List.Forall₂ Tried (keysOf feed contents) puts ∧
      log = ⟨.feederShutdown, shutdown⟩ :: putEvents (keysOf feed contents) puts ∧
      res.body = responseText (puts.map dispositionOf) ++ [0] ∧
      (Json.Denotes (responseText (puts.map dispositionOf))
        (responseTree (puts.map dispositionOf)) ↔ FailuresPlain log) ∧
      ¬ ∃ v, Json.Denotes res.body v := by
  obtain ⟨shutdown, feed, contents, puts, submits, tried, rfl, body⟩ :=
    submits_of_finished finished succeeded
  refine ⟨shutdown, feed, contents, puts, submits, tried, rfl, body, ?_, ?_⟩
  · rw [denotes_responseText_iff]
    exact plain_puts_iff tried
  · rintro ⟨v, denotes⟩
    rw [body] at denotes
    exact denotes.nulFree (by simp)

/-- Two articles that are stored. -/
theorem response_json_two : ∃ log res puts,
    Program.Finishes (submitArticles Json.reader twoArticles) log (.ok res) ∧
      List.Forall₂ Tried (keysOf (lit "f") [ascii "x", ascii "y"]) puts ∧
        res.body = responseText (puts.map dispositionOf) ++ [0] ∧
          Json.Denotes (responseText (puts.map dispositionOf))
            (responseTree (puts.map dispositionOf)) := by
  have submits : Submits Json.reader twoArticles (lit "f") [ascii "x", ascii "y"] :=
    ⟨locates_postFeed_f _, by decide, by decide +kernel⟩
  obtain ⟨res, finished, succeeded, -⟩ := finishes_of_submits rfl submits
  obtain ⟨shutdown, feed, contents, puts, submits', tried, -, body, denotes, -⟩ :=
    response_json_iff finished succeeded
  obtain ⟨rfl, rfl⟩ := submits.unique submits'
  refine ⟨_, res, puts, finished, tried, body, denotes.2 ?_⟩
  intro key s member failed
  obtain impossible | inside := List.mem_cons.1 member
  · cases impossible
  · rw [putEvents_tryPut] at inside
    obtain ⟨article, -, ok⟩ := List.mem_map.1 inside
    cases ok
    cases failed

end Feedserver.Serving
