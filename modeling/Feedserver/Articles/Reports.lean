/-
# Articles.Reports — what a finished submission has done, when every Put succeeds

Then an article is accepted exactly when it is valid, so the dispositions are one flag each
(`Reports`) and the response determines them (`reports_inj`: the two words are equally
long). `finished_submission`: a finished handler answered something other than 200 without a
`Put`, or it reported on the contents of its payload and put the keys of the valid ones.
-/
import Feedserver.Articles.Keys
import Feedserver.Theory.PrefixFree

namespace Feedserver.Articles

open Feedserver.Theory
open Feedserver.Source
open Feedserver.Records

set_option autoImplicit false

/-! ## Flags -/

/-- The disposition that stands for a flag. -/
def word (accepted : Bool) : CString := if accepted then lit "accepted" else lit "rejected"

/-- The response lists these dispositions. -/
def Reports (res : HttpResponse) (flags : List Bool) : Prop :=
  res.status = .status200 ∧ res.body = responseText (flags.map word) ++ [0]

theorem dispText_ne_nil (disp : CString) : dispText disp ≠ [] := by
  have opening : (lit "\x7b\"disposition\": \"").bytes ≠ [] := by decide
  simp [dispText, opening]

theorem prefixFree_word :
    PrefixFreeOn Set.univ fun flag => dispText (word flag) ++ (lit ",\n").bytes := by
  let n := (dispText (word true) ++ (lit ",\n").bytes).length
  refine PrefixFreeOn.of_length (n := n) (fun flag _ => ?_) fun a _ b _ same => ?_
  · cases flag <;> rfl
  · cases a <;> cases b <;> first | rfl | exact absurd same (by decide)

/-- A response reports one list of flags. -/
theorem reports_inj {res : HttpResponse} {flags flags' : List Bool} (first : Reports res flags)
    (second : Reports res flags') : flags = flags' := by
  have text := first.2.symm.trans second.2
  simp only [responseText, List.map_map, List.append_assoc, List.append_cancel_left_eq,
    List.append_cancel_right_eq] at text
  exact prefixFree_word.intercalate_injOn (fun flag _ => dispText_ne_nil _) (fun _ _ => trivial)
    (fun _ _ => trivial) text

/-! ## Finished submissions -/

/-- What becomes of an article when a `Put` that is tried succeeds. -/
def tryPut (article : CString) : Option Status :=
  if isarticleValid article then some .ok else none

theorem dispositionOf_tryPut (article : CString) :
    dispositionOf (tryPut article) = word (isarticleValid article) := by
  unfold tryPut word
  cases isarticleValid article <;> rfl

theorem puts_of_ok {articles : List CString} {puts : List (Option Status)}
    (tried : List.Forall₂ Tried articles puts)
    (ok : ∀ article s, putEvent article s ∈ putEvents articles puts → s = .ok) :
    puts = articles.map tryPut := by
  induction tried with
  | nil => rfl
  | @cons article put articles puts first _ ih =>
      have valid : put.isSome = isarticleValid article := first
      rw [List.map_cons, tryPut, ← valid]
      cases put with
      | none => rw [← ih fun later s member => ok later s member]; rfl
      | some s =>
          rw [← ih fun later s member => ok later s (List.mem_cons_of_mem _ member),
            ok article s List.mem_cons_self]
          rfl

/-- The successful `Put` of a key. -/
def accepts (key : Bytes) : Event calls := ⟨.faPut key, Status.ok⟩

theorem accepts_mem_iff {articles : List CString} {key : Bytes} :
    accepts key ∈ putEvents articles (articles.map tryPut) ↔
      ∃ article ∈ articles, isarticleValid article = true ∧ key = article.bytes := by
  rw [mem_putEvents]
  constructor
  · rintro ⟨j, article, s, articleAt, putAt, same⟩
    rw [List.getElem?_map, articleAt] at putAt
    have tried : tryPut article = some s := Option.some.inj putAt
    have valid : isarticleValid article = true := by
      unfold tryPut at tried
      split at tried
      · assumption
      · cases tried
    cases same
    exact ⟨article, List.mem_of_getElem? articleAt, valid, rfl⟩
  · rintro ⟨article, member, valid, rfl⟩
    obtain ⟨j, inside, rfl⟩ := List.getElem_of_mem member
    refine ⟨j, articles[j], .ok, List.getElem?_eq_getElem inside, ?_, rfl⟩
    rw [List.getElem?_map, List.getElem?_eq_getElem inside, Option.map_some, tryPut, if_pos valid]

/-- A content is accepted when its key is a valid article. -/
def acceptable (feed : CString) (content : Bytes) : Bool :=
  isarticleValid (articleKey feed (cstr content))

theorem reports_respond {req : HttpRequest} {feed : CString} {contents : List Bytes} :
    Reports (respondSubmission req ⟨feed, (submission feed contents).articles,
      ((submission feed contents).articles.map tryPut).map dispositionOf⟩)
      (contents.map (acceptable feed)) := by
  have disps : ((submission feed contents).articles.map tryPut).map dispositionOf =
      (contents.map (acceptable feed)).map word := by
    rw [submission_articles]
    simp only [List.map_map]
    exact List.map_congr_left fun content _ => dispositionOf_tryPut _
  have built := builds_response ⟨feed, (submission feed contents).articles,
    ((submission feed contents).articles.map tryPut).map dispositionOf⟩
  rw [Builds, disps] at built
  refine ⟨respondJson_status _ _ _, ?_⟩
  rw [disps]
  simp only [respondSubmission, respondJson_body, vcVectorSize, List.take_length]
  exact built

/-- A handler that has come to its end, with every `Put` in its log successful. -/
theorem finished_submission {json : Json.Parser} {req : HttpRequest} {log : List (Event calls)}
    {outcome : Except Fault HttpResponse}
    (finished : Program.Finishes (submitArticles json req) log outcome)
    (ok : ∀ article s, putEvent article s ∈ log → s = .ok) :
    ((∀ key, accepts key ∉ log) ∧ ∀ res, outcome = .ok res → res.status ≠ .status200) ∨
      ∃ feed contents res, Submits json req feed contents ∧ outcome = .ok res ∧
        Reports res (contents.map (acceptable feed)) ∧
        ∀ key, accepts key ∈ log ↔ ∃ content ∈ contents, acceptable feed content = true ∧
          key = (articleKey feed (cstr content)).bytes := by
  obtain ⟨shutdown, rest, rfl, cases⟩ := finishes_submitArticles finished
  have fresh (key : Bytes) : accepts key ≠ ⟨.feederShutdown, shutdown⟩ := nofun
  rcases cases with ⟨rfl, declined⟩ | ⟨feed, contents, puts, submits, tried, rfl, rfl⟩
  · refine .inl ⟨?_, declined⟩
    intro key
    simpa using fresh key
  · obtain rfl := puts_of_ok tried fun article s member =>
      ok article s (List.mem_cons_of_mem _ member)
    refine .inr ⟨feed, contents, _, submits, rfl, reports_respond, ?_⟩
    intro key
    rw [List.mem_cons, accepts_mem_iff, submission_articles]
    simp [fresh key, acceptable]

end Feedserver.Articles
