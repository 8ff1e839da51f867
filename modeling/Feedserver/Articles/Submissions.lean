/-
# Articles.Submissions — the loop of submit_articles, and what it reports

A submission's articles and dispositions are two vectors, filled together and written by
a loop that walks the one with an iterator and the other with a counter.

* `Lockstep`: equally long. Every submission a payload parses to is (`lockstep_request`),
  and then the counter never leaves the dispositions.
* `finishes_submitLoop`: a finished loop has tried a `Put` for exactly the valid articles,
  in order (`putEvents`), and entry by entry the dispositions say what came of it
  (`dispositionOf`).
* `response_text`: the response lists them one per article, with separators between.
-/
import Feedserver.Source.FeedServer
import Mathlib.Data.List.Forall2

namespace Feedserver.Articles

open Feedserver.Theory
open Feedserver.Source

set_option autoImplicit false

/-- As many dispositions as articles. -/
def Lockstep (fa : FaSubmission) : Prop := fa.disp.length = fa.articles.length

theorem lockstep_new (feed : CString) : Lockstep (faSubmissionNew feed) := rfl

theorem Lockstep.addArticle {fa : FaSubmission} (lockstep : Lockstep fa) (article : CString) :
    Lockstep (faSubmissionAddArticle fa article) := by
  simp only [Lockstep, faSubmissionAddArticle, vcVectorPushBack, vcVectorAppend, List.length_append]
  exact congrArg (· + 1) lockstep

theorem Lockstep.addRequestArticle {fa fa' : FaSubmission} {value : Json.Value}
    (lockstep : Lockstep fa) (added : addRequestArticle fa value = .ok fa') : Lockstep fa' := by
  unfold Source.addRequestArticle at added
  split at added <;> cases added
  · exact lockstep.addArticle _
  · exact lockstep.addArticle _
  · exact lockstep

/-- The vectors of a parsed submission are equally long. -/
theorem lockstep_request {json : Json.Parser} {feed : CString} {payload : Bytes}
    {fa : FaSubmission} (parsed : faSubmissionFromRequest json feed payload = .ok (some fa)) :
    Lockstep fa := by
  unfold faSubmissionFromRequest at parsed
  split at parsed
  · split at parsed
    · cases parsed
    · rename_i values _
      cases added : values.foldlM Source.addRequestArticle (faSubmissionNew feed) with
      | error reason => rw [added] at parsed; cases parsed
      | ok built =>
          rw [added] at parsed
          cases parsed
          exact Program.foldlM_invariant (fun _ _ _ _ holds => holds.addRequestArticle)
            (lockstep_new feed) added
    · cases parsed; exact lockstep_new feed
  · cases parsed

/-! ## The loop -/

/-- An article's disposition, from what came of its `Put`, if one was tried. -/
def dispositionOf : Option Status → CString
  | none => lit "rejected"
  | some s => if s.isOk then lit "accepted" else s.toCStr

/-- A `Put` is tried for a valid article and for no other. -/
def Tried (article : CString) (put : Option Status) : Prop := put.isSome = isarticleValid article

def putEvent (article : CString) (s : Status) : Event calls := ⟨.faPut article.bytes, s⟩

def putEvents : List CString → List (Option Status) → List (Event calls)
  | article :: articles, some s :: puts => putEvent article s :: putEvents articles puts
  | _ :: articles, none :: puts => putEvents articles puts
  | _, _ => []

/-- The log of a loop, position by position. -/
theorem mem_putEvents {articles : List CString} {puts : List (Option Status)} {e : Event calls} :
    e ∈ putEvents articles puts ↔
      ∃ (j : Nat) (article : CString) (s : Status), articles[j]? = some article ∧
        puts[j]? = some (some s) ∧ e = putEvent article s := by
  induction articles generalizing puts with
  | nil => simp [putEvents]
  | cons article rest ih =>
      rcases puts with _ | ⟨_ | s, puts⟩
      · simp [putEvents]
      · simp only [putEvents, ih]
        constructor
        · rintro ⟨j, a, s, articleAt, putAt, rfl⟩
          exact ⟨j + 1, a, s, articleAt, putAt, rfl⟩
        · rintro ⟨_ | j, a, s, articleAt, putAt, rfl⟩
          · simp at putAt
          · exact ⟨j, a, s, articleAt, putAt, rfl⟩
      · simp only [putEvents, List.mem_cons, ih]
        constructor
        · rintro (rfl | ⟨j, a, s, articleAt, putAt, rfl⟩)
          · exact ⟨0, article, s, rfl, rfl, rfl⟩
          · exact ⟨j + 1, a, s, articleAt, putAt, rfl⟩
        · rintro ⟨_ | j, a, t, articleAt, putAt, rfl⟩
          · simp only [List.getElem?_cons_zero, Option.some.injEq] at articleAt putAt
            subst articleAt putAt
            exact .inl rfl
          · exact .inr ⟨j, a, t, articleAt, putAt, rfl⟩

theorem dispositionOf_accepted {put : Option Status} :
    dispositionOf put = lit "accepted" ↔ put = some .ok := by
  rcases put with _ | _ | text | text
  · have : lit "rejected" ≠ lit "accepted" := by decide
    simp [dispositionOf, this]
  · simp [dispositionOf, Status.isOk]
  · simp [dispositionOf, Status.isOk, Status.toCStr, text.notAccepted]
  · simp [dispositionOf, Status.isOk, Status.toCStr, text.notAccepted]

theorem dispositionOf_rejected {put : Option Status} :
    dispositionOf put = lit "rejected" ↔ put = none := by
  rcases put with _ | _ | text | text
  · simp [dispositionOf]
  · have : lit "accepted" ≠ lit "rejected" := by decide
    simp [dispositionOf, Status.isOk, this]
  · simp [dispositionOf, Status.isOk, Status.toCStr, text.notRejected]
  · simp [dispositionOf, Status.isOk, Status.toCStr, text.notRejected]

/-- Write one disposition. -/
def FaSubmission.dispose (fa : FaSubmission) (i : Nat) (disp : CString) : FaSubmission :=
  { fa with disp := fa.disp.set i disp }

theorem articleDisp_inside {fa : FaSubmission} {i : Nat} (inside : i < fa.disp.length)
    (disp : CString) : faSubmissionArticleDisp fa i disp = .ok (FaSubmission.dispose fa i disp) := by
  simp only [faSubmissionArticleDisp, vcVectorReplace, if_pos inside]
  rfl

theorem submitLoop_valid {article : CString} {rest : List CString} {i : Nat} {fa : FaSubmission}
    (valid : isarticleValid article = true) (inside : i < fa.disp.length) :
    submitLoop (article :: rest) i fa = .call (S := calls) (.faPut article.bytes) fun s =>
      submitLoop rest (i + 1) (FaSubmission.dispose fa i (dispositionOf (some s))) := by
  have round : submitArticle fa i article = .call (S := calls) (.faPut article.bytes) fun s =>
      .done (FaSubmission.dispose fa i (dispositionOf (some s))) := by
    have call : submitArticle fa i article = .call (S := calls) (.faPut article.bytes) fun s =>
        if Status.isOk s then .ofExcept (faSubmissionArticleDisp fa i (lit "accepted"))
        else .ofExcept (faSubmissionArticleDisp fa i (Status.toCStr s)) := by
      unfold submitArticle
      rw [if_pos valid]
      rfl
    rw [call]
    congr 1
    funext s
    simp only [articleDisp_inside inside, dispositionOf, Program.ofExcept_ok]
    split <;> rfl
  rw [submitLoop, round]
  rfl

theorem submitLoop_invalid {article : CString} {rest : List CString} {i : Nat} {fa : FaSubmission}
    (invalid : isarticleValid article = false) (inside : i < fa.disp.length) :
    submitLoop (article :: rest) i fa =
      submitLoop rest (i + 1) (FaSubmission.dispose fa i (dispositionOf none)) := by
  have notValid : ¬ isarticleValid article = true := by simp [invalid]
  rw [submitLoop, submitArticle, if_neg notValid, articleDisp_inside inside]
  rfl

theorem dispose_window {fa : FaSubmission} {i n : Nat} {disp : CString} {disps : List CString}
    (room : i + (n + 1) ≤ fa.disp.length) :
    (FaSubmission.dispose fa i disp).disp.take (i + 1) ++ disps ++
        (FaSubmission.dispose fa i disp).disp.drop (i + 1 + n) =
      fa.disp.take i ++ (disp :: disps) ++ fa.disp.drop (i + (n + 1)) := by
  have front : (fa.disp.set i disp).take (i + 1) = fa.disp.take i ++ [disp] := by
    rw [List.take_add_one, List.take_set_of_le le_rfl, List.getElem?_set_self (by omega)]
    rfl
  have back : (fa.disp.set i disp).drop (i + 1 + n) = fa.disp.drop (i + (n + 1)) := by
    rw [List.drop_set_of_lt (by omega)]
    congr 1
    omega
  simp [FaSubmission.dispose, front, back]

/-- What a finished loop has done, from any article on. -/
theorem finishes_submitLoop {articles : List CString} {i : Nat} {fa : FaSubmission}
    {log : List (Event calls)} {outcome : Except Fault FaSubmission}
    (room : i + articles.length ≤ fa.disp.length)
    (finished : Program.Finishes (submitLoop articles i fa) log outcome) :
    ∃ puts, List.Forall₂ Tried articles puts ∧ log = putEvents articles puts ∧
      outcome = .ok ⟨fa.feed, fa.articles,
        fa.disp.take i ++ puts.map dispositionOf ++ fa.disp.drop (i + articles.length)⟩ := by
  induction articles generalizing i fa log with
  | nil =>
      obtain ⟨rfl, rfl⟩ := Program.finishes_done_iff.1 finished
      exact ⟨[], .nil, rfl, by simp⟩
  | cons article rest ih =>
      have inside : i < fa.disp.length := by simp at room; omega
      have room' (disp : CString) :
          i + 1 + rest.length ≤ (FaSubmission.dispose fa i disp).disp.length := by
        simp only [FaSubmission.dispose, List.length_set]
        simp at room; omega
      cases valid : isarticleValid article with
      | true =>
          rw [submitLoop_valid valid inside] at finished
          obtain ⟨s, tail, rfl, others⟩ := Program.finishes_call_iff.1 finished
          obtain ⟨puts, tried, rfl, rfl⟩ := ih (room' _) others
          refine ⟨some s :: puts, .cons (by rw [Tried, valid]; rfl) tried, rfl, ?_⟩
          rw [dispose_window (by simpa using room)]
          rfl
      | false =>
          rw [submitLoop_invalid valid inside] at finished
          obtain ⟨puts, tried, rfl, rfl⟩ := ih (room' _) finished
          refine ⟨none :: puts, .cons (by simp [Tried, valid]) tried, rfl, ?_⟩
          rw [dispose_window (by simpa using room)]
          rfl

/-- A finished submission: every article has its own disposition. -/
theorem finishes_submitAll {fa : FaSubmission} {log : List (Event calls)}
    {outcome : Except Fault FaSubmission} (lockstep : Lockstep fa)
    (finished : Program.Finishes (submitAll fa) log outcome) :
    ∃ puts, List.Forall₂ Tried fa.articles puts ∧ log = putEvents fa.articles puts ∧
      outcome = .ok ⟨fa.feed, fa.articles, puts.map dispositionOf⟩ := by
  have same : fa.disp.length = fa.articles.length := lockstep
  obtain ⟨puts, tried, rfl, rfl⟩ := finishes_submitLoop (i := 0) (by omega) finished
  refine ⟨puts, tried, rfl, ?_⟩
  simp [same]

def IsFaPut (c : Call) : Prop := ∃ key, c = .faPut key

/-- The loop makes no call but the `Put`s of its articles. -/
theorem submitLoop_uses (articles : List CString) (i : Nat) (fa : FaSubmission) :
    Program.Uses (S := calls) (fun c => ∃ article ∈ articles, c = .faPut article.bytes)
      (submitLoop articles i fa) := by
  induction articles generalizing i fa with
  | nil => trivial
  | cons article rest ih =>
      refine Program.Uses.bind ?_ fun fa => (ih (i + 1) fa).mono fun c ⟨later, member, put⟩ =>
        ⟨later, List.mem_cons_of_mem _ member, put⟩
      unfold submitArticle
      split
      · refine ⟨⟨article, List.mem_cons_self, rfl⟩, ?_⟩
        intro s
        show Program.Uses (S := calls) _ (if Status.isOk s then _ else _)
        split <;> exact Program.Uses.ofExcept _
      · exact Program.Uses.ofExcept _

/-! ## The response -/

def dispText (disp : CString) : Bytes :=
  (lit "\x7b\"disposition\": \"").bytes ++ disp.bytes ++ (lit "\"\x7d\n").bytes

/-- The text of a response that reports these dispositions. -/
def responseText (disps : List CString) : Bytes :=
  (lit "\x7b\n\"articles\": [\n").bytes ++
    List.intercalate (lit ",\n").bytes (disps.map dispText) ++ (lit "]\n\x7d\n").bytes

theorem Builds.appendDisps {s : Bytes} (disps : List CString) {vs : VcVector UInt8}
    (builds : Builds vs s) :
    Builds (Source.appendDisps disps vs)
      (s ++ List.intercalate (lit ",\n").bytes (disps.map dispText)) := by
  induction disps generalizing vs s with
  | nil => simpa [Source.appendDisps] using builds
  | cons disp rest ih =>
      have one := ((builds.append (lit "\x7b\"disposition\": \"")).append disp).append (lit "\"\x7d\n")
      cases rest with
      | nil => simpa [Source.appendDisps, dispText] using one
      | cons next others =>
          have := ih (one.append (lit ",\n"))
          rw [List.map_cons, List.map_cons, List.intercalate_cons_cons]
          simpa [Source.appendDisps, dispText, List.append_assoc] using this

theorem builds_response (fa : FaSubmission) :
    Builds (faSubmissionResponse fa) (responseText fa.disp) :=
  (Builds.appendDisps fa.disp (builds_create.append (lit "\x7b\n\"articles\": [\n"))).append
    (lit "]\n\x7d\n")

theorem responseText_nulFree (disps : List CString) : (0 : UInt8) ∉ responseText disps := by
  have disp (d : CString) : (0 : UInt8) ∉ dispText d := by
    simp only [dispText, List.mem_append, not_or]
    exact ⟨⟨CString.nulFree _, d.nulFree⟩, CString.nulFree _⟩
  have listed : (0 : UInt8) ∉ List.intercalate (lit ",\n").bytes (disps.map dispText) := by
    induction disps with
    | nil => simp
    | cons d rest ih =>
        cases rest with
        | nil => simpa using disp d
        | cons next others =>
            rw [List.map_cons, List.map_cons, List.intercalate_cons_cons]
            simp only [List.mem_append, not_or]
            exact ⟨⟨disp d, CString.nulFree _⟩, ih⟩
  simp only [responseText, List.mem_append, not_or]
  exact ⟨⟨CString.nulFree _, listed⟩, CString.nulFree _⟩

/-- The response is the list of the dispositions, with a comma between each two. -/
theorem response_text (fa : FaSubmission) :
    (vcStringBegin (faSubmissionResponse fa)).bytes = responseText fa.disp :=
  (builds_response fa).begin_ (responseText_nulFree fa.disp)

end Feedserver.Articles
