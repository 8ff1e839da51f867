/-
# Serving.Submission — submissions at the same time

Any number of parsed submissions, their `Put`s in any order and any of them failing. A
submission shares nothing with the others but the article database, and a `Put` there only
ever adds a key, so

* `Reported`: each submission's report is about its own articles, one by one;
* `submissions_complete`: once all have finished, the database holds what it held and the
  articles reported accepted, and nothing else.
-/
import Feedserver.Articles.Submissions
import Feedserver.Theory.Pool
import Feedserver.Serving.Requests

namespace Feedserver.Serving

open Feedserver.Theory
open Feedserver.Source
open Feedserver.Articles
open Pool (Run)

set_option autoImplicit false

/-- The article `article` had the outcome `put`, and `disp` says so. -/
structure Fate (article : CString) (put : Option Status) (disp : CString) : Prop where
  tried : put.isSome = isarticleValid article
  accepted : disp = lit "accepted" ↔ isarticleValid article = true ∧ put = some .ok
  rejected : disp = lit "rejected" ↔ isarticleValid article = false
  failed : ∀ s, put = some s → s ≠ .ok → disp = s.toCStr

/-- A submission that has come out as `fa'`, after the calls in its log. -/
structure Reported (fa fa' : FaSubmission) (log : List (Event calls)) : Prop where
  intro ::
  articles : fa'.articles = fa.articles
  lockstep : fa'.disp.length = fa'.articles.length
  fates : ∃ puts : List (Option Status), puts.length = fa.articles.length ∧
    log = putEvents fa.articles puts ∧
    ∀ (i : Nat) (article : CString) (put : Option Status) (disp : CString),
      fa'.articles[i]? = some article → puts[i]? = some put → fa'.disp[i]? = some disp →
        Fate article put disp
  response : (vcStringBegin (faSubmissionResponse fa')).bytes = responseText fa'.disp

theorem fate_of_tried {article : CString} {put : Option Status} (tried : Tried article put) :
    Fate article put (dispositionOf put) where
  tried := tried
  accepted := by
    rw [dispositionOf_accepted]
    refine ⟨fun same => ⟨?_, same⟩, fun h => h.2⟩
    rw [← show put.isSome = isarticleValid article from tried, same]
    rfl
  rejected := by
    rw [dispositionOf_rejected, ← show put.isSome = isarticleValid article from tried]
    cases put <;> simp
  failed := by
    rintro s rfl notOk
    cases s with
    | ok => exact absurd rfl notOk
    | notFound text => rfl
    | error text => rfl

/-- A finished submission reports. -/
theorem reported_of_finished {fa : FaSubmission} {log : List (Event calls)}
    {outcome : Except Fault FaSubmission} (lockstep : Lockstep fa)
    (finished : Program.Finishes (submitAll fa) log outcome) :
    ∃ fa', outcome = .ok fa' ∧ Reported fa fa' log := by
  obtain ⟨puts, tried, rfl, rfl⟩ := finishes_submitAll lockstep finished
  refine ⟨_, rfl, rfl, ?_, ⟨puts, tried.length_eq.symm, rfl, ?_⟩, response_text _⟩
  · simp [tried.length_eq]
  · intro i article put disp articleAt putAt dispAt
    have dispIs : disp = dispositionOf put := by
      simp only [List.getElem?_map, putAt, Option.map_some, Option.some.injEq] at dispAt
      exact dispAt.symm
    rw [dispIs]
    obtain ⟨articleIn, rfl⟩ := List.getElem?_eq_some_iff.1 articleAt
    obtain ⟨putIn, rfl⟩ := List.getElem?_eq_some_iff.1 putAt
    exact fate_of_tried (tried.get articleIn putIn)

/-! ## All of them together -/

abbrev Submitters := List (Thread calls Fault FaSubmission)

/-- The key was reported accepted by a finished submission. -/
def AcceptedKey (pool : Submitters) (key : Bytes) : Prop :=
  ∃ (i j : Nat) (fa : FaSubmission) (log : List (Event calls)) (article : CString),
    pool[i]? = some ⟨.done fa, log⟩ ∧ fa.articles[j]? = some article ∧
      fa.disp[j]? = some (lit "accepted") ∧ article.bytes = key

/-- A successful `Put` of an article adds its key; no other call changes the articles. -/
def Adds : Event calls → Bytes → Prop
  | ⟨.faPut key, s⟩, k => k = key ∧ s = Status.ok
  | _, _ => False

theorem fa_after {c : Call} {w w' : World} {a : c.Answer} (made : honestCall c w a w') (key : Bytes) :
    key ∈ w'.fa ↔ key ∈ w.fa ∨ Adds ⟨c, a⟩ key := by
  obtain ⟨-, rfl⟩ := made
  cases c with
  | faPut k =>
      rcases a with _ | text | text
      · have member : key ∈ (w.after (.faPut k) Status.ok).fa ↔ key = k ∨ key ∈ w.fa := by
          simp [World.after, Status.isOk]
        rw [member, or_comm]
        exact or_congr_right ⟨fun same => ⟨same, rfl⟩, fun h => h.1⟩
      · simp [World.after, Status.isOk, Adds]
      · simp [World.after, Status.isOk, Adds]
  | ufPut k v =>
      have unchanged : (w.after (.ufPut k v) a).fa = w.fa := by
        simp only [World.after]
        split <;> rfl
      simp [unchanged, Adds]
  | _ => simp [World.after, Adds]

theorem adds_of_reported {fa fa' : FaSubmission} {log : List (Event calls)}
    (reported : Reported fa fa' log) (key : Bytes) :
    (∃ e ∈ log, Adds e key) ↔
      ∃ (j : Nat) (article : CString), fa'.articles[j]? = some article ∧
        fa'.disp[j]? = some (lit "accepted") ∧ article.bytes = key := by
  obtain ⟨same, lockstep, ⟨puts, length, rfl, fates⟩, -⟩ := reported
  constructor
  · rintro ⟨e, member, adds⟩
    obtain ⟨j, article, s, articleAt, putAt, rfl⟩ := mem_putEvents.1 member
    obtain ⟨rfl, rfl⟩ := adds
    have inside := (List.getElem?_eq_some_iff.1 articleAt).1
    have dispIn : j < fa'.disp.length := by rw [lockstep, same]; exact inside
    have fate := fates j article (some .ok) _ (same ▸ articleAt) putAt
      (List.getElem?_eq_getElem dispIn)
    have valid : isarticleValid article = true := fate.tried.symm
    refine ⟨j, article, same ▸ articleAt, ?_, rfl⟩
    rw [List.getElem?_eq_getElem dispIn, fate.accepted.2 ⟨valid, rfl⟩]
  · rintro ⟨j, article, articleAt, dispAt, rfl⟩
    rw [same] at articleAt
    have inside := (List.getElem?_eq_some_iff.1 articleAt).1
    have putIn : j < puts.length := by rw [length]; exact inside
    have fate := fates j article _ _ (same ▸ articleAt) (List.getElem?_eq_getElem putIn) dispAt
    have putAt : puts[j]? = some (some .ok) := by
      rw [List.getElem?_eq_getElem putIn, (fate.accepted.1 rfl).2]
    exact ⟨_, mem_putEvents.2 ⟨j, article, .ok, articleAt, putAt, rfl⟩, rfl, rfl⟩

/-- **Nothing is lost.** When every submission has finished, each has reported on its own
articles, and the article database is what it was and the accepted articles. -/
theorem submissions_complete {fas : List FaSubmission} {w₀ w : World} {pool : Submitters}
    (lockstep : ∀ fa ∈ fas, Lockstep fa)
    (run : Run honestCall Pool.anyStep (Pool.launch (fas.map submitAll)) w₀ pool w)
    (finished : ∀ thread ∈ pool, ∃ outcome, thread.program = .ofExcept outcome) :
    (∀ (i : Nat) (fa : FaSubmission), fas[i]? = some fa →
      ∃ fa' log, pool[i]? = some ⟨.done fa', log⟩ ∧ Reported fa fa' log) ∧
      ∀ key, key ∈ w.fa ↔ key ∈ w₀.fa ∨ AcceptedKey pool key := by
  have follows := run.follows
  have reports (i : Nat) (thread : Thread calls Fault FaSubmission)
      (found : pool[i]? = some thread) :
      ∃ fa fa', fas[i]? = some fa ∧ thread.program = .done fa' ∧ Reported fa fa' thread.log := by
    obtain ⟨p, programAt, after⟩ := follows.after i thread found
    simp only [List.getElem?_map, Option.map_eq_some_iff] at programAt
    obtain ⟨fa, faAt, rfl⟩ := programAt
    obtain ⟨outcome, ended⟩ := finished thread (List.mem_of_getElem? found)
    rw [ended] at after
    obtain ⟨fa', rfl, reported⟩ :=
      reported_of_finished (lockstep fa (List.mem_of_getElem? faAt)) after
    exact ⟨fa, fa', faAt, ended, reported⟩
  refine ⟨fun i fa faAt => ?_, fun key => ?_⟩
  · have inside : i < pool.length := by
      rw [follows.length, List.length_map]
      exact (List.getElem?_eq_some_iff.1 faAt).1
    obtain ⟨fa₁, fa', same, ended, reported⟩ := reports i _ (List.getElem?_eq_getElem inside)
    obtain rfl : fa₁ = fa := Option.some.inj (same.symm.trans faAt)
    refine ⟨fa', _, ?_, reported⟩
    rw [List.getElem?_eq_getElem inside, ← ended]
  · refine (run.accumulates (fun w k => k ∈ w.fa) Adds (fun _ _ _ _ => fa_after) key).trans ?_
    refine or_congr_right ⟨?_, ?_⟩
    · rintro ⟨thread, member, added⟩
      obtain ⟨i, inside, rfl⟩ := List.getElem_of_mem member
      obtain ⟨fa, fa', -, ended, reported⟩ := reports i _ (List.getElem?_eq_getElem inside)
      obtain ⟨j, article, articleAt, dispAt, same⟩ := (adds_of_reported reported key).1 added
      refine ⟨i, j, fa', pool[i].log, article, ?_, articleAt, dispAt, same⟩
      rw [List.getElem?_eq_getElem inside, ← ended]
    · rintro ⟨i, j, fa', log, article, found, articleAt, dispAt, same⟩
      obtain ⟨fa, fa₁, -, ended, reported⟩ := reports i _ found
      cases ended
      exact ⟨_, List.mem_of_getElem? found,
        (adds_of_reported reported key).2 ⟨j, article, articleAt, dispAt, same⟩⟩

/-- Two submissions to one feed, one of them with an article that is not printable. -/
def twoSubmissions : List FaSubmission :=
  [faSubmissionAddArticle (faSubmissionNew (lit "f")) (lit "x"),
    faSubmissionAddArticle (faSubmissionAddArticle (faSubmissionNew (lit "f")) (cstr [0x01]))
      (lit "y")]

theorem submissions_complete_two : ∃ (w : World) (pool : Submitters),
    Run honestCall Pool.anyStep (Pool.launch (twoSubmissions.map submitAll)) .empty pool w ∧
      w.fa.keys = [ascii "f/x", ascii "f/y"] ∧
        ∀ key, key ∈ w.fa ↔ key ∈ World.empty.fa ∨ AcceptedKey pool key := by
  have run := Pool.run_play (S := calls) Pool.anyStep succeed honest_succeed
    (Pool.launch (twoSubmissions.map submitAll)) .empty [1, 0]
  have finished : ∀ thread ∈ (Pool.play Pool.anyStep succeed [1, 0]
      (Pool.launch (twoSubmissions.map submitAll), World.empty)).1,
      thread.program.ended = true := by decide +kernel
  exact ⟨_, _, run, by decide +kernel, (submissions_complete (by unfold Lockstep; decide) run
    fun thread member => Program.outcome_of_ended (finished thread member)).2⟩

end Feedserver.Serving
