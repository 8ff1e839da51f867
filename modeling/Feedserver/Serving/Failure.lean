/-
# Serving.Failure — a request that is not answered 200 changes nothing

Nothing is assumed of the answers (`anyCall`): the shutdown flag, a looked-up value and
the status of a `Put` may be anything at all, whatever the databases hold. What a finished
handler has done is then in its log.

* `update_all_or_nothing`: a subscribe or unsubscribe answered 200 made one `Put`, which
  succeeded and wrote the text of its body; answered otherwise it left the world alone.
* `submit_all_or_nothing`: the same of a submission, which never touches the users.
-/
import Feedserver.Serving.Requests

namespace Feedserver.Serving

open Feedserver.Theory
open Feedserver.Source
open Feedserver.Records
open Program (Runs Finishes Replays)

set_option autoImplicit false

variable {json : Json.Parser} {req : HttpRequest} {w w' : World} {log : List (Event calls)}
  {res : HttpResponse}

/-- The call is a `Put` to either database. -/
def IsPut : Call → Bool
  | .ufPut _ _ => true
  | .faPut _ => true
  | _ => false

/-- The routes whose handlers write. -/
def Writes (route : Route) : Prop :=
  route = .subscribe ∨ route = .unsubscribe ∨ route = .submit

/-- One successful `Put` to the user-feed database, of the text the response carries. -/
def OnePut (log : List (Event calls)) (res : HttpResponse) : Prop :=
  ∃ key, log.filter (fun e => IsPut e.call) = [⟨.ufPut key (cstr res.body).bytes, Status.ok⟩]

theorem body_of_putResponse (req : HttpRequest) (uf : UfPair) :
    (cstr (putResponse req uf .ok).body).bytes = dbText uf := by
  have body : (putResponse req uf .ok).body = dbText uf ++ 0 :: [] := by
    simp [putResponse, Status.isOk]
  rw [body, cstr_append_nul ⟨dbText uf, dbText_nulFree uf⟩]

theorem update_all_or_nothing (update : Update)
    (ran : Runs anyCall (update.handler json req) w log (.ok res) w') :
    (res.status ≠ .status200 → w' = w) ∧ (res.status = .status200 → OnePut log res) := by
  obtain ⟨finished, replays⟩ := ran
  have stage := stage_of_after finished
  refine ⟨fun failed => stage.failed failed replays, ?_⟩
  intro succeeded
  obtain ⟨ufReq, answer, uf, -, -, rfl, rfl⟩ := stage.succeeded succeeded
  refine ⟨uf.user.bytes, ?_⟩
  rw [body_of_putResponse]
  rfl

/-- Puts of articles leave everything but the articles alone. -/
theorem only_fa_of_faPuts (only : ∀ e ∈ log, Articles.IsFaPut e.call)
    (replays : Replays anyCall w log w') : { w with fa := w'.fa } = w' := by
  induction replays with
  | nil => rfl
  | @cons s s' s'' e log head tail ih =>
      rw [← ih fun e member => only e (List.mem_cons_of_mem _ member)]
      obtain ⟨c, a⟩ := e
      obtain ⟨key, rfl⟩ := only _ List.mem_cons_self
      have head : s' = s.after (.faPut key) a := head
      rw [head, World.after]
      split <;> rfl

theorem submit_all_or_nothing (ran : Runs anyCall (submitArticles json req) w log (.ok res) w') :
    (res.status ≠ .status200 → w' = w) ∧
      (res.status = .status200 → { w with fa := w'.fa } = w') := by
  obtain ⟨finished, replays⟩ := ran
  obtain ⟨shutdown, rest, rfl, cases⟩ := Articles.finishes_submitArticles finished
  obtain ⟨read, unchanged, replaysRest⟩ := (Program.replays_cons_iff _).1 replays
  obtain rfl : read = w := unchanged
  rcases cases with ⟨rfl, declined⟩ | ⟨feed, contents, puts, -, -, rfl, same⟩
  · refine ⟨fun _ => (Program.replays_nil_iff _).1 replaysRest, ?_⟩
    intro ok
    exact absurd ok (declined res rfl)
  · cases same
    refine ⟨fun failed => absurd (respondJson_status _ _ _) failed, fun _ => ?_⟩
    refine only_fa_of_faPuts (fun e member => ?_) replaysRest
    obtain ⟨j, article, s, -, -, rfl⟩ := Articles.mem_putEvents.1 member
    exact ⟨article.bytes, rfl⟩

/-- **A failed request changes nothing.** For any request, databases and answers: a handler
that writes and does not answer 200 leaves both databases as they were; one for a user
that answers 200 made a single successful `Put`, of the text in its body; and a
submission answered 200 changes articles only. -/
theorem all_or_nothing {route : Route} (writes : Writes route)
    (ran : Runs anyCall (handle json route req) w log (.ok res) w') :
    (res.status ≠ .status200 → w'.uf = w.uf ∧ w'.fa = w.fa) ∧
      (route ≠ .submit → res.status = .status200 → OnePut log res) ∧
      (route = .submit → res.status = .status200 → { w with fa := w'.fa } = w') := by
  have update (u : Update) (ranUpdate : Runs anyCall (u.handler json req) w log (.ok res) w') :
      (res.status ≠ .status200 → w'.uf = w.uf ∧ w'.fa = w.fa) ∧
        (res.status = .status200 → OnePut log res) := by
    obtain ⟨failed, succeeded⟩ := update_all_or_nothing u ranUpdate
    exact ⟨fun not200 => by rw [failed not200]; exact ⟨rfl, rfl⟩, succeeded⟩
  rcases writes with rfl | rfl | rfl
  · obtain ⟨failed, succeeded⟩ := update .subscribe ran
    exact ⟨failed, fun _ => succeeded, nofun⟩
  · obtain ⟨failed, succeeded⟩ := update .unsubscribe ran
    exact ⟨failed, fun _ => succeeded, nofun⟩
  · obtain ⟨failed, succeeded⟩ := submit_all_or_nothing ran
    exact ⟨fun not200 => by rw [failed not200]; exact ⟨rfl, rfl⟩, fun other => absurd rfl other,
      fun _ => succeeded⟩

theorem all_or_nothing_plainSubscribe : ∃ log res w', res.status = .status200 ∧
    Runs anyCall (handle Json.reader .subscribe plainSubscribe.2) .empty log (.ok res) w' ∧
      OnePut log res := by
  have answered : (Program.exec succeed (handle Json.reader .subscribe plainSubscribe.2) .empty).1 =
      .ok (putResponse plainSubscribe.2 ⟨lit "u", [lit "a", lit "b"]⟩ .ok) := by decide +kernel
  obtain ⟨log, ran⟩ := Program.exec_runs succeed any_succeed
    (handle Json.reader .subscribe plainSubscribe.2) .empty
  rw [answered] at ran
  exact ⟨log, _, _, rfl, ran, (all_or_nothing (.inl rfl) ran).2.1 nofun rfl⟩

end Feedserver.Serving
