/-
# Records.Blocks — an update with its record's pair in a block

Everywhere else in `Records` a pair is a list. Here the handler of an update faults where its edit
leaves the block of the pair that has been read back: memory is touched there that is not the
vector's. All else it does as before (`cut_body`).

* `Leaves`, `leaves_iff`: where that happens, in terms of the lists.
* `fault_of_after`: a fault comes from the payload or from the edit.
-/
import Feedserver.Buffer.FullBlock
import Feedserver.Records.Stored

namespace Feedserver.Records

open Feedserver.Theory
open Feedserver.Source

set_option autoImplicit false

namespace Update

section Handler

variable (json : Json.Parser) (update : Update)

/-- The edit, as a call on the block. -/
def op : Update → CString → Buffer.FeedOp
  | .subscribe => .add
  | .unsubscribe => .delete

/-- The record is read back feed by feed, and its edit leaves the block. -/
def leaves (ufReq : UfPair) : Status × Bytes → Bool
  | (.ok, dbVal) =>
      match ufPairFromDbvalue json dbVal with
      | .ok (some ufDb) => Buffer.leavesBlock (Buffer.onRecord ufDb (ufReq.feeds.map update.op))
      | _ => false
  | _ => false

def decideOnBlock (ufReq : UfPair) (answer : Status × Bytes) : Decision :=
  if update.leaves json ufReq answer then .fault .outOfBounds else update.decide json ufReq answer

def bodyOnBlock (req : HttpRequest) : Handler HttpResponse :=
  match accept json req with
  | .error decision => decision.perform req
  | .ok ufReq => .call (S := calls) (.ufGet ufReq.user.bytes) fun answer =>
      (update.decideOnBlock json ufReq answer).perform req

/-- The handler of an update that faults where it leaves a block. -/
def handlerOnBlock (req : HttpRequest) : Handler HttpResponse :=
  shutdownCheck req (update.bodyOnBlock json req)

end Handler

/-! ## What is the same -/

section Same

variable {json : Json.Parser} {update : Update} {req : HttpRequest} {ufReq : UfPair}
  {answer : Status × Bytes}

theorem decideOnBlock_of_leaves (leaves : update.leaves json ufReq answer = true) :
    update.decideOnBlock json ufReq answer = .fault .outOfBounds := if_pos leaves

theorem decideOnBlock_of_not (inside : ¬ update.leaves json ufReq answer = true) :
    update.decideOnBlock json ufReq answer = update.decide json ufReq answer := if_neg inside

/-- Only a fault is decided otherwise. -/
theorem decideOnBlock_put {uf : UfPair}
    (decision : update.decideOnBlock json ufReq answer = .put uf) :
    ¬ update.leaves json ufReq answer = true ∧ update.decide json ufReq answer = .put uf := by
  by_cases leaves : update.leaves json ufReq answer = true
  · rw [decideOnBlock_of_leaves leaves] at decision
    cases decision
  · rw [decideOnBlock_of_not leaves] at decision
    exact ⟨leaves, decision⟩

theorem cut_decision (req : HttpRequest) (answer : Status × Bytes) :
    ((update.decideOnBlock json ufReq answer).perform req).Cuts
      ((update.decide json ufReq answer).perform req) := by
  by_cases leaves : update.leaves json ufReq answer = true
  · rw [decideOnBlock_of_leaves leaves]
    trivial
  · rw [decideOnBlock_of_not leaves]
    exact .refl _

/-- The handler on blocks is the handler, cut short where a block is left. -/
theorem cut_handler (json : Json.Parser) (update : Update) (req : HttpRequest) :
    (update.handlerOnBlock json req).Cuts (update.handler json req) := by
  have body : (update.bodyOnBlock json req).Cuts (update.body json req) := by
    unfold bodyOnBlock Update.body
    cases accept json req with
    | error d => exact .refl _
    | ok ufReq => exact ⟨_, rfl, cut_decision req⟩
  rw [handler_eq]
  refine ⟨_, rfl, fun shutdown => ?_⟩
  cases shutdown with
  | true => exact .refl _
  | false => exact body

end Same

/-! ## Logs -/

section Logs

variable {json : Json.Parser} {update : Update} {req : HttpRequest} {ufReq : UfPair}
  {log : List (Event calls)}

/-- What is left behind the lookup. -/
theorem after_lookup (update : Update) (accepted : accept json req = .ok ufReq)
    (answer : Status × Bytes) :
    Program.After (update.handlerOnBlock json req) [checked false, got ufReq.user answer]
      ((update.decideOnBlock json ufReq answer).perform req) := by
  have asks : update.bodyOnBlock json req = .call (S := calls) (.ufGet ufReq.user.bytes)
      fun answer => (update.decideOnBlock json ufReq answer).perform req := by
    rw [bodyOnBlock, accepted]
  refine .call (S := calls) ?_
  show Program.After (update.bodyOnBlock json req) _ _
  rw [asks]
  exact .call (.start _)

theorem fault_of_perform {d : Decision} {reason : Fault} (faults : .fault reason = d.perform req) :
    d = .fault reason := by
  cases d with
  | put uf =>
      rw [Decision.perform, putUser_eq] at faults
      cases faults
  | refuse code msg => cases faults
  | fault reason' => cases faults; rfl

/-- A fault comes from the payload, or from what has been looked up. -/
theorem fault_of_after {reason : Fault}
    (after : Program.After (update.handlerOnBlock json req) log (.fault reason)) :
    accept json req = .error (.fault reason) ∨
      ∃ ufReq answer, accept json req = .ok ufReq ∧ log = [checked false, got ufReq.user answer] ∧
        update.decideOnBlock json ufReq answer = .fault reason := by
  rcases Program.after_call_iff.1 after with ⟨-, impossible⟩ | ⟨shutdown, rest, rfl, entered⟩
  · cases impossible
  · cases shutdown with
    | true =>
        obtain ⟨-, impossible⟩ := Program.after_done_iff.1 entered
        cases impossible
    | false =>
        change Program.After (update.bodyOnBlock json req) rest (.fault reason) at entered
        unfold bodyOnBlock at entered
        cases accepted : accept json req with
        | error d =>
            rw [accepted] at entered
            rcases after_perform entered with ⟨-, faults⟩ | ⟨_, _, -, -, impossible⟩
            · rw [fault_of_perform faults]
              exact .inl rfl
            · cases impossible
        | ok ufReq =>
            rw [accepted] at entered
            rcases Program.after_call_iff.1 entered with
              ⟨-, impossible⟩ | ⟨answer, rest, rfl, asked⟩
            · cases impossible
            · rcases after_perform asked with ⟨rfl, faults⟩ | ⟨_, _, -, -, impossible⟩
              · exact .inr ⟨ufReq, answer, rfl, rfl, fault_of_perform faults⟩
              · cases impossible

end Logs

/-! ## Where a block is left -/

/-- A feed is deleted from a record that fills its block. -/
structure Overreads (update : Update) (ufReq ufDb : UfPair) : Prop where
  deletes : update = .unsubscribe
  full : Buffer.Full ufDb.feeds.length
  present : ∃ f ∈ ufReq.feeds, f ∈ ufDb.feeds

theorem leaves_iff {json : Json.Parser} {update : Update} {ufReq ufDb : UfPair} {dbVal : Bytes}
    (unique : ufDb.feeds.Nodup) (read : ufPairFromDbvalue json dbVal = .ok (some ufDb)) :
    update.leaves json ufReq (.ok, dbVal) = true ↔ update.Overreads ufReq ufDb := by
  simp only [leaves, read]
  cases update with
  | subscribe =>
      refine iff_of_false ?_ fun overreads => by cases overreads.deletes
      simp [op, Buffer.leaves_adds]
  | unsubscribe =>
      refine (Buffer.leaves_deletes_iff unique ufReq.feeds).trans ⟨?_, ?_⟩
      · rintro ⟨full, present⟩
        exact ⟨rfl, full, present⟩
      · rintro ⟨-, full, present⟩
        exact ⟨full, present⟩

end Update

end Feedserver.Records
