/-
# Serving.Sequential — a request served alone, with every database call succeeding

`Program.exec succeed` runs a handler to its end. For an update the result is read off its
decision on what the store holds (`exec_handler`): a `put` goes through, and anything else
leaves the world as it was. For a lookup of a user by a valid name it is read off what the
store holds under that name (`exec_lookup_unknown`, `exec_lookup_found`).
-/
import Feedserver.Serving.Requests

namespace Feedserver.Serving

open Feedserver.Theory
open Feedserver.Source
open Feedserver.Records
open Program (exec)

set_option autoImplicit false

/-- What `Get` answers for a user. -/
def lookup (w : World) (user : CString) : Status × Bytes := (succeed (.ufGet user.bytes) w).1

theorem lookup_some {w : World} {user : CString} {value : Bytes}
    (found : w.uf user.bytes = some value) : lookup w user = (.ok, value) := by
  simp [lookup, succeed, found]

theorem lookup_none {w : World} {user : CString} (absent : w.uf user.bytes = none) :
    lookup w user = (.notFound notFoundText, []) := by
  simp [lookup, succeed, absent]

/-- The world after a record has been put. -/
def World.store (w : World) (uf : UfPair) : World :=
  { w with uf := Function.update w.uf uf.user.bytes (some (dbText uf)) }

/-- How a request ends in a world, and the world it leaves. -/
def settle (req : HttpRequest) (w : World) : Decision → Except Fault HttpResponse × World
  | .put uf => (.ok (putResponse req uf .ok), World.store w uf)
  | .refuse code msg => (.ok (decline code msg req), w)
  | .fault reason => (.error reason, w)

theorem exec_perform (req : HttpRequest) (d : Decision) (w : World) :
    exec succeed (d.perform req) w = settle req w d := by
  cases d with
  | put uf => rw [Decision.perform, putUser_eq]; rfl
  | refuse code msg => rfl
  | fault reason => rfl

/-- The decision on a request in a world. -/
def decideIn (json : Json.Parser) (update : Update) (req : HttpRequest) (w : World) : Decision :=
  match accept json req with
  | .error d => d
  | .ok ufReq => update.decide json ufReq (lookup w ufReq.user)

theorem exec_handler (json : Json.Parser) (update : Update) (req : HttpRequest) {w : World}
    (up : w.feederShutdown = false) :
    exec succeed (update.handler json req) w = settle req w (decideIn json update req w) := by
  have entered : exec succeed (update.handler json req) w =
      exec succeed (if w.feederShutdown then .done (decline .status503 (lit "Shutting down!") req)
        else update.body json req) w := by
    rw [update.handler_eq]
    rfl
  have kept (key : Bytes) : (succeed (.ufGet key) w).2 = w := by
    simp only [succeed]
    split <;> rfl
  rw [entered, up]
  simp only [Bool.false_eq_true, if_false, Update.body, decideIn]
  cases accept json req with
  | error d => exact exec_perform req d w
  | ok ufReq =>
      show exec succeed ((update.decide json ufReq (lookup w ufReq.user)).perform req)
        (succeed (.ufGet ufReq.user.bytes) w).2 = _
      rw [kept]
      exact exec_perform req _ w

section Lookup

variable {req : HttpRequest} {user : CString} {found : Bytes → Handler HttpResponse} {w : World}

/-- A lookup that gets as far as the store. -/
theorem exec_lookup (get : req.method = .get) (locates : Locates req user) (valid : ValidName user)
    (up : w.feederShutdown = false) :
    exec succeed (lookupUser req found) w = exec succeed
      (match lookup w user with
        | (.notFound _, _) => .done (decline .status404 (lit "User not found!") req)
        | (.error text, _) => .done (decline .status500 text.text req)
        | (.ok, dbVal) =>
            if dbVal.length ≤ 0 then .done (decline .status500 Status.ok.toCStr req)
            else found dbVal) (succeed (.ufGet user.bytes) w).2 := by
  have named : isobjectValid user = true := valid
  have entered : exec succeed (lookupUser req found) w =
      exec succeed (if w.feederShutdown then .done (decline .status503 (lit "Shutting down!") req)
        else ufGet user >>= fun
          | (.notFound _, _) => .done (decline .status404 (lit "User not found!") req)
          | (.error text, _) => .done (decline .status500 text.text req)
          | (.ok, dbVal) =>
              if dbVal.length ≤ 0 then .done (decline .status500 Status.ok.toCStr req)
              else found dbVal) w := by
    simp only [lookupUser, get, routeObject_of_locates locates valid.no_space, named]
    rfl
  rw [entered, up]
  rfl

theorem exec_lookup_unknown (get : req.method = .get) (locates : Locates req user)
    (valid : ValidName user) (up : w.feederShutdown = false) (absent : w.uf user.bytes = none) :
    exec succeed (lookupUser req found) w =
      (.ok (decline .status404 (lit "User not found!") req), w) := by
  rw [exec_lookup get locates valid up, lookup_none absent]
  simp [succeed, absent]

theorem exec_lookup_found (get : req.method = .get) (locates : Locates req user)
    (valid : ValidName user) (up : w.feederShutdown = false) {dbVal : Bytes}
    (stored : w.uf user.bytes = some dbVal) (present : dbVal ≠ []) :
    exec succeed (lookupUser req found) w = exec succeed (found dbVal) w := by
  have nonempty : ¬ dbVal.length ≤ 0 := by simpa using present
  rw [exec_lookup get locates valid up, lookup_some stored]
  simp [succeed, stored, present]

end Lookup

/-- The text and the value that come with `NotFound` decide nothing. -/
theorem decide_notFound {json : Json.Parser} (update : Update) (ufReq : UfPair)
    (text text' : StatusText) (value value' : Bytes) :
    update.decide json ufReq (.notFound text, value) =
      update.decide json ufReq (.notFound text', value') := by
  cases update <;> rfl

end Feedserver.Serving
