/-
# Serving.Updates — subscribes and unsubscribes at the same time

An update reads a record, edits its copy and writes it back; in between the record may have
been written by another. `Undisturbed` is the condition under which that does no harm: when
a thread puts a record, the store still holds what its `Get` was answered.

`updates_linear`: while every `Put` meets it, the store is at all times what the requests
answered 200 make of the first store when they are served one after the other, in the order
of their `Put`s. `lost_update` is a run of two requests in which a `Put` does not.
-/
import Feedserver.Serving.Sequential

namespace Feedserver.Serving

open Feedserver.Theory
open Feedserver.Source
open Feedserver.Records
open Pool (Run)
open Program (exec)

set_option autoImplicit false

abbrev UpdateRequest := Update × HttpRequest

/-- The updates as requests to the server. -/
def requestsOf (updates : List UpdateRequest) : List Request :=
  updates.map fun u => (u.1.route, u.2)

/-- The status of a response, once there is one. -/
def statusOf : Handler HttpResponse → Option HttpStatus
  | .done res => some res.status
  | _ => none

/-- The client of the thread at this index has been answered 200. -/
def Acknowledged (pool : Threads) (i : Nat) : Prop :=
  (pool[i]?.bind fun thread => statusOf thread.program) = some .status200

instance (pool : Threads) (i : Nat) : Decidable (Acknowledged pool i) :=
  inferInstanceAs (Decidable (_ = _))

theorem acknowledged_iff {pool : Threads} {i : Nat} :
    Acknowledged pool i ↔
      ∃ res log, pool[i]? = some ⟨.done res, log⟩ ∧ res.status = .status200 := by
  unfold Acknowledged
  constructor
  · intro acknowledged
    obtain ⟨⟨program, log⟩, found, status⟩ := Option.bind_eq_some_iff.1 acknowledged
    cases program with
    | done res => exact ⟨res, log, found, Option.some.inj status⟩
    | fault reason => cases status
    | call c next => cases status
  · rintro ⟨res, log, found, status⟩
    rw [found]
    exact congrArg some status

/-- Serve one request alone. -/
def serveOne (json : Json.Parser) (updates : List UpdateRequest) (w : World) (i : Nat) : World :=
  match updates[i]? with
  | some (update, req) => (exec succeed (update.handler json req) w).2
  | none => w

/-- The user database is what the acknowledged requests make of the first one, served one
after the other in some order. -/
def Linearizable (json : Json.Parser) (updates : List UpdateRequest) (w₀ : World) (pool : Threads)
    (w : World) : Prop :=
  ∃ order : List Nat, order.Nodup ∧ (∀ i, i ∈ order ↔ Acknowledged pool i) ∧
    w.uf = (order.foldl (serveOne json updates) w₀).uf

/-- A lookup would be answered again as it was. -/
def stillHolds (w : World) : Event calls → Bool
  | ⟨.ufGet key, (.ok, value)⟩ => w.uf key = some value
  | ⟨.ufGet key, (.notFound _, _)⟩ => w.uf key = none
  | _ => true

def undisturbed (pool : Threads) (w : World) (i : Nat) : Call → Bool
  | .ufPut _ _ => pool[i]?.all fun thread => thread.log.all (stillHolds w)
  | _ => true

/-- A record is put only over the record that was read. -/
def Undisturbed : Pool.Guard calls Fault HttpResponse World :=
  fun pool w i c => undisturbed pool w i c = true

instance (pool : Threads) (w : World) (i : Nat) (c : Call) : Decidable (Undisturbed pool w i c) :=
  inferInstanceAs (Decidable (_ = true))

section Runs

variable {json : Json.Parser} {updates : List UpdateRequest} {w₀ w : World} {pool : Threads}
  {guard : Pool.Guard calls Fault HttpResponse World}

theorem update_of_requestsOf {i : Nat} {route : Route} {req : HttpRequest}
    (requestAt : (requestsOf updates)[i]? = some (route, req)) :
    ∃ update : Update, route = update.route ∧ updates[i]? = some (update, req) := by
  simp only [requestsOf, List.getElem?_map, Option.map_eq_some_iff] at requestAt
  obtain ⟨⟨update, req'⟩, updateAt, same⟩ := requestAt
  cases same
  exact ⟨update, rfl, updateAt⟩

theorem route_injective {u v : Update} (same : u.route = v.route) : u = v := by
  cases u <;> cases v <;> first | rfl | cases same

/-- Updates leave the flag alone, so all of them have read what it was at first. -/
theorem run_flag (run : Run honestCall guard (serve json (requestsOf updates)) w₀ pool w) :
    w.feederShutdown = w₀.feederShutdown ∧
      ∀ thread ∈ pool, ∀ e ∈ thread.log, ∀ shutdown, e = checked shutdown →
        shutdown = w₀.feederShutdown := by
  refine run.logged (J := fun w => w.feederShutdown = w₀.feederShutdown)
    (P := fun e => ∀ shutdown, e = checked shutdown → shutdown = w₀.feederShutdown) rfl ?_ ?_
  · intro pool w w' i c next log answer _ same before turn _ made
    obtain ⟨honest, rfl⟩ := made
    obtain ⟨route, req, requestAt, -, makes⟩ := turn_makes before turn
    obtain ⟨update, rfl, -⟩ := update_of_requestsOf requestAt
    cases c with
    | feederShutdown =>
        refine ⟨same, ?_⟩
        intro shutdown event
        cases event
        exact Eq.trans honest same
    | ufGet key => exact ⟨same, nofun⟩
    | ufPut key value =>
        refine ⟨?_, nofun⟩
        simp only [World.after]
        split <;> exact same
    | _ => cases update <;> exact makes.elim
  · exact fun thread member => log_of_serve member

/-- An acknowledged thread made a successful `Put` last. -/
theorem last_of_acknowledged
    (run : Run honestCall guard (serve json (requestsOf updates)) w₀ pool w) {i : Nat}
    {res : HttpResponse} {log : List (Event calls)} (found : pool[i]? = some ⟨.done res, log⟩)
    (succeeded : res.status = .status200) : ∃ uf, log.getLast? = some (stored uf .ok) := by
  obtain ⟨route, req, requestAt, after⟩ := thread_of_run run found
  obtain ⟨update, rfl, -⟩ := update_of_requestsOf requestAt
  obtain ⟨_, _, uf, -, -, rfl, -⟩ := (stage_of_after after).succeeded succeeded
  exact ⟨uf, rfl⟩

/-- What a lookup was answered decides as the store does, if it still holds. -/
theorem decide_stillHolds {update : Update} {ufReq uf : UfPair} {answer : Status × Bytes}
    (holds : stillHolds w (got ufReq.user answer) = true)
    (decision : update.decide json ufReq answer = .put uf) :
    update.decide json ufReq (lookup w ufReq.user) = .put uf := by
  obtain ⟨_ | text | text, value⟩ := answer
  · rw [lookup_some (by simpa [stillHolds, got] using holds)]
    exact decision
  · rw [lookup_none (by simpa [stillHolds, got] using holds),
      decide_notFound update ufReq notFoundText text [] value]
    exact decision
  · cases decision

/-- The other threads are acknowledged as before. -/
theorem acknowledged_set {i j : Nat} {thread : Thread calls Fault HttpResponse} (ne : j ≠ i) :
    Acknowledged (pool.set i thread) j ↔ Acknowledged pool j := by
  simp only [Acknowledged, List.getElem?_set_ne (Ne.symm ne)]

theorem not_acknowledged_of_turn {i : Nat} {c : Call} {next : calls.Answer c → Handler HttpResponse}
    {log : List (Event calls)} (turn : pool[i]? = some ⟨.call c next, log⟩) :
    ¬ Acknowledged pool i := by
  intro acknowledged
  obtain ⟨res, log', found, -⟩ := acknowledged_iff.1 acknowledged
  cases turn.symm.trans found

/-- A request served alone in a world like the one it was decided in stores the same. -/
theorem serveOne_put {i : Nat} {update : Update} {req : HttpRequest} {ufReq uf : UfPair}
    {answer : Status × Bytes} (updateAt : updates[i]? = some (update, req))
    (up : w.feederShutdown = false) (accepted : accept json req = .ok ufReq)
    (holds : stillHolds w (got ufReq.user answer) = true)
    (decision : update.decide json ufReq answer = .put uf) :
    serveOne json updates w i = World.store w uf := by
  have decided : decideIn json update req w = .put uf := by
    simp only [decideIn, accepted]
    exact decide_stillHolds holds decision
  simp only [serveOne, updateAt]
  rw [exec_handler json update req up, decided]
  rfl

theorem serveOne_flag (w : World) (i : Nat) :
    (serveOne json updates w i).feederShutdown = w.feederShutdown := by
  unfold serveOne
  split
  · rename_i update req _
    cases up : w.feederShutdown with
    | true =>
        have stopped : exec succeed (update.handler json req) w =
            exec succeed (if w.feederShutdown then
              .done (decline .status503 (lit "Shutting down!") req)
              else update.body json req) w := by
          rw [update.handler_eq]
          rfl
        rw [stopped, up]
        exact up
    | false =>
        rw [exec_handler json update req up]
        unfold settle
        split <;> exact up
  · rfl

theorem foldl_flag (order : List Nat) (w : World) :
    (order.foldl (serveOne json updates) w).feederShutdown = w.feederShutdown := by
  induction order generalizing w with
  | nil => rfl
  | cons i rest ih => rw [List.foldl_cons, ih, serveOne_flag]

theorem stillHolds_congr {w' : World} (same : w'.uf = w.uf) (e : Event calls) :
    stillHolds w' e = stillHolds w e := by
  unfold stillHolds
  rw [same]

/-- Only a `Put` that succeeds changes the user database. -/
theorem uf_after {c : Call} {answer : calls.Answer c}
    (quiet : ∀ key value, (⟨c, answer⟩ : Event calls) ≠ ⟨.ufPut key value, Status.ok⟩) :
    (w.after c answer).uf = w.uf := by
  cases c with
  | ufPut key value =>
      rcases answer with _ | text | text
      · exact absurd rfl (quiet key value)
      · rfl
      · rfl
  | faPut key => simp only [World.after]; split <;> rfl
  | _ => rfl

/-- A turn acknowledges its request when it is a `Put` that succeeds. -/
theorem acknowledged_turn_iff {w' : World} {i : Nat} {c : Call}
    {next : calls.Answer c → Handler HttpResponse} {log : List (Event calls)}
    {answer : calls.Answer c}
    (before : Run honestCall guard (serve json (requestsOf updates)) w₀ pool w)
    (turn : pool[i]? = some ⟨.call c next, log⟩) (guarded : guard pool w i c)
    (made : honestCall c w answer w') :
    Acknowledged (pool.set i ⟨next answer, log ++ [⟨c, answer⟩]⟩) i ↔
      ∃ key value, (⟨c, answer⟩ : Event calls) = ⟨.ufPut key value, Status.ok⟩ := by
  have inside := (List.getElem?_eq_some_iff.1 turn).1
  constructor
  · intro acknowledged
    obtain ⟨res, log', found, succeeded⟩ := acknowledged_iff.1 acknowledged
    obtain ⟨uf, last⟩ := last_of_acknowledged (.step before turn guarded made) found succeeded
    have stepped := List.getElem?_set_self inside ▸ found
    have logged : log ++ [⟨c, answer⟩] = log' := congrArg Thread.log (Option.some.inj stepped)
    rw [← logged, List.getLast?_concat] at last
    exact ⟨_, _, Option.some.inj last⟩
  · rintro ⟨key, value, event⟩
    cases event
    obtain ⟨request, -, ⟨put⟩⟩ := put_turn before turn
    have ends : next Status.ok = .done (putResponse request.2 put.uf .ok) :=
      congrFun put.next_eq _
    apply acknowledged_iff.2
    refine ⟨putResponse request.2 put.uf .ok, log ++ [⟨.ufPut key value, Status.ok⟩], ?_,
      putResponse_status_iff.2 rfl⟩
    rw [List.getElem?_set_self inside, ends]

/-- A thread's turn puts its request last in the order, if it acknowledges it. -/
theorem linear_put {i : Nat} {key value : Bytes} {next : Status → Handler HttpResponse}
    {log : List (Event calls)}
    (before : Run honestCall Undisturbed (serve json (requestsOf updates)) w₀ pool w)
    (turn : pool[i]? = some ⟨.call (S := calls) (.ufPut key value) next, log⟩)
    (guarded : Undisturbed pool w i (.ufPut key value)) {order : List Nat}
    (same : w.uf = (order.foldl (serveOne json updates) w₀).uf) :
    (w.after (.ufPut key value) Status.ok).uf =
      (serveOne json updates (order.foldl (serveOne json updates) w₀) i).uf := by
  obtain ⟨request, requestAt, ⟨put⟩⟩ := put_turn before turn
  obtain ⟨update, route, updateAt⟩ := update_of_requestsOf requestAt
  obtain rfl : update = put.update := route_injective (route.symm.trans put.route)
  have read : checked false ∈ log := by simp [put.log_eq]
  have up : w₀.feederShutdown = false :=
    ((run_flag before).2 _ (List.mem_of_getElem? turn) _ read false rfl).symm
  have holds : stillHolds w (got put.ufReq.user put.answer) = true := by
    have all : log.all (stillHolds w) = true := by
      simpa [Undisturbed, undisturbed, turn] using guarded
    exact List.all_eq_true.1 all _ (by simp [put.log_eq])
  rw [serveOne_put updateAt (by rw [foldl_flag, up]) put.accepted
    (by rw [stillHolds_congr same.symm]; exact holds) put.decision]
  simp [World.after, World.store, Status.isOk, put.key_eq, put.value_eq, same]

/-- **No update is lost** while every record is put over the one that was read: in every state
of every run, for any number of updates and any order of their turns. -/
theorem updates_linear
    (run : Run honestCall Undisturbed (serve json (requestsOf updates)) w₀ pool w) :
    Linearizable json updates w₀ pool w := by
  induction run with
  | start =>
      refine ⟨[], .nil, fun i => ⟨nofun, ?_⟩, rfl⟩
      intro acknowledged
      obtain ⟨res, log, found, succeeded⟩ := acknowledged_iff.1 acknowledged
      have begun : Run honestCall Pool.anyStep (serve json (requestsOf updates)) w₀
          (serve json (requestsOf updates)) w₀ := .start
      obtain ⟨uf, last⟩ := last_of_acknowledged begun found succeeded
      have fresh : log = [] := log_of_serve (List.mem_of_getElem? found)
      simp [fresh] at last
  | @step pool w w' i c next log answer before turn guarded made ih =>
      obtain ⟨order, nodup, mem, same⟩ := ih
      have acknowledges := acknowledged_turn_iff before turn guarded made
      obtain ⟨-, rfl⟩ := made
      have notBefore : i ∉ order := fun member => not_acknowledged_of_turn turn ((mem i).1 member)
      by_cases acknowledged : Acknowledged (pool.set i ⟨next answer, log ++ [⟨c, answer⟩]⟩) i
      · -- the request is the last one so far
        obtain ⟨key, value, event⟩ := acknowledges.1 acknowledged
        cases event
        refine ⟨order ++ [i], by simpa using List.Nodup.concat notBefore nodup, ?_, ?_⟩
        · intro j
          rw [List.mem_append, List.mem_singleton]
          by_cases own : j = i
          · subst own
            exact ⟨fun _ => acknowledged, fun _ => .inr rfl⟩
          · rw [acknowledged_set own, mem]
            exact or_iff_left own
        · rw [List.foldl_append]
          exact linear_put before turn guarded same
      · refine ⟨order, nodup, ?_, ?_⟩
        · intro j
          by_cases own : j = i
          · subst own
            exact ⟨fun member => absurd member notBefore, fun acked => absurd acked acknowledged⟩
          · rw [acknowledged_set own, mem]
        · rw [uf_after, same]
          intro key value event
          exact acknowledged (acknowledges.2 ⟨key, value, event⟩)

end Runs

/-- Two feeds for one user. -/
def twoSubscribes : List UpdateRequest :=
  [(.subscribe, putJson "\x7b\"user\":\"u\",\"feeds\":\"a\"\x7d"),
    (.subscribe, putJson "\x7b\"user\":\"u\",\"feeds\":\"b\"\x7d")]

theorem updates_linear_in_turn : ∃ (pool : Threads) (w : World),
    Run honestCall Undisturbed (serve Json.reader (requestsOf twoSubscribes)) .empty pool w ∧
      w.uf (ascii "u") = some (dbText ⟨lit "u", [lit "a", lit "b"]⟩) ∧
        Linearizable Json.reader twoSubscribes .empty pool w := by
  have run := Pool.run_play (S := calls) Undisturbed succeed honest_succeed
    (serve Json.reader (requestsOf twoSubscribes)) .empty [0, 1, 0, 0, 1, 1]
  exact ⟨_, _, run, by decide +kernel, updates_linear run⟩

/-- Both read, then both write. -/
def lostUpdate : Threads × World :=
  Pool.play Pool.anyStep succeed [0, 0, 1, 1, 0, 1]
    (serve Json.reader (requestsOf twoSubscribes), World.empty)

theorem lost_update : ¬ ∀ (updates : List UpdateRequest) (w₀ : World) (pool : Threads) (w : World),
    Run honestCall Pool.anyStep (serve Json.reader (requestsOf updates)) w₀ pool w →
      (∀ thread ∈ pool, thread.program.ended = true) →
        Linearizable Json.reader updates w₀ pool w := by
  intro all
  have run : Run honestCall Pool.anyStep (serve Json.reader (requestsOf twoSubscribes)) .empty
      lostUpdate.1 lostUpdate.2 :=
    Pool.run_play (S := calls) Pool.anyStep succeed honest_succeed _ _ _
  obtain ⟨order, nodup, mem, same⟩ := all _ _ _ _ run (by decide +kernel)
  have both : order.Perm [0, 1] := by
    apply (List.perm_ext_iff_of_nodup nodup (by decide)).2
    intro i
    rw [mem]
    rcases i with _ | _ | i
    · exact iff_of_true (by decide +kernel) (by simp)
    · exact iff_of_true (by decide +kernel) (by simp)
    · have outside : lostUpdate.1[i + 2]? = none :=
        List.getElem?_eq_none (by rw [run.follows.length]; simp [handlers, requestsOf, twoSubscribes])
      simp [Acknowledged, outside]
  have final : lostUpdate.2.uf (ascii "u") = some (dbText ⟨lit "u", [lit "b"]⟩) := by
    decide +kernel
  rw [same] at final
  obtain ⟨a, b, rfl⟩ := List.length_eq_two.1 both.length_eq
  have first : a = 0 ∨ a = 1 := by simpa using both.subset (by simp : a ∈ [a, b])
  have second : b = 0 ∨ b = 1 := by simpa using both.subset (by simp : b ∈ [a, b])
  have different : a ≠ b := by simpa using nodup
  rcases first with rfl | rfl
  · obtain rfl : b = 1 := by omega
    revert final
    decide +kernel
  · obtain rfl : b = 0 := by omega
    revert final
    decide +kernel

end Feedserver.Serving
