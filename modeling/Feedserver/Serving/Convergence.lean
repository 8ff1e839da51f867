/-
# Serving.Convergence — what the order of requests leaves no trace of

The abstract service first: of the commands on records only those of one user matter for that
user, and submissions may come in any order (`subscriptions_eq`, `articles_eq`). So two runs of
the same commands and listings, with no shutdown and no failing database call, leave the same
databases when each user's updates come to their ends in the same order in both, whatever else
differs between them (`databases_converge`).
-/
import Feedserver.Serving.Service

namespace Feedserver.Serving

open Feedserver.Theory
open Feedserver.Source
open Feedserver.Records
open Feedserver.Articles
open Pool (History EndsBefore Serialized)

set_option autoImplicit false

/-! ## The service -/

section Commands

variable {U F C : Type} [DecidableEq U] [DecidableEq F]

/-- The command can change what the user follows. -/
def Ask.updates (user : U) : Ask U F C → Bool
  | .record (.subscribe user' _) => user' = user
  | .record (.unsubscribe user' _) => user' = user
  | _ => false

/-- What becomes of one user's feeds. -/
def onUser (user : U) (there : Option (UniqueList F)) : Command U F → Option (UniqueList F)
  | .subscribe user' feeds =>
      if user' = user then
        match there with
        | none => some (UniqueList.empty.addAll feeds)
        | some old => if ∃ f ∈ feeds, f ∉ old.items then some (old.addAll feeds) else some old
      else there
  | .unsubscribe user' feeds =>
      if user' = user then
        match there with
        | none => none
        | some old => if ∃ f ∈ feeds, f ∈ old.items then some (old.removeAll feeds) else some old
      else there
  | .get _ => there

theorem perform_apply (m : Subscriptions U F) (command : Command U F) (user : U) :
    (Subscriptions.perform m command).2 user = onUser user (m user) command := by
  cases command with
  | get other =>
      simp only [Subscriptions.perform]
      split <;> rfl
  | subscribe other feeds =>
      by_cases own : other = user
      · subst own
        cases there : m other with
        | none => simp [Subscriptions.perform, onUser, there, Subscriptions.set]
        | some old =>
            simp only [Subscriptions.perform, onUser, there, if_pos]
            split
            · simp [Subscriptions.set]
            · exact there
      · simp only [Subscriptions.perform, onUser, if_neg own]
        cases m other with
        | none => simp [Subscriptions.set, Function.update_of_ne (Ne.symm own)]
        | some old =>
            dsimp only
            split
            · simp [Subscriptions.set, Function.update_of_ne (Ne.symm own)]
            · rfl
  | unsubscribe other feeds =>
      by_cases own : other = user
      · subst own
        cases there : m other with
        | none => simp [Subscriptions.perform, onUser, there]
        | some old =>
            simp only [Subscriptions.perform, onUser, there, if_pos]
            split
            · simp [Subscriptions.set]
            · exact there
      · simp only [Subscriptions.perform, onUser, if_neg own]
        cases m other with
        | none => rfl
        | some old =>
            dsimp only
            split
            · simp [Subscriptions.set, Function.update_of_ne (Ne.symm own)]
            · rfl

namespace Service

variable {fit : C → Bool} {s : Service U F C} {asks asks' : List (Ask U F C)}

/-- A user's feeds depend on the commands for that user. -/
theorem subscriptions_filter (user : U) : (Machine.final (perform fit) s asks).subscriptions user =
    (Machine.final (perform fit) s (asks.filter (Ask.updates user))).subscriptions user := by
  refine Machine.final_filter (fun s => s.subscriptions user) ?_ ?_ s asks
  · intro s s' ask same
    cases ask with
    | submit feed contents => exact same
    | record command =>
        show (Subscriptions.perform _ command).2 user = (Subscriptions.perform _ command).2 user
        rw [perform_apply, perform_apply, same]
  · intro s ask other
    cases ask with
    | submit feed contents => rfl
    | record command =>
        show (Subscriptions.perform _ command).2 user = _
        rw [perform_apply]
        cases command with
        | get user' => rfl
        | subscribe user' feeds => exact if_neg (of_decide_eq_false other)
        | unsubscribe user' feeds => exact if_neg (of_decide_eq_false other)

theorem subscriptions_eq
    (each : ∀ user, asks.filter (Ask.updates user) = asks'.filter (Ask.updates user)) :
    (Machine.final (perform fit) s asks).subscriptions =
      (Machine.final (perform fit) s asks').subscriptions := by
  funext user
  rw [subscriptions_filter, each user, ← subscriptions_filter]

theorem articles_final (feed : F) (content : C) :
    (Machine.final (perform fit) s asks).articles feed content ↔ s.articles feed content ∨
      ∃ contents, Ask.submit feed contents ∈ asks ∧ content ∈ contents ∧ fit content = true := by
  induction asks generalizing s with
  | nil => simp [Machine.final]
  | cons ask rest ih =>
      refine Iff.trans ih ?_
      cases ask with
      | record command => simp [perform]
      | submit feed' contents' =>
          simp only [perform, List.mem_cons, Ask.submit.injEq]
          grind

/-- The articles depend on the submissions, in whatever order. -/
theorem articles_eq (perm : asks.Perm asks') : (Machine.final (perform fit) s asks).articles =
    (Machine.final (perform fit) s asks').articles := by
  funext feed content
  simp only [articles_final, perm.mem_iff]

end Service

end Commands

/-! ## The server -/

section Runs

variable {json : Json.Parser} {requests : List Request} {w t : World} {pool : Threads} {turns : Turns}

/-- A command on a record has one user and one list of feeds. -/
theorem Issues.unique {request : Request} {command command' : Command CString CString}
    (issues : Issues json request command) (issues' : Issues json request command') :
    command = command' := by
  have names {req : HttpRequest} {user user' : CString} {feeds feeds' : List CString}
      (asks : Asks json req.body user.bytes (feeds.map CString.bytes))
      (asks' : Asks json req.body user'.bytes (feeds'.map CString.bytes)) :
      user = user' ∧ feeds = feeds' := by
    have same := (asked_eq_some_iff.2 asks).symm.trans (asked_eq_some_iff.2 asks')
    obtain ⟨users, lists⟩ := Prod.mk.inj (Option.some.inj same)
    exact ⟨bytes_injective users, List.map_injective_iff.2 bytes_injective lists⟩
  cases issues with
  | subscribe _ asks _ =>
      cases issues' with
      | subscribe _ asks' _ =>
          obtain ⟨rfl, rfl⟩ := names asks asks'
          rfl
  | unsubscribe _ asks _ =>
      cases issues' with
      | unsubscribe _ asks' _ =>
          obtain ⟨rfl, rfl⟩ := names asks asks'
          rfl
  | get _ locates valid =>
      cases issues' with
      | get _ locates' valid' =>
          have route := routeObject_of_locates locates valid.no_space
          rw [routeObject_of_locates locates' valid'.no_space] at route
          exact congrArg _ (Option.some.inj (Except.ok.inj route)).symm

theorem Carries.unique {request : Request} {ask ask' : FeedAsk}
    (carries : Carries json request ask) (carries' : Carries json request ask') : ask = ask' := by
  cases carries with
  | record issues =>
      cases carries' with
      | record issues' => rw [issues.unique issues']
      | submit _ _ => cases issues
  | submit _ submits =>
      cases carries' with
      | record issues' => cases issues'
      | submit _ submits' =>
          obtain ⟨rfl, rfl⟩ := submits.unique submits'
          rfl

/-- The request updates the record of the user. -/
def Updates (json : Json.Parser) (requests : List Request) (user : CString) (i : Nat) : Prop :=
  ∃ request ask, requests[i]? = some request ∧ Carries json request ask ∧
    ask.updates user = true

/-- The command of each request, by its place. -/
def Commands (json : Json.Parser) (requests : List Request) (command : Nat → FeedAsk) : Prop :=
  ∀ i request, requests[i]? = some request → request.1 ≠ .userArticles →
    Carries json request (command i)

theorem exists_commands (carry : AllCarry json requests) :
    ∃ command, Commands json requests command := by
  have each (i : Nat) : ∃ ask : FeedAsk, ∀ request, requests[i]? = some request →
      request.1 ≠ .userArticles → Carries json request ask := by
    by_cases placed : ∃ request, requests[i]? = some request ∧ request.1 ≠ .userArticles
    · obtain ⟨request, requestAt, notListing⟩ := placed
      obtain ⟨ask, carries⟩ := carry request (List.mem_of_getElem? requestAt) notListing
      refine ⟨ask, fun request' requestAt' _ => ?_⟩
      obtain rfl := Option.some.inj (requestAt.symm.trans requestAt')
      exact carries
    · refine ⟨.submit (lit "") [], fun request requestAt notListing => ?_⟩
      exact absurd ⟨request, requestAt, notListing⟩ placed
  exact ⟨fun i => (each i).choose, fun i => (each i).choose_spec⟩

/-- The commands of an order, one after another. -/
theorem commands_of_carried {command : Nat → FeedAsk} (commands : Commands json requests command)
    {order : List (Nat × Except Fault HttpResponse)} {asks : List FeedAsk}
    (carried : List.Forall₂ (fun placed ask => ∃ request, requests[placed.1]? = some request ∧
      Carries json request ask) order asks)
    (placed : ∀ p ∈ order, Placed requests p.1) : asks = (order.map Prod.fst).map command := by
  induction carried with
  | nil => rfl
  | @cons p ask order asks first rest ih =>
      obtain ⟨own, others⟩ := List.forall_mem_cons.1 placed
      obtain ⟨request, requestAt, carries⟩ := first
      obtain ⟨route, req, requestAt', notListing⟩ := own
      obtain rfl := Option.some.inj (requestAt.symm.trans requestAt')
      rw [ih others, carries.unique (commands p.1 _ requestAt notListing)]
      rfl

section Ended

variable (history : History succeeding Undisturbed (serve json requests) .empty turns pool w)
  (ended : ∀ thread ∈ pool, thread.program.ended = true) {i : Nat}

include history ended

theorem exists_outcome (inside : i < requests.length) :
    ∃ outcome log, pool[i]? = some ⟨.ofExcept outcome, log⟩ := by
  have inPool : i < pool.length := by
    rw [history.run.follows.length, handlers, List.length_map]
    exact inside
  obtain ⟨outcome, same⟩ := Program.outcome_of_ended (ended _ (List.getElem_mem inPool))
  refine ⟨outcome, pool[i].log, ?_⟩
  rw [List.getElem?_eq_getElem inPool, ← same]

/-- Once all are over, all have had their turns, -/
theorem exists_turn (inside : i < requests.length) : ∃ e, (i, e) ∈ turns := by
  obtain ⟨outcome, log, found⟩ := exists_outcome history ended inside
  exact history.turned (handlers_begin json requests) found (Pool.ended_ofExcept outcome)

/-- and their places. -/
theorem mem_order_iff {order : List (Nat × Except Fault HttpResponse)}
    (serialized : Serialized succeed (handlers json requests) (Placed requests) turns pool .empty
      order t) : i ∈ order.map Prod.fst ↔ Placed requests i := by
  constructor
  · intro member
    obtain ⟨⟨_, outcome⟩, inside, rfl⟩ := List.mem_map.1 member
    exact ((serialized.ended _ outcome).1 inside).1
  · intro placed
    have ⟨route, req, requestAt, _⟩ := placed
    obtain ⟨outcome, found⟩ :=
      exists_outcome history ended (List.getElem?_eq_some_iff.1 requestAt).1
    exact List.mem_map_of_mem ((serialized.ended i outcome).2 ⟨placed, found⟩)

end Ended

/-- What a history has left, in terms of the service. -/
theorem exists_order (carry : AllCarry json requests)
    (history : History succeeding Undisturbed (serve json requests) .empty turns pool w)
    (ended : ∀ thread ∈ pool, thread.program.ended = true) {command : Nat → FeedAsk}
    (commands : Commands json requests command) :
    ∃ order : List Nat, order.Nodup ∧ (∀ i, i ∈ order ↔ Placed requests i) ∧
      order.Pairwise (EndsBefore turns) ∧
        Holds w (serviceAfter (order.map command)).subscriptions ∧
          HoldsArticles w (serviceAfter (order.map command)).articles := by
  obtain ⟨order, t, serialized, joint⟩ := serialized_joint carry.stays history
  have placed : ∀ p ∈ order, Placed requests p.1 := fun p member =>
    ((serialized.ended p.1 p.2).1 member).1
  obtain ⟨asks, answered, bound⟩ := serial_answered carry serialized.serial placed
  obtain rfl := commands_of_carried commands answered.carried placed
  have members (i : Nat) : i ∈ order.map Prod.fst ↔ Placed requests i :=
    mem_order_iff history ended serialized
  have turned : ∀ i ∈ order.map Prod.fst, ∃ e, (i, e) ∈ turns := by
    intro i member
    obtain ⟨route, req, requestAt, -⟩ := (members i).1 member
    exact exists_turn history ended (List.getElem?_eq_some_iff.1 requestAt).1
  refine ⟨order.map Prod.fst, serialized.nodup, members,
    serialized.inOrder.pairwise serialized.nodup turned, ?_, ?_⟩
  · intro key value
    rw [← joint.uf]
    exact bound.tied.holds key value
  · intro key
    rw [← joint.fa_of_ended ended]
    exact bound.articles key

/-- **Which order of requests matters.** Let every request be a listing or carry a command: be
well formed, with valid names, and no shutdown. Two runs of the same such requests from the empty
databases, in both of which every database call succeeds, every record is put over the one that
was read and all requests come to their ends, leave the same databases if, of two updates of one
user's record, always the same comes to its end first. -/
theorem databases_converge {turns' : Turns} {pool' : Threads} {w' : World}
    (carry : AllCarry json requests)
    (history : History succeeding Undisturbed (serve json requests) .empty turns pool w)
    (history' : History succeeding Undisturbed (serve json requests) .empty turns' pool' w')
    (ended : ∀ thread ∈ pool, thread.program.ended = true)
    (ended' : ∀ thread ∈ pool', thread.program.ended = true)
    (sameOrder : ∀ user i j, Updates json requests user i → Updates json requests user j →
      EndsBefore turns i j → EndsBefore turns' i j) : w.uf = w'.uf ∧ w.fa = w'.fa := by
  obtain ⟨command, commands⟩ := exists_commands carry
  obtain ⟨order, nodup, members, sorted, holds, articles⟩ :=
    exists_order carry history ended commands
  obtain ⟨order', nodup', members', sorted', holds', articles'⟩ :=
    exists_order carry history' ended' commands
  have perm : order.Perm order' :=
    (List.perm_ext_iff_of_nodup nodup nodup').2 fun i => (members i).trans (members' i).symm
  have updates {user : CString} {i : Nat} (member : i ∈ order)
      (named : (command i).updates user = true) : Updates json requests user i := by
    obtain ⟨route, req, requestAt, notListing⟩ := (members i).1 member
    exact ⟨_, _, requestAt, commands i _ requestAt notListing, named⟩
  -- of one user's updates, both orders are that of their ends in the second run
  have each (user : CString) : (order.map command).filter (Ask.updates user) =
      (order'.map command).filter (Ask.updates user) := by
    rw [List.filter_map, List.filter_map]
    have first : (order.filter (Ask.updates user ∘ command)).Pairwise (EndsBefore turns') := by
      refine (sorted.filter _).imp_of_mem fun {i j} member member' comes => ?_
      obtain ⟨inside, named⟩ := List.mem_filter.1 member
      obtain ⟨inside', named'⟩ := List.mem_filter.1 member'
      exact sameOrder user i j (updates inside named) (updates inside' named') comes
    refine congrArg _ (List.Perm.eq_of_pairwise ?_ first (sorted'.filter _) (perm.filter _))
    exact fun i j _ _ less more => absurd more less.asymm
  constructor
  · have same : (serviceAfter (order.map command)).subscriptions =
        (serviceAfter (order'.map command)).subscriptions := Service.subscriptions_eq each
    funext key
    refine Option.ext fun value => (holds key value).trans ?_
    rw [same]
    exact (holds' key value).symm
  · have same : (serviceAfter (order.map command)).articles =
        (serviceAfter (order'.map command)).articles := Service.articles_eq (perm.map command)
    refine OrderedKeys.eq_of_mem_iff fun key => (articles key).trans ?_
    rw [same]
    exact (articles' key).symm

end Runs

/-! ## Requests one after the other -/

/-- A request that is over before another begins comes to its end first. -/
theorem Before.endsBefore {turns : Turns} {i j : Nat} (comes : Before turns i j)
    (turn : ∃ e, (j, e) ∈ turns) : EndsBefore turns i j := by
  obtain ⟨later, before, rfl, past, fresh⟩ := comes
  obtain ⟨e, member⟩ := turn
  refine ⟨later, before, rfl, past, e, ?_⟩
  exact (List.mem_append.1 member).resolve_right (fresh e)

/-- A submission, and two subscriptions of one user. -/
def submissionAndSubscribes : List Request :=
  [plainSubmission, (.subscribe, putJson "\x7b\"user\":\"u\",\"feeds\":\"a\"\x7d"),
    (.subscribe, putJson "\x7b\"user\":\"u\",\"feeds\":\"b\"\x7d")]

theorem updates_submissionAndSubscribes {user : CString} {i : Nat}
    (updates : Updates Json.reader submissionAndSubscribes user i) : i = 1 ∨ i = 2 := by
  obtain ⟨request, ask, requestAt, carries, named⟩ := updates
  rcases i with _ | _ | _ | i
  · obtain rfl : plainSubmission = request := Option.some.inj requestAt
    rw [carries.unique carries_plainSubmission] at named
    cases named
  · exact .inl rfl
  · exact .inr rfl
  · cases requestAt

def playedInTurn (schedule : List Nat) : Threads × World :=
  Pool.play Undisturbed succeed schedule (serve Json.reader submissionAndSubscribes, .empty)

/-- A schedule that gives the second subscription no turn before the last one of the first. -/
theorem history_in_turn {schedule later before : List Nat}
    (ended : (playedInTurn schedule).1.all (fun thread => thread.program.ended) = true)
    (split : schedule.reverse = later ++ before) (past : 1 ∉ later) (fresh : 2 ∉ before) :
    ∃ turns, History succeeding Undisturbed (serve Json.reader submissionAndSubscribes) .empty turns
      (playedInTurn schedule).1 (playedInTurn schedule).2 ∧ EndsBefore turns 1 2 := by
  obtain ⟨turns, history, sublist⟩ := Pool.history_play (S := calls) Undisturbed succeed
    succeeding_succeed (serve Json.reader submissionAndSubscribes) .empty schedule
  have second : 2 < submissionAndSubscribes.length := by decide
  have turn := exists_turn history (List.all_eq_true.1 ended) second
  exact ⟨turns, history, (before_of_sublist (split ▸ sublist) past fresh).endsBefore turn⟩

/-- The submission runs beside both subscriptions, or before them. -/
theorem databases_converge_two : ∃ (turns turns' : Turns) (pool pool' : Threads) (w w' : World),
    History succeeding Undisturbed (serve Json.reader submissionAndSubscribes) .empty turns pool w ∧
      History succeeding Undisturbed (serve Json.reader submissionAndSubscribes) .empty turns' pool'
        w' ∧
      w.uf (ascii "u") = some (dbText ⟨lit "u", [lit "a", lit "b"]⟩) ∧ w.uf = w'.uf ∧
        w.fa = w'.fa := by
  have ended : (playedInTurn [1, 0, 1, 1, 2, 0, 2, 2]).1.all
      (fun thread => thread.program.ended) = true := by decide +kernel
  have ended' : (playedInTurn [0, 0, 1, 1, 1, 2, 2, 2]).1.all
      (fun thread => thread.program.ended) = true := by decide +kernel
  have split : [1, 0, 1, 1, 2, 0, 2, 2].reverse = [2, 2, 0, 2] ++ [1, 1, 0, 1] := rfl
  have split' : [0, 0, 1, 1, 1, 2, 2, 2].reverse = [2, 2, 2] ++ [1, 1, 1, 0, 0] := rfl
  obtain ⟨turns, history, first⟩ := history_in_turn ended split (by decide) (by decide)
  obtain ⟨turns', history', first'⟩ := history_in_turn ended' split' (by decide) (by decide)
  have carry : AllCarry Json.reader submissionAndSubscribes := by
    intro request member _
    simp only [submissionAndSubscribes, List.mem_cons, List.not_mem_nil, or_false] at member
    rcases member with rfl | rfl | rfl
    · exact ⟨_, carries_plainSubmission⟩
    · exact ⟨.record (.subscribe (lit "u") [lit "a"]),
        .record (.subscribe rfl (asked_eq_some_iff.1 (by decide +kernel)) (by decide))⟩
    · exact ⟨.record (.subscribe (lit "u") [lit "b"]),
        .record (.subscribe rfl (asked_eq_some_iff.1 (by decide +kernel)) (by decide))⟩
  refine ⟨turns, turns', _, _, _, _, history, history', by decide +kernel,
    databases_converge carry history history' (List.all_eq_true.1 ended)
      (List.all_eq_true.1 ended') ?_⟩
  intro user i j updates updates' comes
  rcases updates_submissionAndSubscribes updates with rfl | rfl <;>
    rcases updates_submissionAndSubscribes updates' with rfl | rfl
  · exact absurd comes comes.asymm
  · exact first'
  · exact absurd comes first.asymm
  · exact absurd comes comes.asymm

end Feedserver.Serving
