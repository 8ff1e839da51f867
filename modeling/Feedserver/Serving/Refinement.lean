/-
# Serving.Refinement — one request after another is one command after another

Requests served alone, from an empty user database and with every database call
succeeding, against the commands they issue on `Subscriptions`. `Holds` ties the store to
the map: under each known user lies the text of its pair, and nothing else is stored.

* `subscribe_simulates`, `unsubscribe_simulates`, `get_simulates`: one request does what its
  command does.
* `requests_refine`: after every step of every sequence, the answer is the command's reply
  and the store holds the map.
-/
import Feedserver.Records.Subscriptions
import Feedserver.Serving.Sequential

namespace Feedserver.Serving

open Feedserver.Theory
open Feedserver.Source
open Feedserver.Records
open Program (exec)

set_option autoImplicit false

/-- The server as a machine: a request is served to its end before the next one. -/
def serveNext (json : Json.Parser) : Machine World Request (Except Fault HttpResponse) :=
  fun w request => exec succeed (handle json request.1 request.2) w

/-- The store holds the map. -/
def Holds (w : World) (m : Subscriptions CString CString) : Prop :=
  ∀ key value, w.uf key = some value ↔
    ∃ user feeds, m user = some feeds ∧ key = user.bytes ∧ value = encode (pairOf user feeds)

/-- The request is this command, all its names valid. -/
inductive Issues (json : Json.Parser) : Request → Command CString CString → Prop
  | subscribe {req : HttpRequest} {user : CString} {feeds : List CString} (method : req.method = .put)
      (asks : Asks json req.body user.bytes (feeds.map CString.bytes))
      (valid : ValidName user ∧ ∀ f ∈ feeds, ValidName f) :
      Issues json (.subscribe, req) (.subscribe user feeds)
  | unsubscribe {req : HttpRequest} {user : CString} {feeds : List CString}
      (method : req.method = .put)
      (asks : Asks json req.body user.bytes (feeds.map CString.bytes))
      (valid : ValidName user ∧ ∀ f ∈ feeds, ValidName f) :
      Issues json (.unsubscribe, req) (.unsubscribe user feeds)
  | get {req : HttpRequest} {user : CString} (method : req.method = .get)
      (locates : Locates req user) (valid : ValidName user) :
      Issues json (.user, req) (.get user)

/-- The response says what the reply says. -/
def Says (answer : Except Fault HttpResponse) : Reply CString CString → Prop
  | .stored => ∃ res, answer = .ok res ∧ res.status = .status200
  | .unchanged => ∃ res, answer = .ok res ∧ res.status = .status304
  | .unknown => ∃ res, answer = .ok res ∧ res.status = .status404
  | .found user feeds =>
      ∃ res, answer = .ok res ∧ res.status = .status200 ∧ res.body = encode (pairOf user feeds)

/-- What holds between the server and the map at every step. -/
structure Tied (w : World) (m : Subscriptions CString CString) : Prop where
  up : w.feederShutdown = false
  names : m.Names ValidName ValidName
  holds : Holds w m

section Step

variable {json : Json.Parser} {w : World} {m : Subscriptions CString CString}

theorem Holds.some (holds : Holds w m) {user : CString} {feeds : UniqueList CString}
    (known : m user = some feeds) : w.uf user.bytes = some (dbText (pairOf user feeds)) := by
  rw [← encode_eq]
  exact (holds _ _).2 ⟨user, feeds, known, rfl, rfl⟩

theorem Holds.none (holds : Holds w m) {user : CString} (unknown : m user = none) :
    w.uf user.bytes = none := by
  rw [Option.eq_none_iff_forall_ne_some]
  intro value found
  obtain ⟨user', feeds, known, same, -⟩ := (holds _ _).1 found
  rw [← bytes_injective same, unknown] at known
  cases known

/-- A record that is put is the user's new list. -/
theorem Holds.store (holds : Holds w m) (user : CString) (feeds : UniqueList CString) :
    Holds (World.store w (pairOf user feeds)) (m.set user feeds) := by
  intro key value
  by_cases own : key = user.bytes
  · subst own
    simp only [World.store, pairOf, Function.update_self, Option.some.injEq]
    constructor
    · intro same
      exact ⟨user, feeds, by simp [Subscriptions.set], rfl, by rw [← same, encode_eq]⟩
    · rintro ⟨user', feeds', known, same, rfl⟩
      obtain rfl := bytes_injective same
      obtain rfl : feeds = feeds' := by simpa [Subscriptions.set] using known
      exact (encode_eq _).symm
  · have other : (World.store w (pairOf user feeds)).uf key = w.uf key := by
      simp [World.store, pairOf, own]
    rw [other, holds]
    refine exists_congr fun user' => exists_congr fun feeds' => ?_
    constructor
    · rintro ⟨known, rfl, rfl⟩
      have different : user' ≠ user := fun same => own (by rw [same])
      exact ⟨by simpa [Subscriptions.set, different] using known, rfl, rfl⟩
    · rintro ⟨known, rfl, rfl⟩
      have different : user' ≠ user := fun same => own (by rw [same])
      exact ⟨by simpa [Subscriptions.set, different] using known, rfl, rfl⟩

theorem accept_of_asks {req : HttpRequest} {user : CString} {feeds : List CString}
    (method : req.method = .put)
    (asks : Asks json req.body user.bytes (feeds.map CString.bytes)) :
    accept json req = .ok (pairOf user (UniqueList.empty.addAll feeds)) := by
  have parsed := fromRequest_eq_some_iff.2 ⟨_, _, asks, rfl⟩
  have names : (feeds.map CString.bytes).map cstr = feeds := by
    simp [Function.comp_def]
  rw [requested_eq, cstr_of_bytes, names] at parsed
  have nonempty : ¬ req.body.length ≤ 0 := by
    intro empty
    obtain ⟨⟨members, ji, jf, tree, -⟩⟩ := asks
    obtain ⟨ts, lexed, reads⟩ := (json.parse_eq_some_iff _ _).1 tree
    rw [List.eq_nil_of_length_eq_zero (Nat.le_zero.1 empty)] at lexed
    cases lexed
    cases reads
  unfold accept
  rw [if_neg (by simp [method]), if_neg nonempty, parsed]

/-- The pair an accepted request of these names asks for. -/
abbrev askedPair (user : CString) (feeds : List CString) : UfPair :=
  pairOf user (UniqueList.empty.addAll feeds)

section Update

variable {req : HttpRequest} {user : CString} {feeds : List CString}

theorem decideIn_unknown (update : Update) (holds : Holds w m) (method : req.method = .put)
    (asks : Asks json req.body user.bytes (feeds.map CString.bytes)) (unknown : m user = none) :
    decideIn json update req w =
      update.decide json (askedPair user feeds) (.notFound notFoundText, []) := by
  simp only [decideIn, accept_of_asks method asks]
  exact congrArg _ (lookup_none (holds.none unknown))

theorem decideIn_known (update : Update) (tied : Tied w m) (method : req.method = .put)
    (asks : Asks json req.body user.bytes (feeds.map CString.bytes)) {there : UniqueList CString}
    (known : m user = some there) :
    decideIn json update req w =
      update.decideStored (askedPair user feeds) (pairOf user there) := by
  obtain ⟨isUser, areFeeds⟩ := tied.names user there known
  have read := Stored.read json (fun _ => ValidName.plain) (fun _ => ValidName.plain)
    isUser areFeeds
  simp only [decideIn, accept_of_asks method asks]
  rw [← Update.decide_found update (dbText_ne_nil _) read]
  exact congrArg _ (lookup_some (tied.holds.some known))

/-- A served request that puts what the command sets, or changes nothing as it does. -/
theorem simulated_put (tied : Tied w m) {there : UniqueList CString} :
    Says (settle req w (.put (pairOf user there))).1 .stored ∧
      Holds (settle req w (.put (pairOf user there))).2 (m.set user there) ∧
      (settle req w (.put (pairOf user there))).2.feederShutdown = false :=
  ⟨⟨_, rfl, putResponse_status_iff.2 rfl⟩, tied.holds.store user there, tied.up⟩

theorem subscribe_simulates (tied : Tied w m) (method : req.method = .put)
    (asks : Asks json req.body user.bytes (feeds.map CString.bytes)) :
    Says (serveNext json w (.subscribe, req)).1
        (Subscriptions.perform m (.subscribe user feeds)).1 ∧
      Holds (serveNext json w (.subscribe, req)).2
        (Subscriptions.perform m (.subscribe user feeds)).2 ∧
      (serveNext json w (.subscribe, req)).2.feederShutdown = false := by
  have served : serveNext json w (.subscribe, req) =
      settle req w (decideIn json .subscribe req w) := exec_handler json .subscribe req tied.up
  rw [served]
  cases known : m user with
  | none =>
      rw [decideIn_unknown .subscribe tied.holds method asks known]
      simp only [Subscriptions.perform, known, Update.decide]
      exact simulated_put tied
  | some there =>
      have fresh : (∃ n ∈ (askedPair user feeds).feeds, n ∉ there.items) ↔
          ∃ n ∈ feeds, n ∉ there.items := by
        simp [pairOf, UniqueList.addAll_empty, List.mem_eraseDups]
      have added : there.addAll (askedPair user feeds).feeds = there.addAll feeds := by
        simp only [askedPair, pairOf, UniqueList.addAll_empty, UniqueList.addAll_eraseDups]
      rw [decideIn_known .subscribe tied method asks known, Update.decideStored_subscribe, added]
      simp only [Subscriptions.perform, known, fresh]
      split
      · exact simulated_put tied
      · exact ⟨⟨_, rfl, decline_status _ _ _⟩, tied.holds, tied.up⟩

theorem unsubscribe_simulates (tied : Tied w m) (method : req.method = .put)
    (asks : Asks json req.body user.bytes (feeds.map CString.bytes)) :
    Says (serveNext json w (.unsubscribe, req)).1
        (Subscriptions.perform m (.unsubscribe user feeds)).1 ∧
      Holds (serveNext json w (.unsubscribe, req)).2
        (Subscriptions.perform m (.unsubscribe user feeds)).2 ∧
      (serveNext json w (.unsubscribe, req)).2.feederShutdown = false := by
  have served : serveNext json w (.unsubscribe, req) =
      settle req w (decideIn json .unsubscribe req w) := exec_handler json .unsubscribe req tied.up
  rw [served]
  cases known : m user with
  | none =>
      rw [decideIn_unknown .unsubscribe tied.holds method asks known]
      simp only [Subscriptions.perform, known, Update.decide]
      exact ⟨⟨_, rfl, decline_status _ _ _⟩, tied.holds, tied.up⟩
  | some there =>
      have present : (∃ n ∈ (askedPair user feeds).feeds, n ∈ there.items) ↔
          ∃ n ∈ feeds, n ∈ there.items := by
        simp [pairOf, UniqueList.addAll_empty, List.mem_eraseDups]
      have removed : there.removeAll (askedPair user feeds).feeds = there.removeAll feeds := by
        simp only [askedPair, pairOf, UniqueList.addAll_empty, UniqueList.removeAll_eraseDups]
      rw [decideIn_known .unsubscribe tied method asks known, Update.decideStored_unsubscribe,
        removed]
      simp only [Subscriptions.perform, known, present]
      split
      · exact simulated_put tied
      · exact ⟨⟨_, rfl, decline_status _ _ _⟩, tied.holds, tied.up⟩

theorem get_simulates (tied : Tied w m) (method : req.method = .get) (locates : Locates req user)
    (valid : ValidName user) :
    Says (serveNext json w (.user, req)).1 (Subscriptions.perform m (.get user)).1 ∧
      Holds (serveNext json w (.user, req)).2 (Subscriptions.perform m (.get user)).2 ∧
      (serveNext json w (.user, req)).2.feederShutdown = false := by
  cases known : m user with
  | none =>
      have served : serveNext json w (.user, req) =
          (.ok (decline .status404 (lit "User not found!") req), w) :=
        exec_lookup_unknown method locates valid tied.up (tied.holds.none known)
      simp only [Subscriptions.perform, known, served]
      exact ⟨⟨_, rfl, decline_status _ _ _⟩, tied.holds, tied.up⟩
  | some there =>
      let text := dbText (pairOf user there)
      have served : serveNext json w (.user, req) = (.ok (respondJson text text.length req), w) :=
        exec_lookup_found method locates valid tied.up (tied.holds.some known) (dbText_ne_nil _)
      have body : (respondJson text text.length req).body = encode (pairOf user there) := by
        rw [respondJson_body, List.take_length, encode_eq]
      simp only [Subscriptions.perform, known, served]
      exact ⟨⟨_, rfl, respondJson_status _ _ _, body⟩, tied.holds, tied.up⟩

end Update

theorem names_of_issues {request : Request} {command : Command CString CString}
    (issues : Issues json request command) : command.Names ValidName ValidName := by
  cases issues with
  | subscribe _ _ valid => exact valid
  | unsubscribe _ _ valid => exact valid
  | get _ _ valid => exact valid

/-- One request does what its command does. -/
theorem serveNext_simulates (json : Json.Parser) :
    Simulates (serveNext json) Subscriptions.perform Tied (Issues json) Says where
  step := by
    intro w m request command tied issues
    have names := Subscriptions.perform_names tied.names (names_of_issues issues)
    suffices Says (serveNext json w request).1 (Subscriptions.perform m command).1 ∧
        Holds (serveNext json w request).2 (Subscriptions.perform m command).2 ∧
        (serveNext json w request).2.feederShutdown = false from
      ⟨this.1, this.2.2, names, this.2.1⟩
    cases issues with
    | subscribe method asks _ => exact subscribe_simulates tied method asks
    | unsubscribe method asks _ => exact unsubscribe_simulates tied method asks
    | get method locates valid => exact get_simulates tied method locates valid

/-- **The server is a map of subscriptions.** From an empty user database, after every step
of every sequence of requests with valid names, the answer is the reply of the command and
the store holds the map. -/
theorem requests_refine {requests : List Request} {commands : List (Command CString CString)}
    {w₀ : World} (up : w₀.feederShutdown = false) (nothing : ∀ key, w₀.uf key = none)
    (issued : List.Forall₂ (Issues json) requests commands) :
    List.Forall₂ (fun served done => Says served.1 done.1 ∧ Holds served.2 done.2)
      (Machine.trace (serveNext json) w₀ requests)
      (Machine.trace Subscriptions.perform Subscriptions.empty commands) := by
  have start : Tied w₀ Subscriptions.empty :=
    ⟨up, nofun, fun key value => by simp [nothing, Subscriptions.empty]⟩
  exact ((serveNext_simulates json).trace start issued).imp fun _ _ related =>
    ⟨related.1, related.2.holds⟩

end Step

/-- Subscribe, look up, unsubscribe one of the two feeds. -/
def threeRequests : List Request :=
  [plainSubscribe, (.user, getPath "/user/" "u"),
    (.unsubscribe, putJson "\x7b\"user\":\"u\",\"feeds\":\"a\"\x7d")]

def threeCommands : List (Command CString CString) :=
  [.subscribe (lit "u") [lit "a", lit "b"], .get (lit "u"), .unsubscribe (lit "u") [lit "a"]]

theorem requests_refine_three : List.Forall₂ (Issues Json.reader) threeRequests threeCommands ∧
    List.Forall₂ (fun served done => Says served.1 done.1 ∧ Holds served.2 done.2)
      (Machine.trace (serveNext Json.reader) .empty threeRequests)
      (Machine.trace Subscriptions.perform Subscriptions.empty threeCommands) := by
  have issued : List.Forall₂ (Issues Json.reader) threeRequests threeCommands := by
    refine .cons (.subscribe rfl (asked_eq_some_iff.1 ?_) (by decide)) (.cons (.get rfl ?_ (by decide))
      (.cons (.unsubscribe rfl (asked_eq_some_iff.1 ?_) (by decide)) .nil))
    · decide +kernel
    · exact ⟨by decide, ascii "user", ascii "HTTP/1.1", by decide +kernel, by decide, by decide⟩
    · decide +kernel
  exact ⟨issued, requests_refine rfl (fun _ => rfl) issued⟩

end Feedserver.Serving
