/-
# Records.Stored — records that can be read back, and that updates keep so

`Stored U F key value`: the value is the text of a pair without duplicates, its key is its
user's name, its user satisfies `U` and its feeds satisfy `F`. When `U` and `F` only hold
of plain names, such a record is read back as it was (`Stored.read`). When they only hold of
verbatim names, what an update puts is such a record again, provided a subscribe names only
what satisfies them (`Stored.kept`). Nothing is asked of the names in an unsubscribe.
-/
import Feedserver.Records.Reading
import Feedserver.Records.Requests

namespace Feedserver.Records

open Feedserver.Theory
open Feedserver.Source

set_option autoImplicit false

namespace Update

theorem decideStored_subscribe (ufReq : UfPair) (user : CString) (feeds : UniqueList CString) :
    subscribe.decideStored ufReq (pairOf user feeds) =
      if ∃ n ∈ ufReq.feeds, n ∉ feeds.items then .put (pairOf user (feeds.addAll ufReq.feeds))
      else .refuse .status304 (lit "User already subscribed!") := by
  simp [decideStored, edit, editFeeds_add, unchanged]

theorem decideStored_unsubscribe (ufReq : UfPair) (user : CString) (feeds : UniqueList CString) :
    unsubscribe.decideStored ufReq (pairOf user feeds) =
      if ∃ n ∈ ufReq.feeds, n ∈ feeds.items then .put (pairOf user (feeds.removeAll ufReq.feeds))
      else .refuse .status304 (lit "User Not Subscribed!") := by
  simp [decideStored, edit, editFeeds_delete, unchanged]

theorem decide_found {json : Json.Parser} (update : Update) {ufReq uf : UfPair} {dbVal : Bytes}
    (present : dbVal ≠ []) (read : ufPairFromDbvalue json dbVal = .ok (some uf)) :
    update.decide json ufReq (.ok, dbVal) = update.decideStored ufReq uf := by
  have nonempty : ¬ dbVal.length ≤ 0 := by simpa using present
  simp [decide, decideFound, read, present]

/-- What is put has been read from the store or, on a subscribe, comes from the request. -/
theorem put_cases {json : Json.Parser} {update : Update} {ufReq uf : UfPair}
    {answer : Status × Bytes} (decision : update.decide json ufReq answer = .put uf) :
    (update = .subscribe ∧ (∃ text, answer.1 = .notFound text) ∧ uf = ufReq) ∨
      ∃ ufDb, answer.1 = .ok ∧ ufPairFromDbvalue json answer.2 = .ok (some ufDb) ∧
        update.decideStored ufReq ufDb = .put uf := by
  obtain ⟨_ | text | text, value⟩ := answer
  · simp only [decide] at decision
    split at decision
    · cases decision
    · unfold decideFound at decision
      split at decision
      · cases decision
      · cases decision
      · rename_i ufDb read
        exact .inr ⟨ufDb, rfl, read, decision⟩
  · cases update with
    | subscribe => cases decision; exact .inl ⟨rfl, ⟨text, rfl⟩, rfl⟩
    | unsubscribe => cases decision
  · cases decision

/-- Neither edit touches the user. -/
theorem editFeeds_user (update : Update) (names : List CString) (uf : UfPair) (changed : Bool) :
    (editFeeds update.edit names (uf, changed)).1.user = uf.user := by
  induction names generalizing uf changed with
  | nil => rfl
  | cons name rest ih =>
      simp only [editFeeds]
      rw [ih]
      cases update with
      | subscribe =>
          simp only [edit, ufPairAddFeed]
          split <;> rfl
      | unsubscribe =>
          simp only [edit, ufPairDeleteFeed]
          split <;> rfl

theorem user_of_decideStored {update : Update} {ufReq ufDb uf : UfPair}
    (decision : update.decideStored ufReq ufDb = .put uf) : uf.user = ufDb.user := by
  unfold decideStored at decision
  simp only at decision
  split at decision <;> cases decision
  exact editFeeds_user update ufReq.feeds ufDb false

end Update

/-- The record under `key` is the text of a pair of that user. -/
structure Stored (U F : CString → Prop) (key value : Bytes) : Prop where
  intro ::
  pair : ∃ user feeds, key = CString.bytes user ∧ value = dbText (pairOf user feeds) ∧
    U user ∧ ∀ f ∈ feeds.items, F f

section Stored

variable {U F : CString → Prop}

/-- A request whose names are fit to be stored. -/
def Fit (U F : CString → Prop) (ufReq : UfPair) : Prop := U ufReq.user ∧ ∀ f ∈ ufReq.feeds, F f

/-- An edit keeps a fit pair fit, and without duplicates. -/
theorem Fit.edited {update : Update} {ufReq ufDb uf : UfPair} (fit : Fit U F ufDb)
    (unique : ufDb.feeds.Nodup) (new : update = .subscribe → Fit U F ufReq)
    (decision : update.decideStored ufReq ufDb = .put uf) : Fit U F uf ∧ uf.feeds.Nodup := by
  obtain ⟨isUser, areFeeds⟩ := fit
  obtain ⟨feeds, pair⟩ := exists_pairOf unique
  rw [pair] at decision areFeeds
  cases update with
  | subscribe =>
      obtain ⟨-, areNew⟩ := new rfl
      rw [Update.decideStored_subscribe] at decision
      split at decision <;> cases decision
      refine ⟨⟨isUser, fun f member => ?_⟩, (feeds.addAll ufReq.feeds).nodup⟩
      rcases UniqueList.mem_addAll.1 member with old | new
      · exact areFeeds f old
      · exact areNew f new
  | unsubscribe =>
      rw [Update.decideStored_unsubscribe] at decision
      split at decision <;> cases decision
      refine ⟨⟨isUser, fun f member => ?_⟩, (feeds.removeAll ufReq.feeds).nodup⟩
      exact areFeeds f (UniqueList.mem_removeAll.1 member).1

/-- A fit pair without duplicates, as it is stored. -/
theorem Stored.of_fit {uf : UfPair} (fit : Fit U F uf) (unique : uf.feeds.Nodup) :
    Stored U F uf.user.bytes (dbText uf) := by
  obtain ⟨isUser, areFeeds⟩ := fit
  obtain ⟨feeds, pair⟩ := exists_pairOf unique
  rw [pair] at areFeeds ⊢
  exact ⟨uf.user, feeds, rfl, rfl, isUser, areFeeds⟩

theorem Stored.read (json : Json.Parser) (plainU : ∀ n, U n → Json.Plain n.bytes)
    (plainF : ∀ n, F n → Json.Plain n.bytes) {user : CString} {feeds : UniqueList CString}
    (isUser : U user) (areFeeds : ∀ f ∈ feeds.items, F f) :
    ufPairFromDbvalue json (dbText (pairOf user feeds)) = .ok (some (pairOf user feeds)) :=
  fromDbvalue_dbText json (plainU _ isUser) (fun f member => plainF _ (areFeeds f member))
    feeds.nodup

theorem Stored.kept {json : Json.Parser} (verbatimU : ∀ n, U n → Json.Verbatim n.bytes)
    (verbatimF : ∀ n, F n → Json.Verbatim n.bytes) {update : Update} {ufReq uf : UfPair}
    {answer : Status × Bytes} (fit : update = .subscribe → Fit U F ufReq)
    (unique : ufReq.feeds.Nodup)
    (found : ∀ value, answer = (.ok, value) → Stored U F ufReq.user.bytes value)
    (decision : update.decide json ufReq answer = .put uf) :
    Stored U F uf.user.bytes (dbText uf) ∧ uf.user = ufReq.user := by
  rcases Update.put_cases decision with ⟨rfl, -, rfl⟩ | ⟨ufDb, ok, read, decision⟩
  · exact ⟨.of_fit (fit rfl) unique, rfl⟩
  · obtain ⟨status, value⟩ := answer
    obtain rfl : status = .ok := ok
    obtain ⟨user, feeds, key, rfl, isUser, areFeeds⟩ := found value rfl
    obtain rfl : ufReq.user = user := CString.ext key
    obtain rfl : ufDb = pairOf ufReq.user feeds := eq_of_read (verbatimU _ isUser)
      (fun f member => verbatimF f (areFeeds f member)) feeds.nodup read
    have before : Fit U F (pairOf ufReq.user feeds) := ⟨isUser, areFeeds⟩
    obtain ⟨after, nodup⟩ := before.edited feeds.nodup fit decision
    have same := Update.user_of_decideStored decision
    exact ⟨.of_fit after nodup, same⟩

end Stored

end Feedserver.Records
