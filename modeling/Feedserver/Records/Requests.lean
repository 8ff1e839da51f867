/-
# Records.Requests — what a payload asks for, and what the edits make of it

`Asks json payload user feeds` reads a payload in full: the names are the JSON strings as
they decode, NUL bytes included. `uf_pair_from_request` accepts exactly the payloads that
ask for something, and keeps the part of each name that a `char *` shows
(`fromRequest_eq_some_iff`).

A pair without duplicates is a user and a `UniqueList` (`pairOf`). On such pairs the two
edits are `add` and `remove`, the loops over a request's feeds are `addAll` and `removeAll`
(`editFeeds_add`, `editFeeds_delete`), and every pair read from a request is one.
-/
import Feedserver.Records.Updates
import Feedserver.Theory.UniqueList

namespace Feedserver.Records

open Feedserver.Theory
open Feedserver.Source

set_option autoImplicit false

/-! ## Payloads -/

/-- The `user` member names a user: a string, or an array of one. -/
inductive NamesUser : Json.Value → Bytes → Prop
  | string {user : Bytes} : NamesUser (.string user) user
  | array {user : Bytes} : NamesUser (.array [.string user]) user

def stringOf : Json.Value → Option Bytes
  | .string s => some s
  | _ => none

/-- The `feeds` member names feeds: a string, or the strings of an array that is not empty. -/
inductive NamesFeeds : Json.Value → List Bytes → Prop
  | string {feed : Bytes} : NamesFeeds (.string feed) [feed]
  | array {values : List Json.Value} (nonempty : values ≠ []) :
      NamesFeeds (.array values) (values.filterMap stringOf)

/-- The payload names this user and these feeds, in this order. -/
structure Asks (json : Json.Parser) (payload user : Bytes) (feeds : List Bytes) : Prop where
  intro ::
  reads : ∃ members ji jf, json.parse payload = some (.object members) ∧ members.length = 2 ∧
    jsonFindObject (lit "user") (.object members) = some ji ∧ NamesUser ji user ∧
    jsonFindObject (lit "feeds") (.object members) = some jf ∧ NamesFeeds jf feeds

/-- The pair of a user and a list of names. -/
def requested (user : Bytes) (feeds : List Bytes) : UfPair :=
  addFeeds (ufPairNew (cstr user) none) (feeds.map cstr)

theorem requestUser_eq_some_iff {ji : Json.Value} {name : CString} :
    requestUser ji = .ok (some name) ↔ ∃ user, NamesUser ji user ∧ name = cstr user := by
  constructor
  · intro found
    unfold requestUser at found
    split at found
    · split at found
      · rename_i jo
        cases jo with
        | string s => cases found; exact ⟨s, .array, rfl⟩
        | _ => cases found
      · cases found
    · rename_i s
      cases found
      exact ⟨s, .string, rfl⟩
    · cases found
  · rintro ⟨user, _ | _, rfl⟩ <;> rfl

theorem foldl_addRequestFeed (uf : UfPair) (values : List Json.Value) :
    values.foldl addRequestFeed uf = addFeeds uf ((values.filterMap stringOf).map cstr) := by
  induction values generalizing uf with
  | nil => rfl
  | cons value rest ih =>
      rw [List.foldl_cons, ih]
      cases value <;> rfl

theorem requestFeeds_eq_some_iff {user : Bytes} {jf : Json.Value} {p : UfPair} :
    requestFeeds (cstr user) jf = some p ↔
      ∃ feeds, NamesFeeds jf feeds ∧ p = requested user feeds := by
  constructor
  · intro found
    unfold requestFeeds at found
    split at found
    · rename_i values
      split at found
      · cases found
      · rename_i nonempty
        cases found
        refine ⟨_, .array fun empty => nonempty (by simp [empty]), ?_⟩
        exact foldl_addRequestFeed _ _
    · rename_i s
      cases found
      exact ⟨[s], .string, rfl⟩
    · cases found
  · rintro ⟨feeds, _ | nonempty, rfl⟩
    · rfl
    · rename_i values
      have notEmpty : ¬ values.length ≤ 0 := by simpa using nonempty
      rw [requestFeeds, if_neg notEmpty, foldl_addRequestFeed]
      rfl

/-- Exactly the payloads that ask for something are accepted. -/
theorem fromRequest_eq_some_iff {json : Json.Parser} {payload : Bytes} {p : UfPair} :
    ufPairFromRequest json payload = .ok (some p) ↔
      ∃ user feeds, Asks json payload user feeds ∧ p = requested user feeds := by
  constructor
  · intro found
    unfold ufPairFromRequest at found
    split at found
    · rename_i members parsed
      split at found
      · cases found
      · rename_i two
        split at found
        · cases found
        · rename_i ji foundUser
          split at found
          · cases found
          · cases found
          · rename_i name foundName
            obtain ⟨user, names, rfl⟩ := requestUser_eq_some_iff.1 foundName
            split at found
            · cases found
            · rename_i jf foundFeeds
              have pair : requestFeeds (cstr user) jf = some p := Except.ok.inj found
              obtain ⟨feeds, namesFeeds, rfl⟩ := requestFeeds_eq_some_iff.1 pair
              exact ⟨user, feeds, ⟨members, ji, jf, parsed, by omega, foundUser, names,
                foundFeeds, namesFeeds⟩, rfl⟩
    · cases found
  · rintro ⟨user, feeds, ⟨members, ji, jf, parsed, two, foundUser, names, foundFeeds, namesFeeds⟩,
      rfl⟩
    have name := requestUser_eq_some_iff.2 ⟨user, names, rfl⟩
    have pair : requestFeeds (cstr user) jf = some (requested user feeds) :=
      requestFeeds_eq_some_iff.2 ⟨feeds, namesFeeds, rfl⟩
    simp [ufPairFromRequest, parsed, two, foundUser, name, foundFeeds, pair]

/-! ### Reading a payload -/

def userOf : Json.Value → Option Bytes
  | .string s => some s
  | .array [.string s] => some s
  | _ => none

def feedsOf : Json.Value → Option (List Bytes)
  | .string s => some [s]
  | .array values => if values.isEmpty then none else some (values.filterMap stringOf)
  | _ => none

/-- What a payload asks for, computed. -/
def asked (json : Json.Parser) (payload : Bytes) : Option (Bytes × List Bytes) :=
  match json.parse payload with
  | some (.object members) =>
      if members.length ≠ 2 then none
      else do
        let user ← (jsonFindObject (lit "user") (.object members)).bind userOf
        let feeds ← (jsonFindObject (lit "feeds") (.object members)).bind feedsOf
        return (user, feeds)
  | _ => none

theorem userOf_eq_some_iff {ji : Json.Value} {user : Bytes} :
    userOf ji = some user ↔ NamesUser ji user := by
  constructor
  · intro found
    unfold userOf at found
    split at found <;> cases found
    · exact .string
    · exact .array
  · rintro ⟨⟩ <;> rfl

theorem feedsOf_eq_some_iff {jf : Json.Value} {feeds : List Bytes} :
    feedsOf jf = some feeds ↔ NamesFeeds jf feeds := by
  constructor
  · intro found
    unfold feedsOf at found
    split at found
    · cases found; exact .string
    · split at found
      · cases found
      · rename_i nonempty
        cases found
        exact .array fun empty => nonempty (by simp [empty])
    · cases found
  · rintro ⟨⟩
    · rfl
    · rename_i nonempty
      simp [feedsOf, nonempty]

theorem asked_eq_some_iff {json : Json.Parser} {payload user : Bytes} {feeds : List Bytes} :
    asked json payload = some (user, feeds) ↔ Asks json payload user feeds := by
  constructor
  · intro found
    unfold asked at found
    split at found
    · rename_i members parsed
      split at found
      · cases found
      · rename_i two
        obtain ⟨user', foundUser, found⟩ := Option.bind_eq_some_iff.1 found
        obtain ⟨feeds', foundFeeds, found⟩ := Option.bind_eq_some_iff.1 found
        cases found
        obtain ⟨ji, atUser, names⟩ := Option.bind_eq_some_iff.1 foundUser
        obtain ⟨jf, atFeeds, lists⟩ := Option.bind_eq_some_iff.1 foundFeeds
        exact ⟨members, ji, jf, parsed, by omega, atUser, userOf_eq_some_iff.1 names, atFeeds,
          feedsOf_eq_some_iff.1 lists⟩
    · cases found
  · rintro ⟨members, ji, jf, parsed, two, atUser, names, atFeeds, lists⟩
    simp [asked, parsed, two, atUser, atFeeds, userOf_eq_some_iff.2 names,
      feedsOf_eq_some_iff.2 lists]

/-! ## Edits -/

def pairOf (user : CString) (feeds : UniqueList CString) : UfPair := ⟨user, feeds.items⟩

theorem exists_pairOf {p : UfPair} (nodup : p.feeds.Nodup) :
    ∃ feeds : UniqueList CString, p = pairOf p.user feeds := ⟨⟨p.feeds, nodup⟩, rfl⟩

theorem ufPairAddFeed_pairOf (user : CString) (feeds : UniqueList CString) (feed : CString) :
    ufPairAddFeed (pairOf user feeds) feed =
      (pairOf user (feeds.add feed), decide (feed ∉ feeds.items)) := by
  by_cases member : feed ∈ feeds.items
  · have present : feed ∈ (pairOf user feeds).feeds := member
    rw [ufPairAddFeed_of_mem present, UniqueList.add_of_mem member]
    simp [member]
  · have absent : feed ∉ (pairOf user feeds).feeds := member
    rw [ufPairAddFeed_of_not_mem absent]
    simp [pairOf, UniqueList.add, member]

theorem ufPairDeleteFeed_pairOf (user : CString) (feeds : UniqueList CString) (feed : CString) :
    ufPairDeleteFeed (pairOf user feeds) feed =
      (pairOf user (feeds.remove feed), decide (feed ∈ feeds.items)) := by
  have erased : feeds.items.erase feed = feeds.items.eraseP fun name => name = feed := by
    rw [List.erase_eq_eraseP']
    rfl
  unfold ufPairDeleteFeed
  simp only [pairOf, UniqueList.remove, erased, List.eraseP_eq_eraseIdx]
  cases found : feeds.items.findIdx? fun name => name = feed with
  | none =>
      have absent : feed ∉ feeds.items := by
        intro member
        have := List.findIdx?_eq_none_iff.1 found feed member
        simp at this
      simp [absent]
  | some i =>
      have present : feed ∈ feeds.items := by
        obtain ⟨inside, same, -⟩ := List.findIdx?_eq_some_iff_getElem.1 found
        have same : feeds.items[i] = feed := by simpa using same
        exact same ▸ List.getElem_mem inside
      simp [present, vcVectorErase]

theorem addFeeds_pairOf (user : CString) (feeds : UniqueList CString) (names : List CString) :
    addFeeds (pairOf user feeds) names = pairOf user (feeds.addAll names) := by
  induction names generalizing feeds with
  | nil => simp [addFeeds]
  | cons name rest ih =>
      rw [UniqueList.addAll_cons, ← ih, addFeeds, List.foldl_cons, ufPairAddFeed_pairOf]
      rfl

theorem requested_eq (user : Bytes) (feeds : List Bytes) :
    requested user feeds = pairOf (cstr user) (UniqueList.empty.addAll (feeds.map cstr)) :=
  addFeeds_pairOf (cstr user) .empty (feeds.map cstr)

/-- Subscribing one name after another: what is there afterwards, and whether any was new. -/
theorem editFeeds_add (user : CString) (feeds : UniqueList CString) (names : List CString)
    (changed : Bool) :
    editFeeds ufPairAddFeed names (pairOf user feeds, changed) =
      (pairOf user (feeds.addAll names), decide (∃ n ∈ names, n ∉ feeds.items) || changed) := by
  induction names generalizing feeds changed with
  | nil => simp [editFeeds]
  | cons name rest ih =>
      simp only [editFeeds, ufPairAddFeed_pairOf]
      rw [ih, UniqueList.addAll_cons]
      by_cases member : name ∈ feeds.items
      · simp [member, UniqueList.add_of_mem]
      · simp [member]

theorem editFeeds_delete (user : CString) (feeds : UniqueList CString) (names : List CString)
    (changed : Bool) :
    editFeeds ufPairDeleteFeed names (pairOf user feeds, changed) =
      (pairOf user (feeds.removeAll names), decide (∃ n ∈ names, n ∈ feeds.items) || changed) := by
  induction names generalizing feeds changed with
  | nil => simp [editFeeds]
  | cons name rest ih =>
      simp only [editFeeds, ufPairDeleteFeed_pairOf]
      rw [ih, UniqueList.removeAll_cons]
      by_cases member : name ∈ feeds.items
      · simp [member]
      · simp [member, UniqueList.remove_of_not_mem]

end Feedserver.Records
