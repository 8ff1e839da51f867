/-
# Memory.UserFeed — what userfeed.c and vc_string.c allocate and free

The functions of `Source.UserFeed` again, with the parsed tree, the pair and the text as
resources: each is acquired where the source allocates it, used where the source looks into
it, and released where the source frees it. A pair is one resource, with the strings and the
vector that `uf_pair_release` frees, and so is a vector with its block.

* `Hands`, `MayHand`: what is returned is a new resource, or there is none.
* `toDbvalue_tracks`, `fromRequest_tracks`, `fromDbvalue_tracks`: each function does what the
  one of `Source` does, and all it leaves behind is what it returns.
-/
import Feedserver.Source.FeedServer
import Feedserver.Theory.Ownership

namespace Feedserver.Memory

open Feedserver.Theory
open Ownership (Held Tracks Keeps acquire read write release ask)
open Source (Fault calls)

set_option autoImplicit false

abbrev Owned (α : Type) := Ownership.Owning calls Fault α

/-- A string that is part of something else. -/
def borrow {α : Type} (owner : Held α) (text : CString) : Owned CString := do
  let _ ← read owner
  return text

/-! ## vc_string.c -/

abbrev VcString := Held (Source.VcVector UInt8)

def vcStringCreate : Owned VcString := acquire Source.vcStringCreate

def vcStringAppend (v : VcString) (str : CString) : Owned VcString :=
  write v (Source.vcStringAppend v.value str)

def vcStringNRemove (v : VcString) (n : Nat) : Owned VcString :=
  write v (Source.vcStringNRemove v.value n)

def vcStringRelease (v : VcString) : Owned Unit := release v

/-! ## userfeed.c -/

abbrev UfPair := Held Source.UfPair

def ufPairNew (user : CString) (feed : Option CString) : Owned UfPair :=
  acquire (Source.ufPairNew user feed)

/-- `uf_pair_add_feed` or `uf_pair_delete_feed`. -/
def ufPairEdit (edit : Source.UfPair → CString → Source.UfPair × Bool) (uf : UfPair)
    (feed : CString) : Owned (UfPair × Bool) := do
  let pair ← read uf
  let uf ← write uf (edit pair feed).1
  return (uf, (edit pair feed).2)

def ufPairAddFeed (uf : UfPair) (feed : CString) : Owned (UfPair × Bool) :=
  ufPairEdit Source.ufPairAddFeed uf feed

def ufPairDeleteFeed (uf : UfPair) (feed : CString) : Owned (UfPair × Bool) :=
  ufPairEdit Source.ufPairDeleteFeed uf feed

def ufPairRelease (uf : UfPair) : Owned Unit := release uf

/-- `json_parse`: the tree, if there is one. -/
def jsonParse (json : Json.Parser) (payload : Bytes) : Owned (Option (Held Json.Value)) :=
  match json.parse payload with
  | some value => do
      let jv ← acquire value
      return some jv
  | none => return none

def jsonValueFree (jv : Held Json.Value) : Owned Unit := release jv

/-- The loop over an array of feeds in a request. -/
def addRequestFeeds (jv : Held Json.Value) : List Json.Value → UfPair → Owned UfPair
  | [], ufp => return ufp
  | value :: rest, ufp => do
      let _ ← read jv
      match value with
      | .string s => do
          let (ufp, _) ← ufPairAddFeed ufp (cstr s)
          addRequestFeeds jv rest ufp
      | _ => addRequestFeeds jv rest ufp

/-- The `feeds` member of a payload. -/
def requestFeeds (jv : Held Json.Value) (user : CString) : Json.Value → Owned (Option UfPair)
  | .array values =>
      if values.length ≤ 0 then return none
      else do
        let user ← borrow jv user
        let ufp ← ufPairNew user none
        let ufp ← addRequestFeeds jv values ufp
        return some ufp
  | .string s => do
      let user ← borrow jv user
      let ufp ← ufPairNew user (some (cstr s))
      return some ufp
  | _ => return none

/-- A return of NULL, behind `json_value_free`. -/
def refuse {α : Type} (jv : Held Json.Value) : Owned (Option α) := do
  jsonValueFree jv
  return none

def ufPairFromRequest (json : Json.Parser) (payload : Bytes) : Owned (Option UfPair) := do
  match ← jsonParse json payload with
  | none => return none
  | some jv =>
      match ← read jv with
      | .object members =>
          if members.length ≠ 2 then refuse jv
          else
            match Source.jsonFindObject (lit "user") (.object members) with
            | none => refuse jv
            | some ji =>
                match Source.requestUser ji with
                | .error reason => .fault reason
                | .ok none => refuse jv
                | .ok (some user) =>
                    match Source.jsonFindObject (lit "feeds") (.object members) with
                    | none => refuse jv
                    | some ji => do
                        let ufp ← requestFeeds jv user ji
                        jsonValueFree jv
                        return ufp
      | _ => refuse jv

/-- The loop of `uf_pair_to_dbvalue`, from one feed on. -/
def appendFeeds (ufp : UfPair) (feeduri : CString) : List CString → VcString → Owned VcString
  | [], vs => return vs
  | feed :: rest, vs => do
      let vs ← vcStringAppend vs (lit "\x7b\n\"name\": \"")
      let feed ← borrow ufp feed
      let vs ← vcStringAppend vs feed
      let vs ← vcStringAppend vs (lit "\",\n\"uri\": \"")
      let vs ← vcStringAppend vs feeduri
      let vs ← vcStringAppend vs (lit "/")
      let feed ← borrow ufp feed
      let vs ← vcStringAppend vs feed
      let vs ← vcStringAppend vs (lit "\"\n\x7d\n")
      if rest = [] then appendFeeds ufp feeduri rest vs
      else do
        let vs ← vcStringAppend vs (lit ",\n")
        appendFeeds ufp feeduri rest vs

def ufPairToDbvalue (ufp : UfPair) (useruri feeduri : CString) : Owned VcString := do
  let vs ← vcStringCreate
  let vs ← vcStringAppend vs (lit "\x7b\n\"user\": \x7b\n\"name\": \"")
  let pair ← read ufp
  let vs ← vcStringAppend vs pair.user
  let vs ← vcStringAppend vs (lit "\",\n\"uri\": \"")
  let vs ← vcStringAppend vs useruri
  let vs ← vcStringAppend vs (lit "/")
  let pair ← read ufp
  let vs ← vcStringAppend vs pair.user
  let vs ← vcStringAppend vs (lit "\"\n\x7d,\n\"feeds\": [\n")
  let vs ← appendFeeds ufp feeduri pair.feeds vs
  vcStringAppend vs (lit "]\n\x7d\n")

/-- The loop over the stored feeds. -/
def addStoredFeeds (jv : Held Json.Value) : List Json.Value → UfPair → Owned UfPair
  | [], ufp => return ufp
  | value :: rest, ufp => do
      let _ ← read jv
      let jo ← Program.ofExcept (Source.deref (Source.jsonFindObject (lit "name") value))
      let name ← Program.ofExcept (Source.stringPtr jo)
      let (ufp, _) ← ufPairAddFeed ufp name
      addStoredFeeds jv rest ufp

/-- The pair of a stored tree, once its user's name has been found. -/
def storedPair (jv : Held Json.Value) (jo : Json.Value) : Owned UfPair := do
  let user ← Program.ofExcept (Source.stringPtr jo)
  let user ← borrow jv user
  let ufp ← ufPairNew user none
  let tree ← read jv
  let ji ← Program.ofExcept (Source.deref (Source.jsonFindObject (lit "feeds") tree))
  match ji with
  | .array values => addStoredFeeds jv values ufp
  | _ => return ufp

def ufPairFromDbvalue (json : Json.Parser) (payload : Bytes) : Owned (Option UfPair) := do
  match ← jsonParse json payload with
  | none => return none
  | some jv =>
      match ← read jv with
      | .object members =>
          match (Source.jsonFindObject (lit "user") (.object members)).bind
              (Source.jsonFindObject (lit "name")) with
          | none => refuse jv
          | some jo => do
              let ufp ← storedPair jv jo
              jsonValueFree jv
              return some ufp
      | _ => refuse jv

/-! ## What they leave behind -/

/-- What is returned is new, and nothing else is. -/
def Hands {α : Type} (live : Finset Nat) (x : Held α) (value : α) (left : Finset Nat) : Prop :=
  x.value = value ∧ x.place ∉ live ∧ left = insert x.place live

/-- So it is if something is returned. -/
def MayHand {α : Type} (live : Finset Nat) : Option (Held α) → Option α → Finset Nat → Prop
  | some x, some value, left => Hands live x value left
  | none, none, left => left = live
  | _, _, _ => False

section Specs

variable {α : Type} {live : Finset Nat} {jv : Held Json.Value}

/-- The same resource holds what it should, and nothing else has changed. -/
def Holds (place : Nat) (live : Finset Nat) (x : Held α) (value : α) (left : Finset Nat) : Prop :=
  x = ⟨place, value⟩ ∧ left = live

theorem addRequestFeeds_tracks (values : List Json.Value) {place : Nat} (pair : Source.UfPair)
    (tree : jv.place ∈ live) (own : place ∈ live) :
    Tracks (Holds place live) (addRequestFeeds jv values ⟨place, pair⟩)
      (.done (values.foldl Source.addRequestFeed pair)) live := by
  induction values generalizing pair with
  | nil => exact Ownership.tracks_done_iff.2 ⟨rfl, rfl⟩
  | cons value rest ih =>
      cases value with
      | string s =>
          simp only [addRequestFeeds, ufPairAddFeed, ufPairEdit, Ownership.bind_bind,
            Ownership.tracks_read_bind, Ownership.tracks_write_bind, Program.pure_eq,
            Program.done_bind, tree, own, true_and, List.foldl_cons]
          exact ih _
      | _ =>
          simp only [addRequestFeeds, Ownership.tracks_read_bind, tree, true_and]
          exact ih _

theorem requestFeeds_tracks {user : CString} (ji : Json.Value) (tree : jv.place ∈ live) :
    Tracks (MayHand live) (requestFeeds jv user ji) (.done (Source.requestFeeds user ji)) live := by
  cases ji with
  | array values =>
      simp only [requestFeeds, Source.requestFeeds]
      by_cases empty : values.length ≤ 0
      · rw [if_pos empty, if_pos empty]
        exact Ownership.tracks_done_iff.2 rfl
      · rw [if_neg empty, if_neg empty]
        simp only [borrow, ufPairNew, Ownership.bind_bind, Ownership.tracks_read_bind,
          Program.pure_eq, Program.done_bind, tree, true_and, Ownership.tracks_acquire_bind]
        intro place fresh
        have added := addRequestFeeds_tracks values (Source.ufPairNew user none)
          (Finset.mem_insert_of_mem tree : jv.place ∈ insert place live)
          (Finset.mem_insert_self place live)
        apply added.done_bind
        rintro _ _ ⟨rfl, rfl⟩
        exact Ownership.tracks_done_iff.2 ⟨rfl, fresh, rfl⟩
  | string s =>
      simp only [requestFeeds, Source.requestFeeds, borrow, ufPairNew, Ownership.bind_bind,
        Ownership.tracks_read_bind, Program.pure_eq, Program.done_bind, tree, true_and,
        Ownership.tracks_acquire_bind]
      intro place fresh
      exact Ownership.tracks_done_iff.2 ⟨rfl, fresh, rfl⟩
  | _ => exact Ownership.tracks_done_iff.2 rfl

theorem refuse_tracks {place : Nat} (fresh : place ∉ live) {tree : Json.Value} :
    Tracks (MayHand live) (refuse ⟨place, tree⟩ : Owned (Option (Held α)))
      (.done (none : Option α)) (insert place live) := by
  simp only [refuse, jsonValueFree, Ownership.tracks_release_bind, Finset.mem_insert_self, true_and,
    Program.pure_eq, Finset.erase_insert fresh]
  exact Ownership.tracks_done_iff.2 rfl

/-- Tree and pair are live together; the tree is freed. -/
theorem MayHand.free {place : Nat} {o : Option (Held α)} {o' : Option α} {left : Finset Nat}
    (hands : MayHand (insert place live) o o' left) (fresh : place ∉ live) :
    place ∈ left ∧ MayHand live o o' (left.erase place) := by
  cases o with
  | none =>
      cases o' with
      | none =>
          obtain rfl := hands
          exact ⟨Finset.mem_insert_self _ _, Finset.erase_insert fresh⟩
      | some value => exact hands.elim
  | some x =>
      cases o' with
      | none => exact hands.elim
      | some value =>
          obtain ⟨same, new, rfl⟩ := hands
          rw [Finset.mem_insert, not_or] at new
          refine ⟨Finset.mem_insert_of_mem (Finset.mem_insert_self _ _), same, new.2, ?_⟩
          rw [Finset.erase_insert_of_ne new.1, Finset.erase_insert fresh]

theorem fromRequest_tracks (json : Json.Parser) (payload : Bytes) :
    Tracks (MayHand live) (ufPairFromRequest json payload)
      (.ofExcept (Source.ufPairFromRequest json payload)) live := by
  unfold ufPairFromRequest Source.ufPairFromRequest jsonParse
  cases json.parse payload with
  | none => exact Ownership.tracks_done_iff.2 rfl
  | some value =>
      simp only [Ownership.bind_bind, Ownership.tracks_acquire_bind, Program.pure_eq,
        Program.done_bind, Ownership.tracks_read_bind, Finset.mem_insert_self, true_and]
      intro place fresh
      cases value with
      | object members =>
          by_cases two : members.length ≠ 2
          · simp only [if_pos two]
            exact refuse_tracks fresh
          · simp only [if_neg two]
            cases Source.jsonFindObject (lit "user") (.object members) with
            | none => exact refuse_tracks fresh
            | some ji =>
                dsimp only
                cases Source.requestUser ji with
                | error reason => exact Ownership.tracks_fault_iff.2 rfl
                | ok user =>
                    cases user with
                    | none => exact refuse_tracks fresh
                    | some user =>
                        dsimp only
                        cases Source.jsonFindObject (lit "feeds") (.object members) with
                        | none => exact refuse_tracks fresh
                        | some ji =>
                            have member := Finset.mem_insert_self place live
                            apply (requestFeeds_tracks ji member).done_bind
                            intro o left hands
                            obtain ⟨member, freed⟩ := hands.free fresh
                            exact Ownership.tracks_release_bind.2
                              ⟨member, Ownership.tracks_done_iff.2 freed⟩
      | _ => exact refuse_tracks fresh

theorem appendFeeds_tracks {ufp : UfPair} (feeduri : CString) (feeds : List CString)
    {place : Nat} (text : Source.VcVector UInt8) (pair : ufp.place ∈ live) (own : place ∈ live) :
    Tracks (Holds place live) (appendFeeds ufp feeduri feeds ⟨place, text⟩)
      (.done (Source.appendFeeds feeduri feeds text)) live := by
  induction feeds generalizing text with
  | nil => exact Ownership.tracks_done_iff.2 ⟨rfl, rfl⟩
  | cons feed rest ih =>
      simp only [appendFeeds, vcStringAppend, borrow, Ownership.bind_bind,
        Ownership.tracks_read_bind, Ownership.tracks_write_bind, Program.pure_eq,
        Program.done_bind, pair, own, true_and, Source.appendFeeds]
      by_cases last : rest = []
      · simp only [if_pos last]
        exact ih _
      · simp only [if_neg last, Ownership.tracks_write_bind, own, true_and]
        exact ih _

theorem toDbvalue_tracks {ufp : UfPair} (useruri feeduri : CString) (pair : ufp.place ∈ live) :
    Tracks (Hands live) (ufPairToDbvalue ufp useruri feeduri)
      (.done (Source.ufPairToDbvalue ufp.value useruri feeduri)) live := by
  simp only [ufPairToDbvalue, vcStringCreate, vcStringAppend, Ownership.tracks_acquire_bind,
    Ownership.tracks_read_bind, Ownership.tracks_write_bind, Finset.mem_insert, true_or, pair,
    or_true, true_and]
  intro place fresh
  have appended (text : Source.VcVector UInt8) := appendFeeds_tracks feeduri ufp.value.feeds text
    (Finset.mem_insert_of_mem pair : ufp.place ∈ insert place live)
    (Finset.mem_insert_self place live)
  apply (appended _).done_bind
  rintro _ _ ⟨rfl, rfl⟩
  exact ⟨Finset.mem_insert_self _ _, fun _ _ => Ownership.tracks_done_iff.2 ⟨rfl, fresh, rfl⟩⟩

theorem addStoredFeeds_tracks (values : List Json.Value) {place : Nat} (pair : Source.UfPair)
    (tree : jv.place ∈ live) (own : place ∈ live) :
    Tracks (Holds place live) (addStoredFeeds jv values ⟨place, pair⟩)
      (.ofExcept (values.foldlM Source.addStoredFeed pair)) live := by
  induction values generalizing pair with
  | nil => exact Ownership.tracks_done_iff.2 ⟨rfl, rfl⟩
  | cons value rest ih =>
      simp only [addStoredFeeds, ufPairAddFeed, ufPairEdit, Ownership.bind_bind,
        Ownership.tracks_read_bind, tree, true_and, List.foldlM_cons]
      cases found : Source.deref (Source.jsonFindObject (lit "name") value) with
      | error reason =>
          have step : Source.addStoredFeed pair value = .error reason := by
            rw [Source.addStoredFeed, found]
            rfl
          rw [step]
          exact Ownership.tracks_fault_iff.2 rfl
      | ok jo =>
          rw [Program.ofExcept_ok, Program.done_bind]
          cases named : Source.stringPtr jo with
          | error reason =>
              have step : Source.addStoredFeed pair value = .error reason := by
                simp only [Source.addStoredFeed, found, bind, Except.bind, named]
              rw [step]
              exact Ownership.tracks_fault_iff.2 rfl
          | ok name =>
              have step : Source.addStoredFeed pair value =
                  .ok (Source.ufPairAddFeed pair name).1 := by
                simp only [Source.addStoredFeed, found, bind, Except.bind, named]
                rfl
              rw [step]
              simp only [Program.ofExcept_ok, Program.done_bind, Program.pure_eq, own, true_and,
                Ownership.tracks_read_bind, Ownership.tracks_write_bind]
              exact ih _

theorem storedPair_tracks (jo tree : Json.Value) {place : Nat} (own : place ∈ live) :
    Tracks (Hands live) (storedPair ⟨place, tree⟩ jo) (.ofExcept (Source.storedPair tree jo))
      live := by
  unfold storedPair Source.storedPair
  cases Source.stringPtr jo with
  | error reason => exact Ownership.tracks_fault_iff.2 rfl
  | ok user =>
      simp only [borrow, ufPairNew, Ownership.bind_bind, Ownership.tracks_read_bind,
        Program.pure_eq, Program.done_bind, Program.ofExcept_ok, own, true_and,
        Ownership.tracks_acquire_bind, Finset.mem_insert, or_true]
      intro other fresh
      cases Source.deref (Source.jsonFindObject (lit "feeds") tree) with
      | error reason => exact Ownership.tracks_fault_iff.2 rfl
      | ok ji =>
          cases ji with
          | array values =>
              have both : (⟨place, tree⟩ : Held Json.Value).place ∈ insert other live :=
                Finset.mem_insert_of_mem own
              have added := addStoredFeeds_tracks values (Source.ufPairNew user none) both
                (Finset.mem_insert_self other live)
              refine added.mono ?_
              rintro _ pair _ ⟨rfl, rfl⟩
              exact ⟨rfl, fresh, rfl⟩
          | _ => exact Ownership.tracks_done_iff.2 ⟨rfl, fresh, rfl⟩

theorem fromDbvalue_tracks (json : Json.Parser) (payload : Bytes) :
    Tracks (MayHand live) (ufPairFromDbvalue json payload)
      (.ofExcept (Source.ufPairFromDbvalue json payload)) live := by
  unfold ufPairFromDbvalue Source.ufPairFromDbvalue jsonParse
  cases json.parse payload with
  | none => exact Ownership.tracks_done_iff.2 rfl
  | some value =>
      simp only [Ownership.bind_bind, Ownership.tracks_acquire_bind, Program.pure_eq,
        Program.done_bind, Ownership.tracks_read_bind, Finset.mem_insert_self, true_and]
      intro place fresh
      cases value with
      | object members =>
          dsimp only
          cases (Source.jsonFindObject (lit "user") (.object members)).bind
              (Source.jsonFindObject (lit "name")) with
          | none => exact refuse_tracks fresh
          | some jo =>
              dsimp only
              have stored := storedPair_tracks jo (.object members)
                (Finset.mem_insert_self place live)
              apply stored.ofExcept_bind
              · intro reason failed
                rw [failed]
                rfl
              · intro x pair left paired hands
                have may : MayHand (insert place live) (some x) (some pair) left := hands
                obtain ⟨member, freed⟩ := may.free fresh
                simp only [paired]
                exact Ownership.tracks_release_bind.2 ⟨member, Ownership.tracks_done_iff.2 freed⟩
      | _ => exact refuse_tracks fresh

end Specs

end Feedserver.Memory
