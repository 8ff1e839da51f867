/-
# Source.UserFeed — userfeed.c

A user and the feeds it follows: built from a request's payload, changed feed by feed,
written as the JSON text that the user-feed database stores, and read back from it. The
text is put together by pasting the names between fixed pieces (`ufPairToDbvalue`); it is
read through the JSON parser and the recursive member search (`ufPairFromDbvalue`).
-/
import Feedserver.Source.JsonTraverse

namespace Feedserver.Source

open Feedserver.Theory

set_option autoImplicit false

/-- `uf_pair_t`. -/
structure UfPair where
  user : CString
  feeds : VcVector CString
deriving DecidableEq

def ufPairNew (user : CString) (feed : Option CString) : UfPair :=
  match feed with
  | some feed => ⟨user, vcVectorPushBack [] feed⟩
  | none => ⟨user, []⟩

/-- `uf_pair_add_feed`: whether the feed was new. -/
def ufPairAddFeed (uf : UfPair) (feed : CString) : UfPair × Bool :=
  if uf.feeds.any (fun name => name = feed) then (uf, false)
  else ({ uf with feeds := vcVectorPushBack uf.feeds feed }, true)

/-- `uf_pair_delete_feed`: whether the feed was there. -/
def ufPairDeleteFeed (uf : UfPair) (feed : CString) : UfPair × Bool :=
  match uf.feeds.findIdx? (fun name => name = feed) with
  | some i => ({ uf with feeds := vcVectorErase uf.feeds i }, true)
  | none => (uf, false)

/-! ## From a request -/

/-- The `user` member of a payload: a string, or an array of one. -/
def requestUser : Json.Value → Except Fault (Option CString)
  | .array values =>
      match values with
      | [jo] => (stringPtr jo).map some
      | _ => .ok none
  | .string s => .ok (some (cstr s))
  | _ => .ok none

/-- One round of the loop over an array of feeds: only strings are taken. -/
def addRequestFeed (ufp : UfPair) : Json.Value → UfPair
  | .string s => (ufPairAddFeed ufp (cstr s)).1
  | _ => ufp

/-- The `feeds` member of a payload: a string, or an array with something in it. -/
def requestFeeds (user : CString) : Json.Value → Option UfPair
  | .array values =>
      if values.length ≤ 0 then none else some (values.foldl addRequestFeed (ufPairNew user none))
  | .string s => some (ufPairNew user (some (cstr s)))
  | _ => none

def ufPairFromRequest (json : Json.Parser) (payload : Bytes) : Except Fault (Option UfPair) :=
  match json.parse payload with
  | some (.object members) =>
      if members.length ≠ 2 then .ok none
      else
        match jsonFindObject (lit "user") (.object members) with
        | none => .ok none
        | some ji =>
            match requestUser ji with
            | .error reason => .error reason
            | .ok none => .ok none
            | .ok (some user) =>
                match jsonFindObject (lit "feeds") (.object members) with
                | none => .ok none
                | some ji => .ok (requestFeeds user ji)
  | _ => .ok none

/-! ## To and from the stored text -/

/-- The loop of `uf_pair_to_dbvalue`, from one feed on. -/
def appendFeeds (feeduri : CString) : List CString → VcVector UInt8 → VcVector UInt8
  | [], vs => vs
  | feed :: rest, vs =>
      let vs := vcStringAppend vs (lit "\x7b\n\"name\": \"")
      let vs := vcStringAppend vs feed
      let vs := vcStringAppend vs (lit "\",\n\"uri\": \"")
      let vs := vcStringAppend vs feeduri
      let vs := vcStringAppend vs (lit "/")
      let vs := vcStringAppend vs feed
      let vs := vcStringAppend vs (lit "\"\n\x7d\n")
      let vs := if rest = [] then vs else vcStringAppend vs (lit ",\n")
      appendFeeds feeduri rest vs

def ufPairToDbvalue (ufp : UfPair) (useruri feeduri : CString) : VcVector UInt8 :=
  let vs := vcStringCreate
  let vs := vcStringAppend vs (lit "\x7b\n\"user\": \x7b\n\"name\": \"")
  let vs := vcStringAppend vs ufp.user
  let vs := vcStringAppend vs (lit "\",\n\"uri\": \"")
  let vs := vcStringAppend vs useruri
  let vs := vcStringAppend vs (lit "/")
  let vs := vcStringAppend vs ufp.user
  let vs := vcStringAppend vs (lit "\"\n\x7d,\n\"feeds\": [\n")
  let vs := appendFeeds feeduri ufp.feeds vs
  vcStringAppend vs (lit "]\n\x7d\n")

/-- One round of the loop over the stored feeds. -/
def addStoredFeed (ufp : UfPair) (value : Json.Value) : Except Fault UfPair := do
  let jo ← deref (jsonFindObject (lit "name") value)
  let name ← stringPtr jo
  return (ufPairAddFeed ufp name).1

/-- The pair of a stored tree, once its user's name has been found. -/
def storedPair (jv jo : Json.Value) : Except Fault UfPair := do
  let user ← stringPtr jo
  let ji ← deref (jsonFindObject (lit "feeds") jv)
  match ji with
  | .array values => values.foldlM addStoredFeed (ufPairNew user none)
  | _ => return ufPairNew user none

/-- `uf_pair_from_dbvalue`: NULL for a text that is no object or has no user's name in it. -/
def ufPairFromDbvalue (json : Json.Parser) (payload : Bytes) : Except Fault (Option UfPair) :=
  match json.parse payload with
  | some (.object members) =>
      match (jsonFindObject (lit "user") (.object members)).bind (jsonFindObject (lit "name")) with
      | none => .ok none
      | some jo => (storedPair (.object members) jo).map some
  | _ => .ok none

end Feedserver.Source
