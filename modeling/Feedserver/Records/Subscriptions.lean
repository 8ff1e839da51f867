/-
# Records.Subscriptions — what the user database is for

A map from users to the feeds each follows, in the order they came and none twice, and
three commands on it. Nothing here is text or bytes: users and feeds are any two types.
`perform_names` is the only fact about it that needs a proof, since the commands say the
rest themselves.
-/
import Feedserver.Theory.Simulation
import Feedserver.Theory.UniqueList
import Mathlib.Logic.Function.Basic

namespace Feedserver.Records

open Feedserver.Theory

set_option autoImplicit false

/-- The feeds of every user that is known. -/
abbrev Subscriptions (U F : Type) := U → Option (UniqueList F)

inductive Command (U F : Type) where
  | subscribe (user : U) (feeds : List F)
  | unsubscribe (user : U) (feeds : List F)
  | get (user : U)

inductive Reply (U F : Type) where
  | stored
  | unchanged
  | unknown
  | found (user : U) (feeds : UniqueList F)

namespace Subscriptions

variable {U F : Type} [DecidableEq U] [DecidableEq F]

def empty : Subscriptions U F := fun _ => none

/-- The new list of a user. -/
def set (m : Subscriptions U F) (user : U) (feeds : UniqueList F) : Subscriptions U F :=
  Function.update m user (some feeds)

/-- One command: what it is answered, and the map after it. -/
def perform : Machine (Subscriptions U F) (Command U F) (Reply U F)
  | m, .subscribe user feeds =>
      match m user with
      | none => (.stored, m.set user (UniqueList.empty.addAll feeds))
      | some there =>
          if ∃ f ∈ feeds, f ∉ there.items then (.stored, m.set user (there.addAll feeds))
          else (.unchanged, m)
  | m, .unsubscribe user feeds =>
      match m user with
      | none => (.unknown, m)
      | some there =>
          if ∃ f ∈ feeds, f ∈ there.items then (.stored, m.set user (there.removeAll feeds))
          else (.unchanged, m)
  | m, .get user =>
      match m user with
      | none => (.unknown, m)
      | some there => (.found user there, m)

end Subscriptions

/-- Every name in the command is of its kind. -/
def Command.Names {U F : Type} (isUser : U → Prop) (isFeed : F → Prop) : Command U F → Prop
  | .subscribe user feeds => isUser user ∧ ∀ f ∈ feeds, isFeed f
  | .unsubscribe user feeds => isUser user ∧ ∀ f ∈ feeds, isFeed f
  | .get user => isUser user

/-- Every name in the map is of its kind. -/
def Subscriptions.Names {U F : Type} (isUser : U → Prop) (isFeed : F → Prop)
    (m : Subscriptions U F) : Prop :=
  ∀ user feeds, m user = some feeds → isUser user ∧ ∀ f ∈ feeds.items, isFeed f

namespace Subscriptions

variable {U F : Type} [DecidableEq U] [DecidableEq F] {isUser : U → Prop} {isFeed : F → Prop}
  {m : Subscriptions U F}

omit [DecidableEq F] in
theorem Names.set (names : m.Names isUser isFeed) {user : U} {feeds : UniqueList F}
    (named : isUser user) (areFeeds : ∀ f ∈ feeds.items, isFeed f) :
    (m.set user feeds).Names isUser isFeed := by
  intro user' feeds' found
  by_cases own : user' = user
  · subst own
    obtain rfl : feeds = feeds' := by simpa [Subscriptions.set] using found
    exact ⟨named, areFeeds⟩
  · exact names user' feeds' (by simpa [Subscriptions.set, own] using found)

/-- No command brings in a name of another kind. -/
theorem perform_names (names : m.Names isUser isFeed) {command : Command U F}
    (named : command.Names isUser isFeed) : (perform m command).2.Names isUser isFeed := by
  cases command with
  | subscribe user feeds =>
      obtain ⟨userNamed, feedsNamed⟩ := named
      simp only [perform]
      split
      · refine names.set userNamed fun f member => feedsNamed f ?_
        simpa [UniqueList.empty] using member
      · rename_i there found
        split
        · apply names.set userNamed
          intro f member
          rcases UniqueList.mem_addAll.1 member with old | new
          · exact (names user there found).2 f old
          · exact feedsNamed f new
        · exact names
  | unsubscribe user feeds =>
      simp only [perform]
      split
      · exact names
      · rename_i there found
        split
        · apply names.set named.1
          intro f member
          exact (names user there found).2 f (UniqueList.mem_removeAll.1 member).1
        · exact names
  | get user =>
      simp only [perform]
      split <;> exact names

end Subscriptions

end Feedserver.Records
