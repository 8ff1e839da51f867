/-
# Buffer.FeedList — the list that the vector of a pair stands for

What the calls on a new pair mean: each appends a name that is absent or removes one that is
present, on a `UniqueList`.

* `IsList`: the block holds one pointer for each name of the list, in order and once, and
  stepping through it comes to the end after as many steps as there are names.
* `Faithful`: a call makes the next list and frees what it takes out of the vector.
* `Released`: with the release, each string that has ever been in the vector has been freed
  exactly once, with no use behind that.
* `feeds_faithful`: all of this holds whatever calls have been made.
-/
import Feedserver.Buffer.UserFeed
import Feedserver.Records.Requests
import Mathlib.Logic.Function.Iterate

namespace Feedserver.Buffer

open Feedserver.Theory
open Lifetimes (FreedOnce)
open Records (pairOf)
open Traced (sequence)

set_option autoImplicit false

/-! ## The operations on the list -/

namespace FeedOp

def name : FeedOp → CString
  | .add feed => feed
  | .delete feed => feed

/-- Append if absent, remove if present. -/
def onList (feeds : UniqueList CString) : FeedOp → UniqueList CString
  | .add feed => feeds.add feed
  | .delete feed => feeds.remove feed

/-- The names that a call is not about stay in their order. -/
theorem filter_onList (feeds : UniqueList CString) (op : FeedOp) {others : CString → Bool}
    (untouched : others op.name = false) :
    (op.onList feeds).items.filter others = feeds.items.filter others := by
  cases op with
  | add feed => exact feeds.filter_add untouched
  | delete feed => exact feeds.filter_remove untouched

/-- The call of `Source` does it, and returns 1 if that is another list. -/
theorem edit_pairOf (user : CString) (feeds : UniqueList CString) (op : FeedOp) :
    op.edit (pairOf user feeds) =
      (pairOf user (op.onList feeds), decide (op.onList feeds ≠ feeds)) := by
  cases op with
  | add feed =>
      show Source.ufPairAddFeed (pairOf user feeds) feed = _
      rw [Records.ufPairAddFeed_pairOf]
      simp only [onList, UniqueList.add_ne_iff]
  | delete feed =>
      show Source.ufPairDeleteFeed (pairOf user feeds) feed = _
      rw [Records.ufPairDeleteFeed_pairOf]
      simp only [onList, UniqueList.remove_ne_iff]

end FeedOp

/-- The list of a new pair. -/
def newFeeds : Option CString → UniqueList CString
  | none => .empty
  | some feed => UniqueList.empty.add feed

def feedsAfter (feed : Option CString) (ops : List FeedOp) : UniqueList CString :=
  ops.foldl FeedOp.onList (newFeeds feed)

theorem ufPairNew_pairOf (user : CString) (feed : Option CString) :
    Source.ufPairNew user feed = pairOf user (newFeeds feed) := by
  cases feed <;> rfl

theorem edits_pairOf (user : CString) (feeds : UniqueList CString) (ops : List FeedOp) :
    ops.foldl (fun pair op => (op.edit pair).1) (pairOf user feeds) =
      pairOf user (ops.foldl FeedOp.onList feeds) := by
  induction ops generalizing feeds with
  | nil => rfl
  | cons op rest ih => rw [List.foldl_cons, List.foldl_cons, FeedOp.edit_pairOf, ih]

theorem filter_onLists (feeds : UniqueList CString) (ops : List FeedOp) {others : CString → Bool}
    (untouched : ∀ op ∈ ops, others op.name = false) :
    (ops.foldl FeedOp.onList feeds).items.filter others = feeds.items.filter others := by
  induction ops generalizing feeds with
  | nil => rfl
  | cons op rest ih =>
      obtain ⟨first, later⟩ := List.forall_mem_cons.1 untouched
      rw [List.foldl_cons, ih _ later, op.filter_onList feeds first]

/-! ## The vector -/

/-- The pointers in the vector. -/
def UfPair.stored (uf : UfPair) : List Ptr :=
  (uf.feeds.data.take uf.feeds.count).filterMap id

/-- The vector is the list: it holds a pointer to each name, in order, and each pointer once.
Stepping from its begin comes to its end after as many steps, and only then. -/
structure IsList (uf : UfPair) (feeds : UniqueList CString) : Prop where
  count : vcVectorCount uf.feeds = feeds.items.length
  fits : vcVectorCount uf.feeds ≤ vcVectorMaxCount uf.feeds
  elements : uf.feeds.data.take (vcVectorCount uf.feeds) = uf.stored.map some
  once : uf.stored.Nodup
  names : uf.stored.map (uf.strings[·]?) = feeds.items.map some
  distinct : uf.names.Nodup
  steps : ∀ k, (vcVectorNext uf.feeds)^[k] (vcVectorBegin uf.feeds) = vcVectorEnd uf.feeds ↔
    k = vcVectorCount uf.feeds

/-- The names that none of the calls is about stand in the same order. -/
def SameOrder (calls : List FeedOp) (uf uf' : UfPair) : Prop :=
  (uf'.names.filter fun x => x ∉ calls.map FeedOp.name) =
    uf.names.filter fun x => x ∉ calls.map FeedOp.name

section Lists

variable {uf : UfPair} {pointers : List Ptr} {pair : Source.UfPair} {log : List (Event Ptr)}
  {user : CString} {feeds : UniqueList CString}

theorem iterate_next (v : VcVector Ptr) (k : Nat) :
    (vcVectorNext v)^[k] (vcVectorBegin v) = vcVectorAt v k := by
  induction k with
  | zero => exact (Nat.zero_mul _).symm
  | succ k ih => rw [Function.iterate_succ_apply', ih, next_at]

theorem Represents.stored_eq (rep : Represents uf pointers pair) : uf.stored = pointers := by
  rw [UfPair.stored, rep.holds.count, rep.holds.cells, List.filterMap_map]
  exact List.filterMap_some

theorem Represents.isList (rep : Represents uf pointers (pairOf user feeds))
    (owned : Owned uf pointers log) : IsList uf feeds where
  count := rep.holds.count.trans rep.length
  fits := by
    rw [vcVectorCount, rep.holds.count, maxCount_eq]
    exact rep.holds.fits
  elements := by
    rw [rep.stored_eq, vcVectorCount, rep.holds.count]
    exact rep.holds.cells
  once := by
    rw [rep.stored_eq]
    exact owned.nodup
  names := by
    rw [rep.stored_eq]
    exact rep.names
  distinct := by
    rw [rep.names_eq]
    exact feeds.nodup
  steps k := by
    rw [iterate_next]
    exact at_end_iff uf.feeds k

end Lists

/-! ## Histories -/

/-- The pointer has been in the vector, behind some of the calls. -/
def EverStored (user : CString) (feed : Option CString) (ops : List FeedOp) (p : Ptr) : Prop :=
  ∃ earlier uf log, earlier <+: ops ∧ Reached user feed earlier uf log ∧ p ∈ uf.stored

/-- What a call does: it makes the next list, returns 1 if that is another one, and of the
pointers in the vector it frees those that it takes out. -/
structure Faithful (op : FeedOp) (feeds : UniqueList CString) (uf : UfPair) (changed : Bool)
    (uf' : UfPair) (log : List (Event Ptr)) : Prop where
  list : IsList uf' (op.onList feeds)
  changed : changed = true ↔ op.onList feeds ≠ feeds
  freed : ∀ p ∈ uf.stored, .free p ∈ actsOf log ↔ p ∉ uf'.stored

/-- What the release does behind all the rest: it frees what is in the vector, and then all
that has been there is freed once. The user's string is not for the deleter. -/
structure Released (user : CString) (feed : Option CString) (ops : List FeedOp) (uf : UfPair)
    (log log' : List (Event Ptr)) : Prop where
  freed : ∀ p ∈ uf.stored, .free p ∈ actsOf log'
  once : ∀ p, EverStored user feed ops p → FreedOnce p (actsOf (log ++ log'))
  user : .free uf.user ∉ actsOf (log ++ log')

section Histories

variable {user : CString} {feed : Option CString} {ops later : List FeedOp} {uf uf' : UfPair}
  {log log' : List (Event Ptr)}

theorem exists_reached (user : CString) (feed : Option CString) (ops : List FeedOp) :
    ∃ uf log pointers, Reached user feed ops uf log ∧
      Represents uf pointers (pairOf user (feedsAfter feed ops)) ∧ Owned uf pointers log := by
  have represents := sequence_represents user feed ops
  rw [ufPairNew_pairOf, edits_pairOf] at represents
  exact represents

/-- There is one pair that is reached. -/
theorem Reached.unique (reached : Reached user feed ops uf log)
    (reached' : Reached user feed ops uf' log') : uf = uf' ∧ log = log' := by
  have same := Except.ok.inj (Eq.trans (Eq.symm reached) reached')
  simpa using same

theorem Reached.represents (reached : Reached user feed ops uf log) :
    ∃ pointers, Represents uf pointers (pairOf user (feedsAfter feed ops)) ∧
      Owned uf pointers log := by
  obtain ⟨uf', log', pointers, reached', rep, owned⟩ := exists_reached user feed ops
  obtain ⟨rfl, rfl⟩ := reached.unique reached'
  exact ⟨pointers, rep, owned⟩

theorem Reached.names_eq (reached : Reached user feed ops uf log) :
    uf.names = (feedsAfter feed ops).items := by
  obtain ⟨pointers, rep, -⟩ := reached.represents
  exact rep.names_eq

theorem Reached.next (reached : Reached user feed ops uf log) {op : FeedOp} {changed : Bool}
    (ran : op.perform.run uf = .ok (changed, uf', log')) :
    Reached user feed (ops ++ [op]) uf' (log ++ log') := by
  apply reached.append
  simp [Traced.sequence, ran]

theorem Reached.sameOrder (reached : Reached user feed ops uf log)
    (reached' : Reached user feed (ops ++ later) uf' log') : SameOrder later uf uf' := by
  rw [SameOrder, reached.names_eq, reached'.names_eq, feedsAfter, List.foldl_append]
  apply filter_onLists
  intro op member
  simpa using List.mem_map_of_mem member

/-- What has been made stays made. -/
theorem Reached.made_subset (reached : Reached user feed ops uf log)
    (reached' : Reached user feed (ops ++ later) uf' log') : uf.made ⊆ uf'.made := by
  obtain ⟨pointers, rep, owned⟩ := reached.represents
  obtain ⟨⟨⟩, uf'', log'', ran, -, grown⟩ := sequence_owned rep owned later
  obtain ⟨rfl, -⟩ := (reached.append ran).unique reached'
  exact grown

theorem EverStored.made {p : Ptr} (ever : EverStored user feed ops p)
    (reached : Reached user feed ops uf log) : p ∈ uf.made := by
  obtain ⟨earlier, uf₁, log₁, ⟨later, rfl⟩, reached₁, member⟩ := ever
  obtain ⟨pointers, rep, owned⟩ := reached₁.represents
  rw [rep.stored_eq] at member
  exact reached₁.made_subset reached ((Lifetimes.sublist_of_after owned).subset member)

theorem Reached.perform (reached : Reached user feed ops uf log) (op : FeedOp) :
    ∃ changed uf' log', op.perform.run uf = .ok (changed, uf', log') ∧
      Reached user feed (ops ++ [op]) uf' (log ++ log') ∧
        Faithful op (feedsAfter feed ops) uf changed uf' log' := by
  obtain ⟨pointers, rep, owned⟩ := reached.represents
  obtain ⟨changed, uf', log', ran, ⟨pointers', rep', orderly⟩, same, -⟩ :=
    perform_spec rep owned.nodup op
  rw [FeedOp.edit_pairOf] at rep' same
  refine ⟨changed, uf', log', ran, reached.next ran, rep'.isList (owned.step orderly), ?_, ?_⟩
  · rw [same]
    exact decide_eq_true_iff
  · rw [rep.stored_eq, rep'.stored_eq]
    exact fun p used => owned.freed_iff orderly used

theorem Reached.release (reached : Reached user feed ops uf log) :
    ∃ log', ufPairRelease.run uf = .ok (uf.user, uf, log') ∧
      Released user feed ops uf log log' := by
  obtain ⟨pointers, rep, owned⟩ := reached.represents
  obtain ⟨freed, uf', log', ran, rfl, rfl, acts, -⟩ := release_pair_spec rep
  have all : Owned uf' [] (log ++ log') := owned.release acts
  refine ⟨log', ran, ?_, ?_, ?_⟩
  · intro p member
    rw [rep.stored_eq] at member
    rw [acts]
    exact List.mem_map_of_mem member
  · intro p ever
    exact Lifetimes.freedOnce_of_after uf'.nodup_made all (ever.made reached) List.not_mem_nil
  · have never : uf'.user ∉ uf'.made := by simp [UfPair.made]
    exact (Lifetimes.untouched_of_after all never).2

end Histories

/-- **The vector is the list.** Any calls on a new pair leave it as the list that they make of
the list of a new pair: the names stand once and in order, and those that no call of a stretch
is about keep their order. The next call, whichever it is, returns 1 exactly when it changes
the list. Every pointer that has ever been in the vector is given to the deleter exactly once,
by the call that takes it out or by the release, and is not used from then on. -/
theorem feeds_faithful (user : CString) (feed : Option CString) (ops : List FeedOp) :
    ∃ uf log, Reached user feed ops uf log ∧ IsList uf (feedsAfter feed ops) ∧
      (∀ earlier later uf₁ log₁, ops = earlier ++ later →
        Reached user feed earlier uf₁ log₁ → SameOrder later uf₁ uf) ∧
      (∀ op, ∃ changed uf' log', op.perform.run uf = .ok (changed, uf', log') ∧
        Reached user feed (ops ++ [op]) uf' (log ++ log') ∧
          Faithful op (feedsAfter feed ops) uf changed uf' log') ∧
      ∃ log', ufPairRelease.run uf = .ok (uf.user, uf, log') ∧
        Released user feed ops uf log log' := by
  obtain ⟨uf, log, pointers, reached, rep, owned⟩ := exists_reached user feed ops
  refine ⟨uf, log, reached, rep.isList owned, ?_, reached.perform, reached.release⟩
  rintro earlier later uf₁ log₁ rfl reached₁
  exact reached₁.sameOrder reached

/-- A name that comes back is another string, behind the others. -/
example : (ufPairNew (lit "u") (some (lit "a")) (sequence FeedOp.perform
    [.add (lit "b"), .delete (lit "a"), .add (lit "a")])).toOption.map
      (fun built => (built.2.1.stored, actsOf built.2.2)) =
    some ([2, 3], [.use 1, .use 1, .free 1, .use 2]) := by decide

end Feedserver.Buffer
