/-
# Buffer.FullBlock — when the block of a record's pair is full

The block that `uf_pair_new` makes has room for eight pointers, and grows by half when there is
none left. So a pair that has been built feed by feed fills its block at certain numbers of feeds
and at no other, and only there can deleting a feed leave the block.

* `Full`: these numbers. They are 8, 12, 18, 27, 40 and so on.
* `adds_snug`, `deletes_inside_iff`: a block that only additions have made is the least that is
  enough; deletions leave it exactly when it is full and one of them finds its feed.
* `leaves_deletes_iff`, `leaves_adds`: both for the pair of a record, from its making on.
-/
import Feedserver.Buffer.UserFeed
import Feedserver.Records.Encoding
import Mathlib.Logic.Function.Iterate
import Mathlib.Order.Monotone.Basic

namespace Feedserver.Buffer

open Feedserver.Theory
open Traced (Ends sequence)

set_option autoImplicit false

/-! ## Sizes -/

/-- How many elements there is room for after so many growths. -/
def blockSize (k : Nat) : Nat := growthOf^[k] DEFAULT_COUNT_OF_ELEMENTS

/-- So many elements fill a block. -/
def Full (count : Nat) : Prop := ∃ k, blockSize k = count

example : (List.range 5).map blockSize = [8, 12, 18, 27, 40] := by decide

theorem blockSize_succ (k : Nat) : blockSize (k + 1) = growthOf (blockSize k) :=
  Function.iterate_succ_apply' growthOf k _

theorem two_le_blockSize (k : Nat) : 2 ≤ blockSize k := by
  induction k with
  | zero => decide
  | succ k ih =>
      have grows := lt_growthOf ih
      rw [blockSize_succ]
      omega

theorem blockSize_strictMono : StrictMono blockSize := by
  refine strictMono_nat_of_lt_succ fun k => ?_
  rw [blockSize_succ]
  exact lt_growthOf (two_le_blockSize k)

/-- The block is as large as it must be for so many elements, and was never larger. -/
def Snug (count capacity : Nat) : Prop :=
  ∃ k, capacity = blockSize k ∧ count ≤ capacity ∧ ∀ j < k, blockSize j < count

theorem Snug.full_iff {count capacity : Nat} (snug : Snug count capacity) :
    count = capacity ↔ Full count := by
  obtain ⟨k, rfl, fits, least⟩ := snug
  constructor
  · intro same
    exact ⟨k, same.symm⟩
  · rintro ⟨m, rfl⟩
    have later : k ≤ m := Nat.le_of_not_lt fun earlier => Nat.lt_irrefl _ (least m earlier)
    exact Nat.le_antisymm fits (blockSize_strictMono.monotone later)

/-- One more element: the block grows once when it was full. -/
theorem Snug.push {count capacity : Nat} (snug : Snug count capacity) :
    Snug (count + 1) (if capacity < count + 1 then growthOf capacity else capacity) := by
  obtain ⟨k, rfl, fits, least⟩ := snug
  split
  · rename_i full
    obtain rfl : blockSize k = count := by omega
    have grows := lt_growthOf (two_le_blockSize k)
    refine ⟨k + 1, (blockSize_succ k).symm, grows, fun j less => ?_⟩
    have before := blockSize_strictMono.monotone (Nat.le_of_lt_succ less)
    omega
  · refine ⟨k, rfl, by omega, fun j less => ?_⟩
    have before := least j less
    omega

/-! ## Adding -/

section Vector

variable {α : Type} {size : Nat} {deleter : Bool} {v : VcVector α} {l : List α}

theorem makeRoom_capacity (holds : Holds size deleter v l) :
    Ends (makeRoom (l.length + 1)) v fun _ v' _ => v'.data.length =
      if v.data.length < l.length + 1 then growthOf v.data.length else v.data.length := by
  apply Traced.ends_bind_of_run rfl
  show Ends (if vcVectorMaxCount v < l.length + 1 then _ else _) v _
  rw [maxCount_eq]
  by_cases full : v.data.length < l.length + 1
  · have fits := holds.fits
    have grows := lt_growthOf holds.room
    have enough : ¬ l.length + 1 > growthOf v.data.length := by omega
    have once : growTo (l.length + 1) (l.length + 1 + 1) (growthOf v.data.length) =
        some (growthOf v.data.length) := by
      unfold growTo
      rw [if_neg enough]
    rw [if_pos full, once, if_pos full]
    apply Traced.ends_bind_of_run rfl
    refine ⟨(), v.reserve (growthOf v.data.length), [], rfl, ?_⟩
    simp [VcVector.reserve, cellsAt]
  · rw [if_neg full, if_neg full]
    exact Traced.ends_pure rfl

theorem pushBack_capacity (holds : Holds size deleter v l) (value : α) :
    Ends (vcVectorPushBack value) v fun _ v' _ => v'.data.length =
      if v.data.length < l.length + 1 then growthOf v.data.length else v.data.length := by
  apply Traced.ends_bind_of_run rfl
  simp only [vcVectorCount, holds.count, List.length_singleton, Nat.add_comm 1]
  apply (makeRoom_capacity holds).bind
  rintro ⟨⟩ v' log capacity
  apply Traced.ends_bind_of_run rfl
  refine ⟨true, _, _, rfl, ?_⟩
  simp only [VcVector.write, length_overwrite]
  exact capacity

end Vector

section Pair

variable {uf : UfPair} {pointers : List Ptr} {pair : Source.UfPair}

theorem add_snug (rep : Represents uf pointers pair)
    (snug : Snug pair.feeds.length uf.feeds.data.length) (feed : CString) :
    Ends (ufPairAddFeed feed) uf fun _ uf' _ =>
      Snug (Source.ufPairAddFeed pair feed).1.feeds.length uf'.feeds.data.length := by
  apply (searchFeed_spec rep feed).bind
  rintro found uf' log ⟨rfl, rfl, -, -⟩
  cases place : pair.feeds.findIdx? fun name => name = feed with
  | some i =>
      obtain ⟨inside, here, -⟩ := List.findIdx?_eq_some_iff_getElem.1 place
      have present : feed ∈ pair.feeds := by
        have same : pair.feeds[i] = feed := by simpa using here
        exact same ▸ List.getElem_mem inside
      rw [Records.ufPairAddFeed_of_mem present]
      exact Traced.ends_pure snug
  | none =>
      have absent : feed ∉ pair.feeds := by
        intro member
        simpa using List.findIdx?_eq_none_iff.1 place feed member
      rw [Records.ufPairAddFeed_of_not_mem absent]
      obtain ⟨ok, feeds, log, ran, capacity⟩ := pushBack_capacity rep.holds uf'.strings.length
      have pushed : (onFeeds (vcVectorPushBack uf'.strings.length)).run
          { uf' with strings := uf'.strings ++ [feed] } =
            .ok (ok, ⟨uf'.strings ++ [feed], uf'.user, feeds⟩, log) := onFeeds_run ran
      have behind : Ends (pushFeed feed) uf' fun _ uf'' _ =>
          Snug (pair.feeds.length + 1) uf''.feeds.data.length := by
        refine Traced.ends_bind_of_run (run_strdup uf' feed) ?_
        refine Traced.ends_bind_of_run pushed (Traced.ends_pure ?_)
        rw [capacity, rep.length]
        exact snug.push
      apply behind.bind
      intro _ uf'' _ snug'
      refine Traced.ends_pure ?_
      simpa using snug'

/-- Feed after feed: what is there then, in a block that is no larger than it must be. -/
theorem adds_snug (rep : Represents uf pointers pair) {log : List (Event Ptr)}
    (owned : Owned uf pointers log) (snug : Snug pair.feeds.length uf.feeds.data.length)
    (names : List CString) :
    Ends (sequence FeedOp.perform (names.map .add)) uf fun _ uf' log' =>
      (∃ pointers', Represents uf' pointers' (Records.addFeeds pair names) ∧
        Owned uf' pointers' (log ++ log')) ∧
        Snug (Records.addFeeds pair names).feeds.length uf'.feeds.data.length ∧
          ∀ e ∈ log', e.Inside := by
  induction names generalizing uf pointers pair log with
  | nil =>
      refine Traced.ends_pure ⟨⟨pointers, rep, ?_⟩, snug, by simp⟩
      rwa [List.append_nil]
  | cons feed rest ih =>
      rw [List.map_cons, Traced.sequence]
      apply ((add_spec rep feed).and (add_snug rep snug feed)).bind
      rintro changed uf₁ log₁ ⟨⟨⟨pointers₁, rep₁, orderly⟩, -, sound⟩, snug₁⟩
      apply (ih rep₁ (owned.step orderly) snug₁).mono
      rintro _ uf₂ log₂ ⟨⟨pointers₂, rep₂, owned₂⟩, snug₂, inside⟩
      refine ⟨⟨pointers₂, rep₂, ?_⟩, snug₂, List.forall_mem_append.2 ⟨?_, inside⟩⟩
      · rwa [List.append_assoc] at owned₂
      · exact fun e member => (sound e member).inside

/-! ## Deleting -/

/-- Nothing is given back of a block. -/
theorem delete_capacity (rep : Represents uf pointers pair) (feed : CString) :
    Ends (ufPairDeleteFeed feed) uf fun _ uf' _ =>
      uf'.feeds.data.length = uf.feeds.data.length := by
  apply (searchFeed_spec rep feed).bind
  rintro found uf' log ⟨rfl, rfl, -, -⟩
  cases place : pair.feeds.findIdx? fun name => name = feed with
  | none => exact Traced.ends_pure rfl
  | some i =>
      obtain ⟨inside, -⟩ := List.findIdx?_eq_some_iff_getElem.1 place
      have erased := onFeeds_run (erase_run rep.holds (rep.length ▸ inside))
      exact Traced.ends_bind_of_run erased (Traced.ends_pure (length_overwrite _ _ _))

/-- Only the first deletion that finds its feed can leave the block: there is room behind it. -/
theorem deletes_inside_iff (rep : Represents uf pointers pair) {log : List (Event Ptr)}
    (owned : Owned uf pointers log) (names : List CString) :
    Ends (sequence FeedOp.perform (names.map .delete)) uf fun _ _ log' =>
      ((∀ e ∈ log', e.Inside) ↔
        ¬ (pair.feeds.length = uf.feeds.data.length ∧ ∃ f ∈ names, f ∈ pair.feeds)) := by
  induction names generalizing uf pointers pair log with
  | nil => exact Traced.ends_pure (by simp)
  | cons feed rest ih =>
      rw [List.map_cons, Traced.sequence]
      apply ((delete_spec rep owned.nodup feed).and (delete_capacity rep feed)).bind
      rintro changed uf₁ log₁ ⟨⟨⟨pointers₁, rep₁, orderly⟩, -, inside₁⟩, capacity⟩
      apply (ih rep₁ (owned.step orderly)).mono
      intro _ _ log₂ inside₂
      have counted : vcVectorCount uf.feeds = pair.feeds.length := rep.holds.count.trans rep.length
      have fits := rep.holds.fits
      rw [rep.length] at fits
      rw [List.forall_mem_append, inside₁, inside₂, capacity, counted, maxCount_eq]
      unfold Source.ufPairDeleteFeed
      cases place : pair.feeds.findIdx? fun name => name = feed with
      | none =>
          have absent : feed ∉ pair.feeds := by
            intro member
            simpa using List.findIdx?_eq_none_iff.1 place feed member
          simp [absent]
      | some i =>
          obtain ⟨bound, here, -⟩ := List.findIdx?_eq_some_iff_getElem.1 place
          have present : feed ∈ pair.feeds := by
            have same : pair.feeds[i] = feed := by simpa using here
            exact same ▸ List.getElem_mem bound
          have less : (pair.feeds.eraseIdx i).length ≠ uf.feeds.data.length := by
            rw [List.length_eraseIdx_of_lt bound]
            omega
          simp [Source.vcVectorErase, less, present]

end Pair

/-! ## The pair of a record -/

/-- The pair is built from its feeds, one by one, and then these calls are made on it. -/
def onRecord (pair : Source.UfPair) (ops : List FeedOp) :
    Except Stuck (Unit × UfPair × List (Event Ptr)) :=
  ufPairNew pair.user none (sequence FeedOp.perform (pair.feeds.map .add ++ ops))

/-- Some byte outside of the block has been touched. -/
def leavesBlock (ran : Except Stuck (Unit × UfPair × List (Event Ptr))) : Bool :=
  match ran with
  | .ok (_, _, log) => log.any fun e => !decide e.Inside
  | .error _ => true

/-- The same calls on a pair that has just been made. -/
theorem onRecord_start (pair : Source.UfPair) (ops : List FeedOp) :
    ∃ uf, onRecord pair ops = (sequence FeedOp.perform (pair.feeds.map .add ++ ops)).run uf ∧
      Represents uf [] ⟨pair.user, []⟩ ∧ Owned uf [] [] ∧ Snug 0 uf.feeds.data.length := by
  unfold onRecord ufPairNew
  cases created : vcVectorCreate Ptr 1 POINTER_SIZE true with
  | none => cases created
  | some feeds =>
      refine ⟨⟨[pair.user], 0, feeds⟩, rfl, ⟨holds_create created, rfl, rfl⟩, rfl, 0, ?_⟩
      cases created
      exact ⟨rfl, Nat.zero_le _, by simp⟩

/-- **Which deletions leave the block of a record's pair.** Those from a full block, of a feed
that is there. -/
theorem leaves_deletes_iff {pair : Source.UfPair} (unique : pair.feeds.Nodup)
    (names : List CString) : leavesBlock (onRecord pair (names.map .delete)) = true ↔
      Full pair.feeds.length ∧ ∃ f ∈ names, f ∈ pair.feeds := by
  obtain ⟨uf, same, empty, owned, snug⟩ := onRecord_start pair (names.map .delete)
  have rebuilt : Records.addFeeds ⟨pair.user, []⟩ pair.feeds = pair :=
    Records.addFeeds_of_nodup _ unique
  have ends : Ends (sequence FeedOp.perform (pair.feeds.map .add ++ names.map .delete)) uf
      fun _ _ log => (∀ e ∈ log, e.Inside) ↔
        ¬ (Full pair.feeds.length ∧ ∃ f ∈ names, f ∈ pair.feeds) := by
    rw [Traced.sequence_append]
    apply (adds_snug empty owned snug pair.feeds).bind
    rintro _ uf log ⟨⟨pointers, rep, owned⟩, snug, inside⟩
    rw [rebuilt] at rep snug
    apply (deletes_inside_iff rep owned names).mono
    intro _ _ log' inside'
    rw [List.forall_mem_append, inside', snug.full_iff]
    exact and_iff_right inside
  obtain ⟨⟨⟩, uf', log, ran, inside⟩ := ends
  rw [same, ran, ← not_iff_not, ← inside]
  simp [leavesBlock]

/-- Additions never do. -/
theorem leaves_adds (pair : Source.UfPair) (names : List CString) :
    leavesBlock (onRecord pair (names.map .add)) = false := by
  obtain ⟨uf, same, empty, owned, snug⟩ := onRecord_start pair (names.map .add)
  obtain ⟨⟨⟩, uf', log, ran, -, -, inside⟩ := adds_snug empty owned snug (pair.feeds ++ names)
  rw [same, ← List.map_append, ran]
  simpa [leavesBlock] using inside

end Feedserver.Buffer
