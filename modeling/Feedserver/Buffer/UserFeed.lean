/-
# Buffer.UserFeed — userfeed.c over a vector of string pointers

The pair of `Source.UserFeed` again, now with the pointers that its vector holds and the
strings they point to. A pointer says which of the strings made by `strdup` it is; the two
searches go from pointer to pointer through the block, as the source's loops do.

* `Represents`: the pair is what the pointers in the block point to.
* `Owned`: the pointers in the block are the strings that have been made and not yet freed.
* `findFeed_spec`, `add_spec`, `delete_spec`: each function does what the function of `Source`
  does, reports what it touches, and frees only what it takes out (`Orderly`).
* `release_pair_spec`: the release frees every element.
* `feeds_inside_iff`: no call touches anything outside of the block, but for one: to delete a
  feed that is there, when the block is full.
-/
import Feedserver.Buffer.VcVector
import Feedserver.Source.UserFeed
import Mathlib.Data.List.InsertIdx

namespace Feedserver.Buffer

open Feedserver.Theory
open Lifetimes (after)
open Traced (Ends Admitted report sequence stuck)

set_option autoImplicit false

/-- `sizeof(char *)` -/
def POINTER_SIZE : Nat := 8

abbrev Ptr := Nat

/-- `uf_pair_t`, and the strings that `strdup` has made. -/
structure UfPair where
  strings : List CString
  user : Ptr
  feeds : VcVector Ptr

abbrev Owner (β : Type) := Traced UfPair (Event Ptr) Stuck β

/-! ## The functions -/

def strdup (s : CString) : Owner Ptr := do
  let uf ← Traced.get
  Traced.set { uf with strings := uf.strings ++ [s] }
  return uf.strings.length

/-- A call on `uf->feeds`. -/
def onFeeds {β : Type} (m : Vec Ptr β) : Owner β :=
  Traced.zoom UfPair.feeds (fun feeds uf => { uf with feeds }) m

/-- `STRING_PTR(vval)`, followed. -/
def stringAt (vval : Nat) : Owner CString := do
  let p ← onFeeds (load vval)
  report (.follow p)
  let uf ← Traced.get
  match uf.strings[p]? with
  | some s => return s
  | none => stuck .unset

/-- The feed's name is copied, and the pointer pushed. -/
def pushFeed (feed : CString) : Owner Unit := do
  let feedName ← strdup feed
  let _ ← onFeeds (vcVectorPushBack feedName)

/-- `uf_pair_new`, and what is done with the pair then. -/
def ufPairNew {β : Type} (user : CString) (feed : Option CString) (rest : Owner β) :
    Except Stuck (β × UfPair × List (Event Ptr)) :=
  match vcVectorCreate Ptr 1 POINTER_SIZE true with
  | none => .error .nullPointer
  | some feeds =>
      match feed with
      | some feed => (pushFeed feed >>= fun _ => rest).run ⟨[user], 0, feeds⟩
      | none => rest.run ⟨[user], 0, feeds⟩

/-- The loop of `uf_pair_add_feed` and `uf_pair_delete_feed`, for as many rounds as there is
fuel: `vval` is compared with the end, not ordered. -/
def findFeed (feed : CString) : (fuel vval i : Nat) → Owner (Option Nat)
  | 0, _, _ => stuck .endless
  | fuel + 1, vval, i => do
      let uf ← Traced.get
      if vval = vcVectorEnd uf.feeds then return none
      else
        let name ← stringAt vval
        if name = feed then return some i
        else findFeed feed fuel (vcVectorNext uf.feeds vval) (i + 1)

/-- The loop from the start. A pointer that has been moved on more often than the block has
bytes is past the end for good. -/
def searchFeed (feed : CString) : Owner (Option Nat) := do
  let uf ← Traced.get
  findFeed feed (uf.feeds.reservedSize + 1) (vcVectorBegin uf.feeds) 0

def ufPairAddFeed (feed : CString) : Owner Bool := do
  match ← searchFeed feed with
  | some _ => return false
  | none =>
      pushFeed feed
      return true

def ufPairDeleteFeed (feed : CString) : Owner Bool := do
  match ← searchFeed feed with
  | some i =>
      let _ ← onFeeds (vcVectorErase i)
      return true
  | none => return false

/-- `uf_pair_release`, up to where the structures are given back. It returns the pointer that it
hands to `free` itself; the elements are handed to the vector's deleter. -/
def ufPairRelease : Owner Ptr := do
  let uf ← Traced.get
  onFeeds vcVectorRelease
  return uf.user

/-! ## What a pair represents -/

/-- The pointers in the block point to the feeds, and the pair's own to the user. -/
structure Represents (uf : UfPair) (pointers : List Ptr) (pair : Source.UfPair) : Prop where
  holds : Holds POINTER_SIZE true uf.feeds pointers
  names : pointers.map (uf.strings[·]?) = pair.feeds.map some
  user : uf.strings[uf.user]? = some pair.user

/-- The strings made for the vector: all but the user's. -/
def UfPair.made (uf : UfPair) : List Ptr :=
  (List.range uf.strings.length).filter fun p => p ≠ uf.user

/-- What is done with the strings starts from the pointers in use and those made meanwhile, and
ends with the pointers in use afterwards. -/
def Orderly (uf : UfPair) (pointers : List Ptr) (log : List (Event Ptr)) (uf' : UfPair)
    (pointers' : List Ptr) : Prop :=
  ∃ fresh, uf'.made = uf.made ++ fresh ∧ after (pointers ++ fresh) (actsOf log) = some pointers'

/-- Of the strings made for the vector, these are what the log so far has not freed. -/
def Owned (uf : UfPair) (pointers : List Ptr) (log : List (Event Ptr)) : Prop :=
  after uf.made (actsOf log) = some pointers

section Lifetimes

variable {uf uf' : UfPair} {pointers pointers' : List Ptr} {log log' : List (Event Ptr)}

theorem UfPair.nodup_made (uf : UfPair) : uf.made.Nodup := List.nodup_range.filter _

/-- A call that makes no string. -/
theorem orderly_of_after (made : uf'.made = uf.made)
    (ends : after pointers (actsOf log) = some pointers') :
    Orderly uf pointers log uf' pointers' := by
  refine ⟨[], by rw [made, List.append_nil], ?_⟩
  rw [List.append_nil]
  exact ends

/-- One that follows pointers in use before it does something else. -/
theorem Orderly.behind (orderly : Orderly uf pointers log' uf' pointers')
    (reads : after pointers (actsOf log) = some pointers) :
    Orderly uf pointers (log ++ log') uf' pointers' := by
  obtain ⟨fresh, made, ends⟩ := orderly
  refine ⟨fresh, made, ?_⟩
  rw [actsOf_append, Lifetimes.after_append, Lifetimes.after_frame reads]
  exact ends

theorem Orderly.made_subset (orderly : Orderly uf pointers log uf' pointers') :
    uf.made ⊆ uf'.made := by
  obtain ⟨fresh, made, -⟩ := orderly
  rw [made]
  exact List.subset_append_left _ _

theorem Owned.nodup (owned : Owned uf pointers log) : pointers.Nodup :=
  (Lifetimes.sublist_of_after owned).nodup uf.nodup_made

/-- What is made later is in order behind what has been done before. -/
theorem Owned.step (owned : Owned uf pointers log)
    (orderly : Orderly uf pointers log' uf' pointers') :
    Owned uf' pointers' (log ++ log') := by
  obtain ⟨fresh, made, ends⟩ := orderly
  rw [Owned, made, actsOf_append, Lifetimes.after_append, Lifetimes.after_frame owned]
  exact ends

/-- Of the pointers in use, a call frees those that are not in use afterwards. -/
theorem Owned.freed_iff (owned : Owned uf pointers log)
    (orderly : Orderly uf pointers log' uf' pointers') {p : Ptr} (used : p ∈ pointers) :
    .free p ∈ actsOf log' ↔ p ∉ pointers' := by
  obtain ⟨fresh, made, ends⟩ := orderly
  have nodup : (uf.made ++ fresh).Nodup := made ▸ uf'.nodup_made
  have live := ((Lifetimes.sublist_of_after owned).append (.refl fresh)).nodup nodup
  exact Lifetimes.freed_iff live ends (List.mem_append_left fresh used)

/-- When all of them are freed, everything that was made is. -/
theorem Owned.release (owned : Owned uf pointers log) (acts : actsOf log' = pointers.map .free) :
    Owned uf [] (log ++ log') := by
  rw [Owned, actsOf_append, Lifetimes.after_append, owned, acts]
  exact Lifetimes.after_frees pointers

end Lifetimes

section Specs

variable {uf : UfPair} {pointers : List Ptr} {pair : Source.UfPair}

theorem Represents.length (rep : Represents uf pointers pair) :
    pointers.length = pair.feeds.length := by
  have lengths := congrArg List.length rep.names
  rwa [List.length_map, List.length_map] at lengths

theorem onFeeds_run {β : Type} {m : Vec Ptr β} {b : β} {feeds : VcVector Ptr}
    {log : List (Event Ptr)} (ran : m.run uf.feeds = .ok (b, feeds, log)) :
    (onFeeds m).run uf = .ok (b, { uf with feeds }, log) := by
  simp [onFeeds, Traced.zoom, ran]

theorem run_strdup (uf : UfPair) (s : CString) : (strdup s).run uf =
    .ok (uf.strings.length, { uf with strings := uf.strings ++ [s] }, []) := by
  simp [strdup]

/-- The string at an element's place. -/
theorem stringAt_run (rep : Represents uf pointers pair) {k : Nat} (inside : k < pair.feeds.length) :
    ∃ p, pointers[k]? = some p ∧ (stringAt (vcVectorAt uf.feeds k)).run uf = .ok (pair.feeds[k], uf,
      [.touch (vcVectorAt uf.feeds k) uf.feeds.elementSize uf.feeds.reservedSize, .follow p]) := by
  have bound : k < pointers.length := rep.length ▸ inside
  have points : uf.strings[pointers[k]]? = some pair.feeds[k] := by
    have same := congrArg (fun names => names[k]?) rep.names
    simpa [bound, inside] using same
  refine ⟨pointers[k], List.getElem?_eq_getElem bound, ?_⟩
  simp [stringAt, onFeeds_run (load_run rep.holds bound), points]

/-- The pointer is at the end when all elements have been passed, and not before. -/
theorem at_end_iff (v : VcVector Ptr) (k : Nat) : vcVectorAt v k = vcVectorEnd v ↔ k = v.count := by
  rw [vcVectorAt, vcVectorEnd, Nat.mul_comm v.elementSize]
  exact Nat.mul_right_cancel_iff v.positive

theorem next_at (v : VcVector Ptr) (k : Nat) :
    vcVectorNext v (vcVectorAt v k) = vcVectorAt v (k + 1) := by
  rw [vcVectorNext, vcVectorAt, vcVectorAt, Nat.succ_mul]

/-- The loop comes back with the first place, from here on, that has the name. -/
theorem findFeed_spec (rep : Represents uf pointers pair) (feed : CString) {fuel k : Nat}
    (behind : k ≤ pair.feeds.length) (enough : pair.feeds.length < k + fuel) :
    Ends (findFeed feed fuel (vcVectorAt uf.feeds k) k) uf fun found uf' log => uf' = uf ∧
      found = ((pair.feeds.drop k).findIdx? fun name => name = feed).map (· + k) ∧
        (∀ e ∈ log, e.Sound) ∧ after pointers (actsOf log) = some pointers := by
  have counted : uf.feeds.count = pair.feeds.length := rep.holds.count.trans rep.length
  induction fuel generalizing k with
  | zero => omega
  | succ fuel ih =>
      apply Traced.ends_bind_of_run rfl
      show Ends (if vcVectorAt uf.feeds k = vcVectorEnd uf.feeds then _ else _) uf _
      by_cases last : k = pair.feeds.length
      · rw [if_pos ((at_end_iff _ _).2 (last.trans counted.symm))]
        refine Traced.ends_pure ⟨rfl, ?_, by simp, rfl⟩
        rw [last, List.drop_length]
        rfl
      · have inside : k < pair.feeds.length := by omega
        obtain ⟨p, here, read⟩ := stringAt_run rep inside
        have reads := rep.holds.element_inside (rep.length ▸ inside)
        have used (log : List (Event Ptr)) (later : after pointers (actsOf log) = some pointers) :
            after pointers (.use p :: actsOf log) = some pointers :=
          Lifetimes.after_use_iff.2 ⟨List.mem_of_getElem? here, later⟩
        rw [if_neg fun same => last (((at_end_iff _ _).1 same).trans counted)]
        apply Traced.ends_bind_of_run read
        rw [List.drop_eq_getElem_cons inside, List.findIdx?_cons]
        by_cases named : pair.feeds[k] = feed
        · rw [if_pos named]
          refine Traced.ends_pure ⟨rfl, by simp [named], ?_, used [] rfl⟩
          simp [sound_touch_iff, sound_follow, reads]
        · rw [if_neg named]
          rw [next_at]
          apply (ih inside (by omega)).mono
          rintro found uf' log ⟨rfl, rfl, sound, later⟩
          refine ⟨rfl, ?_, ?_, used log later⟩
          · simp [named, Function.comp_def, Nat.add_assoc, Nat.add_comm 1]
          · simpa [sound_touch_iff, sound_follow, reads] using sound

theorem searchFeed_spec (rep : Represents uf pointers pair) (feed : CString) :
    Ends (searchFeed feed) uf fun found uf' log => uf' = uf ∧
      found = pair.feeds.findIdx? (fun name => name = feed) ∧ (∀ e ∈ log, e.Sound) ∧
        after pointers (actsOf log) = some pointers := by
  apply Traced.ends_bind_of_run rfl
  show Ends (findFeed feed (uf.feeds.reservedSize + 1) (vcVectorBegin uf.feeds) 0) uf _
  have enough : pair.feeds.length < 0 + (uf.feeds.reservedSize + 1) := by
    have fits := rep.holds.fits
    have bytes := Nat.le_mul_of_pos_right uf.feeds.data.length uf.feeds.positive
    rw [uf.feeds.sized] at bytes
    rw [rep.length] at fits
    omega
  have start : vcVectorBegin uf.feeds = vcVectorAt uf.feeds 0 := (Nat.zero_mul _).symm
  rw [start]
  apply (findFeed_spec rep feed (Nat.zero_le _) enough).mono
  rintro found uf' log ⟨same, rfl, sound, reads⟩
  exact ⟨same, by simp, sound, reads⟩

/-- A string that is made leaves the others where they are. -/
theorem strings_strdup (s : CString) {p : Ptr} {name : CString}
    (found : uf.strings[p]? = some name) : (uf.strings ++ [s])[p]? = some name := by
  rw [List.getElem?_append_left (List.getElem?_eq_some_iff.1 found).1]
  exact found

theorem names_strdup (rep : Represents uf pointers pair) (s : CString) :
    pointers.map ((uf.strings ++ [s])[·]?) = pair.feeds.map some := by
  rw [← rep.names]
  apply List.map_congr_left
  intro p member
  have named : uf.strings[p]? ∈ pair.feeds.map some :=
    rep.names ▸ List.mem_map_of_mem member
  obtain ⟨name, -, found⟩ := List.mem_map.1 named
  rw [← found]
  exact strings_strdup s found.symm

/-- It is one more that is not the user's. -/
theorem made_strdup (rep : Represents uf pointers pair) (s : CString) (feeds : VcVector Ptr) :
    UfPair.made ⟨uf.strings ++ [s], uf.user, feeds⟩ = uf.made ++ [uf.strings.length] := by
  have before : uf.user < uf.strings.length := (List.getElem?_eq_some_iff.1 rep.user).1
  have other : uf.strings.length ≠ uf.user := Nat.ne_of_gt before
  simp [UfPair.made, List.range_succ, other]

/-- The feed is behind the others then. -/
theorem pushFeed_spec (rep : Represents uf pointers pair) (feed : CString) :
    Ends (pushFeed feed) uf fun _ uf' log =>
      (∃ pointers', Represents uf' pointers'
        { pair with feeds := Source.vcVectorPushBack pair.feeds feed } ∧
          Orderly uf pointers log uf' pointers') ∧ ∀ e ∈ log, e.Sound := by
  obtain ⟨ok, feeds, log, ran, -, holds, sound, quiet⟩ := append_spec rep.holds [uf.strings.length]
  have pushed : (onFeeds (vcVectorPushBack uf.strings.length)).run
      { uf with strings := uf.strings ++ [feed] } =
        .ok (ok, ⟨uf.strings ++ [feed], uf.user, feeds⟩, log) := onFeeds_run ran
  refine Traced.ends_bind_of_run (run_strdup uf feed) (Traced.ends_bind_of_run pushed ?_)
  refine Traced.ends_pure ⟨⟨pointers ++ [uf.strings.length], ⟨holds, ?_, ?_⟩, ?_⟩,
    by simpa using sound⟩
  · rw [List.map_append, names_strdup rep feed]
    simp [Source.vcVectorPushBack, Source.vcVectorAppend]
  · exact strings_strdup feed rep.user
  · refine ⟨[uf.strings.length], made_strdup rep feed feeds, ?_⟩
    simp only [actsOf_append, quiet]
    rfl

/-- `uf_pair_add_feed`. -/
theorem add_spec (rep : Represents uf pointers pair) (feed : CString) :
    Ends (ufPairAddFeed feed) uf fun changed uf' log =>
      (∃ pointers', Represents uf' pointers' (Source.ufPairAddFeed pair feed).1 ∧
        Orderly uf pointers log uf' pointers') ∧
        changed = (Source.ufPairAddFeed pair feed).2 ∧ ∀ e ∈ log, e.Sound := by
  apply (searchFeed_spec rep feed).bind
  rintro found uf' log ⟨rfl, rfl, sound, reads⟩
  have known : (pair.feeds.findIdx? fun name => name = feed).isSome =
      pair.feeds.any fun name => name = feed := List.findIdx?_isSome
  unfold Source.ufPairAddFeed
  cases place : pair.feeds.findIdx? fun name => name = feed with
  | some i =>
      have present : (pair.feeds.any fun name => name = feed) = true := by rw [← known, place]; rfl
      rw [if_pos present]
      refine Traced.ends_pure ⟨⟨pointers, rep, ?_⟩, rfl, by simpa using sound⟩
      rw [List.append_nil]
      exact orderly_of_after rfl reads
  | none =>
      have absent : ¬ (pair.feeds.any fun name => name = feed) = true := by
        rw [← known, place]
        exact Bool.false_ne_true
      rw [if_neg absent]
      apply (pushFeed_spec rep feed).bind
      rintro _ uf'' log' ⟨⟨pointers', rep', orderly⟩, sound'⟩
      refine Traced.ends_pure ⟨⟨pointers', rep', ?_⟩, rfl, ?_⟩
      · rw [List.append_nil]
        exact orderly.behind reads
      · rw [List.append_nil]
        exact List.forall_mem_append.2 ⟨sound, sound'⟩

/-- A feed is erased at its place. What that touches is inside, unless the block is full. -/
theorem eraseFeed_spec (rep : Represents uf pointers pair) (nodup : pointers.Nodup) {i : Nat}
    (inside : i < pair.feeds.length) :
    Ends (onFeeds (vcVectorErase i)) uf fun _ uf' log =>
      (∃ pointers', Represents uf' pointers'
        { pair with feeds := Source.vcVectorErase pair.feeds i } ∧
          Orderly uf pointers log uf' pointers') ∧
        ((∀ e ∈ log, e.Inside) ↔ vcVectorCount uf.feeds ≠ vcVectorMaxCount uf.feeds) := by
  have bound : i < pointers.length := rep.length ▸ inside
  obtain ⟨ok, feeds, log, ran, -, holds, rfl⟩ := erase_spec rep.holds bound
  refine ⟨ok, _, _, onFeeds_run ran, ⟨_, ⟨holds, ?_, rep.user⟩, orderly_of_after rfl ?_⟩, ?_⟩
  · simp only [Source.vcVectorErase, ← List.eraseIdx_map]
    rw [rep.names]
  · rw [actsOf_erasureLog rep.holds.deleter, Source.vcVectorErase, ← nodup.erase_getElem i bound]
    exact Lifetimes.after_free_iff.2 ⟨List.getElem_mem bound, rfl⟩
  · have fits := rep.holds.fits
    rw [erasureLog_inside_iff rep.holds bound, vcVectorCount, maxCount_eq, rep.holds.count]
    omega

/-- `uf_pair_delete_feed`: what is touched behind the search is what the erasure touches. -/
theorem delete_spec (rep : Represents uf pointers pair) (nodup : pointers.Nodup) (feed : CString) :
    Ends (ufPairDeleteFeed feed) uf fun changed uf' log =>
      (∃ pointers', Represents uf' pointers' (Source.ufPairDeleteFeed pair feed).1 ∧
        Orderly uf pointers log uf' pointers') ∧
        changed = (Source.ufPairDeleteFeed pair feed).2 ∧
          ((∀ e ∈ log, e.Inside) ↔
            ¬ (feed ∈ pair.feeds ∧ vcVectorCount uf.feeds = vcVectorMaxCount uf.feeds)) := by
  apply (searchFeed_spec rep feed).bind
  rintro found uf' log ⟨rfl, rfl, sound, reads⟩
  unfold Source.ufPairDeleteFeed
  cases place : pair.feeds.findIdx? fun name => name = feed with
  | none =>
      have absent : feed ∉ pair.feeds := by
        intro member
        simpa using List.findIdx?_eq_none_iff.1 place feed member
      refine Traced.ends_pure ⟨⟨pointers, rep, ?_⟩, rfl, ?_⟩
      · rw [List.append_nil]
        exact orderly_of_after rfl reads
      · simpa [absent] using fun e member => (sound e member).inside
  | some i =>
      obtain ⟨inside, here, -⟩ := List.findIdx?_eq_some_iff_getElem.1 place
      have present : feed ∈ pair.feeds := by
        have same : pair.feeds[i] = feed := by simpa using here
        exact same ▸ List.getElem_mem inside
      apply (eraseFeed_spec rep nodup inside).bind
      rintro _ uf'' log' ⟨⟨pointers', rep', orderly⟩, within⟩
      refine Traced.ends_pure ⟨⟨pointers', rep', ?_⟩, rfl, ?_⟩
      · rw [List.append_nil]
        exact orderly.behind reads
      · rw [List.append_nil, List.forall_mem_append, within]
        simp only [present, true_and]
        exact and_iff_right fun e member => (sound e member).inside

/-- `uf_pair_release`: every element is freed, and the user's string, which is none. -/
theorem release_pair_spec (rep : Represents uf pointers pair) :
    Ends ufPairRelease uf fun freed uf' log => freed = uf.user ∧ uf' = uf ∧
      actsOf log = pointers.map .free ∧ ∀ e ∈ log, e.Sound := by
  obtain ⟨⟨⟩, feeds, log, ran, same, acts, sound⟩ := release_spec rep.holds
  apply Traced.ends_bind_of_run rfl
  apply Traced.ends_bind_of_run (onFeeds_run ran)
  refine Traced.ends_pure ⟨rfl, by rw [same], ?_, by simpa using sound⟩
  simp only [actsOf_append, acts]
  exact List.append_nil _

end Specs

/-! ## Sequences of calls -/

inductive FeedOp where
  | add (feed : CString)
  | delete (feed : CString)

namespace FeedOp

def perform : FeedOp → Owner Bool
  | .add feed => ufPairAddFeed feed
  | .delete feed => ufPairDeleteFeed feed

/-- The same call of `Source`. -/
def edit (pair : Source.UfPair) : FeedOp → Source.UfPair × Bool
  | .add feed => Source.ufPairAddFeed pair feed
  | .delete feed => Source.ufPairDeleteFeed pair feed

end FeedOp

/-- The names that the pointers in use point to. -/
def UfPair.names (uf : UfPair) : List CString :=
  (uf.feeds.data.take uf.feeds.count).filterMap fun cell => cell.bind fun p => uf.strings[p]?

/-- The call deletes a feed that is there, and there is no room left in the block. -/
def FeedOp.ErasesFull (uf : UfPair) : FeedOp → Prop
  | .add _ => False
  | .delete feed => feed ∈ uf.names ∧ vcVectorCount uf.feeds = vcVectorMaxCount uf.feeds

section Sequences

variable {uf : UfPair} {pointers : List Ptr} {pair : Source.UfPair}

theorem Represents.names_eq (rep : Represents uf pointers pair) : uf.names = pair.feeds := by
  have pointed : pointers.filterMap (uf.strings[·]?) = pair.feeds := by
    have same := congrArg (List.filterMap id) rep.names
    simpa [List.filterMap_map] using same
  rw [UfPair.names, rep.holds.count, rep.holds.cells, List.filterMap_map]
  exact pointed

/-- Each call does what the call of `Source` does, and stays inside but for that one case. -/
theorem perform_spec (rep : Represents uf pointers pair) (nodup : pointers.Nodup) (op : FeedOp) :
    Ends op.perform uf fun changed uf' log =>
      (∃ pointers', Represents uf' pointers' (op.edit pair).1 ∧
        Orderly uf pointers log uf' pointers') ∧ changed = (op.edit pair).2 ∧
          ((∀ e ∈ log, e.Inside) ↔ ¬ op.ErasesFull uf) := by
  cases op with
  | add feed =>
      apply (add_spec rep feed).mono
      rintro changed uf' log ⟨rep', same, sound⟩
      exact ⟨rep', same, fun _ => id, fun _ e member => (sound e member).inside⟩
  | delete feed =>
      apply (delete_spec rep nodup feed).mono
      rintro changed uf' log ⟨rep', same, inside⟩
      refine ⟨rep', same, ?_⟩
      rw [inside, FeedOp.ErasesFull, rep.names_eq]

/-- What is done with a new pair follows on its making. -/
theorem ufPairNew_bind {β γ : Type} (user : CString) (feed : Option CString) (rest : Owner β)
    (next : β → Owner γ) :
    ufPairNew user feed (rest >>= next) = Traced.andThen next (ufPairNew user feed rest) := by
  unfold ufPairNew
  cases vcVectorCreate Ptr 1 POINTER_SIZE true with
  | none => rfl
  | some feeds =>
      cases feed with
      | none => rfl
      | some feed =>
          show (pushFeed feed >>= fun _ => rest >>= next).run _ = _
          rw [← bind_assoc]
          rfl

/-- What a new pair has become by these calls, and all that has happened on the way. -/
def Reached (user : CString) (feed : Option CString) (ops : List FeedOp) (uf : UfPair)
    (log : List (Event Ptr)) : Prop :=
  ufPairNew user feed (sequence FeedOp.perform ops) = .ok ((), uf, log)

theorem Reached.append {user : CString} {feed : Option CString} {ops later : List FeedOp}
    {uf' : UfPair} {log log' : List (Event Ptr)} (reached : Reached user feed ops uf log)
    (ran : (sequence FeedOp.perform later).run uf = .ok ((), uf', log')) :
    Reached user feed (ops ++ later) uf' (log ++ log') := by
  unfold Reached at reached ⊢
  rw [Traced.sequence_append, ufPairNew_bind, reached, Traced.andThen_ok, ran, Traced.map_ok]

/-- A new pair, with a feed or without. -/
theorem new_spec (user : CString) (feed : Option CString) :
    ∃ uf log pointers, Reached user feed [] uf log ∧
      Represents uf pointers (Source.ufPairNew user feed) ∧ Owned uf pointers log := by
  unfold Reached ufPairNew
  cases created : vcVectorCreate Ptr 1 POINTER_SIZE true with
  | none => cases created
  | some feeds =>
      have empty : Represents ⟨[user], 0, feeds⟩ [] ⟨user, []⟩ :=
        ⟨holds_create created, rfl, rfl⟩
      have owned : Owned ⟨[user], 0, feeds⟩ [] [] := rfl
      cases feed with
      | none => exact ⟨_, [], [], rfl, empty, owned⟩
      | some feed =>
          obtain ⟨⟨⟩, uf, log, ran, ⟨pointers, rep, orderly⟩, -⟩ := pushFeed_spec empty feed
          refine ⟨uf, log, pointers, ?_, rep, owned.step orderly⟩
          show (pushFeed feed >>= fun _ => pure ()).run _ = _
          rw [bind_pure_unit]
          exact ran

/-- Any calls on a pair do what they make of the list, and are in order with the strings. -/
theorem sequence_owned (rep : Represents uf pointers pair) {log : List (Event Ptr)}
    (owned : Owned uf pointers log) (ops : List FeedOp) :
    Ends (sequence FeedOp.perform ops) uf fun _ uf' log' =>
      (∃ pointers', Represents uf' pointers' (ops.foldl (fun pair op => (op.edit pair).1) pair) ∧
        Owned uf' pointers' (log ++ log')) ∧ uf.made ⊆ uf'.made := by
  have start : (∃ pointers, Represents uf pointers pair ∧ Owned uf pointers log) ∧
      uf.made ⊆ uf.made := ⟨⟨pointers, rep, owned⟩, List.Subset.refl _⟩
  have admitted : Admitted (fun _ _ => True) (fun pair op => (op.edit pair).1) pair ops :=
    Traced.admitted_of_forall (fun _ _ => trivial) pair ops
  apply Traced.ends_sequence_log (I := fun uf' pair log =>
    (∃ pointers, Represents uf' pointers pair ∧ Owned uf' pointers log) ∧ uf.made ⊆ uf'.made)
    ?_ start admitted
  rintro uf₁ pair₁ op log₁ ⟨⟨pointers₁, rep₁, owned₁⟩, grown⟩ -
  apply (perform_spec rep₁ owned₁.nodup op).mono
  rintro changed uf₂ log₂ ⟨⟨pointers₂, rep₂, orderly⟩, -, -⟩
  exact ⟨⟨pointers₂, rep₂, owned₁.step orderly⟩, List.Subset.trans grown orderly.made_subset⟩

/-- Whatever calls have been made, the pair is what they make of the list, and the strings in
use are those that have not been freed. -/
theorem sequence_represents (user : CString) (feed : Option CString) (ops : List FeedOp) :
    ∃ uf log pointers, Reached user feed ops uf log ∧
      Represents uf pointers
        (ops.foldl (fun pair op => (op.edit pair).1) (Source.ufPairNew user feed)) ∧
          Owned uf pointers log := by
  obtain ⟨uf, log, pointers, reached, rep, owned⟩ := new_spec user feed
  obtain ⟨⟨⟩, uf', log', ran, ⟨pointers', rep', owned'⟩, -⟩ := sequence_owned rep owned ops
  exact ⟨uf', log ++ log', pointers', reached.append ran, rep', owned'⟩

/-- **Where a call leaves the block.** After any calls on a new pair, the next one touches
bytes outside of the block exactly when it deletes a feed that is there from a block that is
full: the move of `vc_vector_erase` takes one element more than there are behind it. -/
theorem feeds_inside_iff (user : CString) (feed : Option CString) (ops : List FeedOp)
    (op : FeedOp) : ∃ uf log changed uf' log',
      ufPairNew user feed (sequence FeedOp.perform ops) = .ok ((), uf, log) ∧
        op.perform.run uf = .ok (changed, uf', log') ∧
          ((∀ e ∈ log', e.Inside) ↔ ¬ op.ErasesFull uf) := by
  obtain ⟨uf, log, pointers, ran, rep, owned⟩ := sequence_represents user feed ops
  obtain ⟨changed, uf', log', performed, -, -, inside⟩ := perform_spec rep owned.nodup op
  exact ⟨uf, log, changed, uf', log', ran, performed, inside⟩

end Sequences

/-- As many feeds as a new block has room for. -/
def eightFeeds : List FeedOp :=
  ["a", "b", "c", "d", "e", "f", "g", "h"].map fun name => .add (lit name)

/-- The first of the eight is deleted: 64 bytes are moved from the offset 8. -/
theorem full_block_left : ¬ ∀ (user : CString) (feed : Option CString) (ops : List FeedOp)
    (op : FeedOp) (uf uf' : UfPair) (log log' : List (Event Ptr)) (changed : Bool),
    ufPairNew user feed (sequence FeedOp.perform ops) = .ok ((), uf, log) →
      op.perform.run uf = .ok (changed, uf', log') → ∀ e ∈ log', e.Inside := by
  intro all
  have left : ((ufPairNew (lit "u") none (sequence FeedOp.perform eightFeeds)).toOption.any
      fun built => ((FeedOp.delete (lit "a")).perform.run built.2.1).toOption.any
        fun result => result.2.2.contains (.touch 8 64 64)) = true := by decide +kernel
  cases ran : ufPairNew (lit "u") none (sequence FeedOp.perform eightFeeds) with
  | error reason =>
      rw [ran] at left
      cases left
  | ok built =>
      obtain ⟨⟨⟩, uf, log⟩ := built
      rw [ran] at left
      cases performed : (FeedOp.delete (lit "a")).perform.run uf with
      | error reason => simp [performed, Except.toOption] at left
      | ok result =>
          obtain ⟨changed, uf', log'⟩ := result
          have member : .touch 8 64 64 ∈ log' := by simpa [performed, Except.toOption] using left
          have inside := all _ _ _ _ _ _ _ _ _ ran performed _ member
          revert inside
          decide

end Feedserver.Buffer
